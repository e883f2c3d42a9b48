import PartProgram.Proofs.Preparing

/-!
# The exit status

The number that a run ends with tells how far it came. It is 1 if the command line ended in the usage, 2 if the
configuration or the input could not be had, and 3 or 0 if there was something to tokenize, 3 meaning that
there were errors. The number of these is in the summary, the last entry of the log.

An input that is a directory can be opened, so the run starts to tokenize, and ends with 3 although there
is no error to count.
-/

namespace PartProgram.Tool

open Block Config

variable {args : List Bytes} {input : Bytes} {h h' : Host} {job : Job} {o : Options}

/-- The configuration that the command line names is not a directory. -/
def ConfigIsNoDirectory (args : List Bytes) (h : Host) : Prop :=
  ∀ o name l, Options.ofArguments args = .ok o → o.config = some name → h.find name ≠ .ok (l, .directory)

/-- How far a run comes. -/
inductive Comes (args : List Bytes) (input : Bytes) (h : Host) : Outcome → Prop where
  /-- To the usage. -/
  | usage {refusal : Refusal} (hargs : Options.ofArguments args = .error refusal) :
      Comes args input h ⟨.usage, [], h.put (.standardError refusal.text)⟩
  /-- To a configuration or an input that cannot be had. -/
  | unprepared {o : Options} {h' : Host} (hargs : Options.ofArguments args = .ok o)
      (hwhy : o.Unconfigured (o.log h).2 ∨ o.NoInput (o.log h).2) : Comes args input h ⟨.unprepared, [], h'⟩
  /-- To tokenizing. -/
  | ready {o : Options} {job : Job} {h' : Host} (hargs : Options.ofArguments args = .ok o)
      (hready : prepare args input h = .ok (job, h')) (hconfigured : ¬ o.Unconfigured (o.log h).2)
      (hinput : ¬ o.NoInput (o.log h).2)
      (hdirectory : job.source.isDirectory = true ↔ o.InputIsDirectory (o.log h).2) :
      Comes args input h (job.conclude (job.tokenize h'))

theorem comes_run (input : Bytes) (hdirectory : ConfigIsNoDirectory args h) :
    Comes args input h (run args input h) := by
  cases hargs : Options.ofArguments args with
  | error refusal =>
    have hrun : run args input h = ⟨.usage, [], h.put (.standardError refusal.text)⟩ := by
      rw [run, prepare, hargs]
    rw [hrun]
    exact .usage hargs
  | ok o =>
    obtain ⟨job, h', hprepare, hconfigured, hinput, hsource⟩ | ⟨h', hprepare, hwhy⟩ :=
      prepare_cases input h (length_names_le hargs) fun name l => hdirectory o name l hargs
    · have hready : prepare args input h = .ok (job, h') := by simp only [prepare, hargs, hprepare]
      have hrun : run args input h = job.conclude (job.tokenize h') := by rw [run, hready]
      rw [hrun]
      exact .ready hargs hready hconfigured hinput hsource
    · have hrun : run args input h = ⟨.unprepared, [], h'⟩ := by simp only [run, prepare, hargs, hprepare]
      rw [hrun]
      exact .unprepared hargs hwhy

/-- A run that comes to tokenizing ends well exactly if its input is no directory and has no error. -/
theorem code_conclude (hready : prepare args input h = .ok (job, h')) :
    (job.conclude (job.tokenize h')).status.code =
      if job.source.isDirectory = false ∧ errorCount args input h = 0 then 0 else 3 := by
  obtain ⟨t, hread⟩ := job.exists_reads h'
  rw [hread.status, errorCount_eq hready hread]
  simp only [List.length_eq_zero_iff]
  split_ifs <;> rfl

namespace Comes

variable {out : Outcome}

theorem code_eq_one_iff (hcomes : Comes args input h out) : out.status.code = 1 ↔
    ∃ refusal, Options.ofArguments args = .error refusal ∧ out.host = h.put (.standardError refusal.text) := by
  cases hcomes with
  | usage hargs => exact iff_of_true rfl ⟨_, hargs, rfl⟩
  | unprepared hargs _ => simp [hargs, Status.code]
  | ready hargs hready _ _ _ =>
    rw [code_conclude hready]
    split_ifs <;> simp [hargs]

theorem code_eq_two_iff (hcomes : Comes args input h out) : out.status.code = 2 ↔
    ∃ o, Options.ofArguments args = .ok o ∧ (o.Unconfigured (o.log h).2 ∨ o.NoInput (o.log h).2) := by
  cases hcomes with
  | usage hargs => simp [hargs, Status.code]
  | unprepared hargs hwhy => exact iff_of_true rfl ⟨_, hargs, hwhy⟩
  | ready hargs hready hconfigured hinput _ =>
    rw [code_conclude hready]
    split_ifs <;> simp [hargs, hconfigured, hinput]

theorem code_eq_three_iff (hcomes : Comes args input h out) : out.status.code = 3 ↔
    ∃ o, Options.ofArguments args = .ok o ∧ ¬ o.Unconfigured (o.log h).2 ∧ ¬ o.NoInput (o.log h).2 ∧
      (o.InputIsDirectory (o.log h).2 ∨ 0 < errorCount args input h) := by
  cases hcomes with
  | usage hargs => simp [hargs, Status.code]
  | unprepared hargs hwhy =>
    refine iff_of_false (by simp [Status.code]) ?_
    rintro ⟨o, hargs', hconfigured, hinput, -⟩
    obtain rfl := Except.ok.inj (hargs.symm.trans hargs')
    exact hwhy.elim hconfigured hinput
  | ready hargs hready hconfigured hinput hdirectory =>
    rw [code_conclude hready]
    simp [hargs, hconfigured, hinput, ← hdirectory, ← Nat.pos_iff_ne_zero, or_iff_not_imp_left]

theorem code_eq_zero_iff (hcomes : Comes args input h out) : out.status.code = 0 ↔
    ∃ o, Options.ofArguments args = .ok o ∧ ¬ o.Unconfigured (o.log h).2 ∧ ¬ o.NoInput (o.log h).2 ∧
      ¬ o.InputIsDirectory (o.log h).2 ∧ errorCount args input h = 0 := by
  cases hcomes with
  | usage hargs => simp [hargs, Status.code]
  | unprepared hargs hwhy =>
    refine iff_of_false (by simp [Status.code]) ?_
    rintro ⟨o, hargs', hconfigured, hinput, -⟩
    obtain rfl := Except.ok.inj (hargs.symm.trans hargs')
    exact hwhy.elim hconfigured hinput
  | ready hargs hready hconfigured hinput hdirectory =>
    rw [code_conclude hready]
    simp [hargs, hconfigured, hinput, ← hdirectory]

end Comes

/-- **What the exit status tells.** The configuration not being a directory, a run ends with 1 if the command line
ends in the usage; with 2 if the configuration cannot be opened or is not valid, or the input cannot be
opened; and else with 3 if the input is a directory or there are errors in it, and with 0 if not. The
errors are the faults in what is read, and the summary has their number. -/
theorem exit_status_tells (args : List Bytes) (input : Bytes) (h : Host) (hdirectory : ConfigIsNoDirectory args h) :
    ((run args input h).status.code = 1 ↔ ∃ refusal, Options.ofArguments args = .error refusal ∧
      (run args input h).host = h.put (.standardError (refusal.lead ++ usage))) ∧
    ((run args input h).status.code = 2 ↔ ∃ o, Options.ofArguments args = .ok o ∧
      (o.Unconfigured (o.log h).2 ∨ o.NoInput (o.log h).2)) ∧
    ((run args input h).status.code = 3 ↔ ∃ o, Options.ofArguments args = .ok o ∧
      ¬ o.Unconfigured (o.log h).2 ∧ ¬ o.NoInput (o.log h).2 ∧
      (o.InputIsDirectory (o.log h).2 ∨ 0 < errorCount args input h)) ∧
    ((run args input h).status.code = 0 ↔ ∃ o, Options.ofArguments args = .ok o ∧
      ¬ o.Unconfigured (o.log h).2 ∧ ¬ o.NoInput (o.log h).2 ∧
      ¬ o.InputIsDirectory (o.log h).2 ∧ errorCount args input h = 0) ∧
    ∀ job h', prepare args input h = .ok (job, h') → ∃ t seconds before,
      job.source.Supplies h' (run args input h).host t ∧
      errorCount args input h = (job.findings t).faults.length ∧
      (run args input h).host = job.log.write .info
        (summary (tally (job.findings t).events) (errorCount args input h) seconds) before := by
  have hcomes := comes_run input hdirectory
  refine ⟨hcomes.code_eq_one_iff, hcomes.code_eq_two_iff, hcomes.code_eq_three_iff, hcomes.code_eq_zero_iff,
    fun job h' hready => ?_⟩
  obtain ⟨t, hread⟩ := job.exists_reads h'
  have hrun : run args input h = job.conclude (job.tokenize h') := by rw [run, hready]
  rw [hrun]
  refine ⟨t, duration (job.tokenize h').start (job.tokenize h').session.host.now.1,
    (job.tokenize h').session.host.now.2, hread.supplied.of_loggedTo (job.loggedTo_conclude _),
    errorCount_eq hready hread, ?_⟩
  rw [job.host_conclude, hread.events, errorCount, hready]

/-- A host with a configuration file that asks for significands that there are not. -/
def misconfigured : Host where
  files := [(⟨.working 0, [ascii "c"]⟩, ascii "[Tokenize]\nsignificand-bits = 24\n")]

/-- A configuration that is not valid keeps the run from getting ready. -/
theorem exit_status_tells_misconfigured :
    ConfigIsNoDirectory [ascii "-c", ascii "c"] misconfigured ∧
      ∃ o, Options.ofArguments [ascii "-c", ascii "c"] = .ok o ∧
        (o.Unconfigured (o.log misconfigured).2 ∨ o.NoInput (o.log misconfigured).2) := by
  have hconfig : ConfigIsNoDirectory [ascii "-c", ascii "c"] misconfigured := by
    rintro o name l ⟨⟩ ⟨⟩ hfind
    cases hfind
  exact ⟨hconfig, (exit_status_tells _ [] misconfigured hconfig).2.1.mp (by decide)⟩

/-- Where the input is a directory it cannot be read, and the run ends as if there were errors in it. -/
theorem unreadable_input_exits_three :
    (run [ascii "d"] [] { directories := [⟨.working 0, [ascii "d"]⟩] }).status.code = 3 ∧
      errorCount [ascii "d"] [] { directories := [⟨.working 0, [ascii "d"]⟩] } = 0 := by decide

end PartProgram.Tool
