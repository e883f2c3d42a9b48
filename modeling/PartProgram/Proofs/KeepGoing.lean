import PartProgram.Proofs.Tokenizing

/-!
# Runs that keep going

Two runs are compared, one with `-k` before its arguments and one without. The switch is read before
everything else and changes nothing in how the rest of the command line is read (`Options.ofArguments_going`), nor
in how the run gets ready, except that the job is to go on after a fault (`prepare_going`). So both read the
same text, unless they log into it, and the run that keeps going finds in it what the other one finds and
maybe more (`findings_keepGoing`).
-/

namespace PartProgram.Tool

open Block Config

/-! ### The command line -/

namespace Options

/-- The options with `-k`. -/
abbrev going (o : Options) : Options := o.set .keepGoing

/-- The command line as far as it has been read, after `-k`. -/
def Scan.going (scan : Scan) : Scan := { scan with options := scan.options.going }

theorem set_going (o : Options) (s : Switch) : o.going.set s = (o.set s).going := by
  cases s <;> rfl

theorem setValue_going (o : Options) (v : Valued) (value : Bytes) :
    o.going.setValue v value = (o.setValue v value).map going := by
  cases v with
  | config => rfl
  | logFile => rfl
  | width =>
    rw [setValue, setValue]
    cases (Text.int32? value).bind Number.Width.ofBits? <;> rfl

theorem letters_going (cs : Bytes) : ∀ o : Options, o.going.letters cs = (o.letters cs).map Scan.going := by
  induction cs with
  | nil => exact fun _ => rfl
  | cons c cs ih =>
    intro o
    rw [letters, letters]
    cases Letter.ofByte? c with
    | none => rfl
    | some letter =>
      cases letter with
      | help => rfl
      | switch s =>
        simp only [set_going]
        exact ih (o.set s)
      | valued v =>
        simp only
        split_ifs
        · rfl
        · rw [setValue_going]
          cases o.setValue v cs <;> rfl

theorem argument_going (scan : Scan) (arg : Bytes) :
    argument scan.going arg = (argument scan arg).map Scan.going := by
  unfold argument
  cases hawait : scan.awaiting with
  | some v =>
    simp only [Scan.going, hawait, setValue_going]
    cases scan.options.setValue v arg <;> rfl
  | none =>
    simp only [Scan.going, hawait]
    split_ifs
    · rfl
    · rfl
    · match arg with
      | [] => rfl
      | [c] => rfl
      | first :: c :: cs =>
        simp only
        split_ifs
        · exact letters_going (c :: cs) scan.options
        · rfl

theorem arguments_going (args : List Bytes) : ∀ scan : Scan,
    arguments scan.going args = (arguments scan args).map going := by
  induction args with
  | nil =>
    intro scan
    rw [arguments, arguments]
    cases hawait : scan.awaiting <;> simp only [Scan.going, hawait] <;> rfl
  | cons arg args ih =>
    intro scan
    rw [arguments, arguments, argument_going]
    cases argument scan arg with
    | error e => rfl
    | ok scan' => exact ih scan'

/-- After `-k` the command line is read as without it. -/
theorem ofArguments_going (args : List Bytes) : ofArguments (ascii "-k" :: args) = (ofArguments args).map going := by
  -- The first argument only sets the switch.
  have hk : arguments {} ((ascii "-k" :: args).map Text.untilNul) =
      arguments ({} : Scan).going (args.map Text.untilNul) := rfl
  rw [ofArguments, ofArguments, hk, arguments_going]
  cases arguments {} (args.map Text.untilNul) with
  | error e => rfl
  | ok o =>
    have hnames : o.going.names = o.names := rfl
    simp only [Except.map, hnames]
    split_ifs <;> rfl

/-! ### Getting ready -/

theorem override_going (o : Options) (t : Settings) :
    o.going.override t = { o.override t with keepGoing := true } := by
  simp only [override]
  cases o.keepGoing <;> rfl

end Options

/-- The job, with the order to go on after a fault. -/
def Job.going (job : Job) : Job := { job with settings := { job.settings with keepGoing := true } }

theorem Options.prepare_going (o : Options) (input : Bytes) (h : Host) :
    o.going.prepare input h = (o.prepare input h).map (Prod.map Job.going id) := by
  have hlog : o.going.log h = o.log h := rfl
  have hconfig : readConfig o.going (o.log h).1 (o.log h).2 = readConfig o (o.log h).1 (o.log h).2 := rfl
  rw [Options.prepare, Options.prepare, hlog]
  simp only [hconfig, override_going]
  cases readConfig o (o.log h).1 (o.log h).2 with
  | error h' => rfl
  | ok made =>
    have hsource : findSource o.going input (o.log h).1 made.2 = findSource o input (o.log h).1 made.2 := rfl
    simp only [hsource]
    cases findSource o input (o.log h).1 made.2 <;> rfl

/-- With `-k` a run gets ready as without it, and its job is to go on after a fault. -/
theorem prepare_going (args : List Bytes) (input : Bytes) (h : Host) :
    prepare (ascii "-k" :: args) input h = (prepare args input h).map (Prod.map Job.going id) := by
  rw [prepare, prepare, Options.ofArguments_going]
  cases Options.ofArguments args with
  | error refusal => rfl
  | ok o =>
    simp only [Except.map, Options.prepare_going]
    cases o.prepare input h <;> rfl

/-! ### Reading on -/

attribute [ext] Session Tokenized

namespace Job

variable {job : Job} {h : Host} {t : Bytes}

theorem findings_going (job : Job) (t : Bytes) : ∃ more, job.going.findings t = (job.findings t).add more ∧
    ((job.findings t).faults = [] → more = {}) := by
  rw [findings, findings]
  cases hkeep : job.settings.keepGoing with
  | true => exact ⟨{}, by rw [Findings.add_empty]; rfl, fun _ => rfl⟩
  | false => exact findings_keepGoing job.settings.rules t

/-- The job does not log into the file that it reads. -/
def LogsElsewhere (job : Job) : Prop := ∀ path l, job.source = .file path l → job.log.sink ≠ .file l

/-- Going on or not, a job that logs elsewhere reads the same text. -/
theorem exists_reads_going (hlog : job.LogsElsewhere) (h : Host) : ∃ t, job.Reads h t ∧ job.going.Reads h t := by
  obtain ⟨t, hread⟩ := job.exists_reads h
  obtain ⟨u, hread'⟩ := job.going.exists_reads h
  obtain rfl : t = u := hread.supplied.eq_of_loggedTo hread'.supplied (job.loggedTo_tokenize h)
    (job.going.loggedTo_tokenize h) hlog
  exact ⟨t, hread, hread'⟩

theorem isDirectory_going (job : Job) : job.going.source.isDirectory = job.source.isDirectory := rfl

/-- A directory is not read, so there is nothing to go on with. -/
theorem tokenize_going_of_directory (hdirectory : job.source.isDirectory = true) (h : Host) :
    job.going.tokenize h = job.tokenize h := by
  have hsource : job.going.source = job.source := rfl
  cases hs : job.source with
  | standardInput | file =>
    rw [hs] at hdirectory
    cases hdirectory
  | directory path =>
    simp only [tokenize, readSource, hsource, hs]
    rfl

/-- Without a fault there is nothing to go on after. -/
theorem tokenize_going_of_no_fault (hread : job.Reads h t) (hgoing : job.going.Reads h t)
    (hnone : (job.findings t).faults = []) : job.going.tokenize h = job.tokenize h := by
  cases hdirectory : job.source.isDirectory with
  | true => exact tokenize_going_of_directory hdirectory h
  | false =>
    obtain ⟨more, hmore, hempty⟩ := job.findings_going t
    rw [hempty hnone, Findings.add_empty] at hmore
    ext1
    · rfl
    · rw [hgoing.complete (hmore ▸ hnone), hread.complete hnone, isDirectory_going]
    · ext1
      · apply List.reverse_injective
        rw [hgoing.events, hread.events, hmore]
      · apply List.reverse_injective
        rw [hgoing.faults, hread.faults, hmore]
      · rw [hgoing.host hdirectory, hread.host hdirectory, hmore]
        rfl

theorem status_going (hread : job.Reads h t) (hgoing : job.going.Reads h t) :
    (job.going.conclude (job.going.tokenize h)).status = (job.conclude (job.tokenize h)).status := by
  obtain ⟨more, hmore, hempty⟩ := job.findings_going t
  have hfaults : (job.going.findings t).faults = [] ↔ (job.findings t).faults = [] := by
    rw [hmore, Findings.faults_add, List.append_eq_nil_iff]
    exact ⟨And.left, fun hnone => ⟨hnone, by rw [hempty hnone]⟩⟩
  rw [hgoing.status, hread.status]
  simp only [isDirectory_going, hfaults]

theorem output_going (hread : job.Reads h t) (hgoing : job.going.Reads h t) :
    (job.conclude (job.tokenize h)).output <+: (job.going.conclude (job.going.tokenize h)).output := by
  cases hquiet : job.quiet with
  | true => simp [conclude, hquiet]
  | false =>
    obtain ⟨more, hmore, -⟩ := job.findings_going t
    rw [hread.output hquiet, hgoing.output hquiet, hmore, printout, printout, Findings.events_add, List.flatMap_append]
    exact List.prefix_append _ _

theorem errorReports_conclude (job : Job) (done : Tokenized) :
    (job.conclude done).host.errorReports = done.session.host.errorReports := by
  rw [host_conclude, Host.errorReports_write, Host.errorReports_now]
  simp

theorem errorReports_going (hread : job.Reads h t) (hgoing : job.going.Reads h t) :
    (job.conclude (job.tokenize h)).host.errorReports <+:
      (job.going.conclude (job.going.tokenize h)).host.errorReports := by
  rw [errorReports_conclude, errorReports_conclude]
  cases hdirectory : job.source.isDirectory with
  | true => rw [tokenize_going_of_directory hdirectory]
  | false =>
    obtain ⟨more, hmore, -⟩ := job.findings_going t
    rw [hread.host hdirectory, hgoing.host hdirectory, hmore, Findings.faults_add, logFaults_append]
    exact (loggedTo_logFaults job.log more.faults _).errorReports

end Job

/-! ### Two runs -/

/-- The run logs into the file that it reads. -/
def LogsIntoInput (args : List Bytes) (input : Bytes) (h : Host) : Prop :=
  ∃ job h' path l, prepare args input h = .ok (job, h') ∧ job.source = .file path l ∧ job.log.sink = .file l

/-- **Keeping going only adds.** A run that does not log into its input ends in the same way with `-k` before its
arguments. It prints and reports as errors what it does without, and maybe more after that; and if
there are no errors in its input, all is the same. -/
theorem keep_going_only_adds (args : List Bytes) (input : Bytes) (h : Host) (hlog : ¬ LogsIntoInput args input h) :
    (run (ascii "-k" :: args) input h).status = (run args input h).status ∧
      (run args input h).output <+: (run (ascii "-k" :: args) input h).output ∧
      (run args input h).host.errorReports <+: (run (ascii "-k" :: args) input h).host.errorReports ∧
      (errorCount args input h = 0 → run (ascii "-k" :: args) input h = run args input h) := by
  cases hready : prepare args input h with
  | error ended =>
    -- Both runs end before they come to tokenizing.
    have hrun : run (ascii "-k" :: args) input h = run args input h := by
      rw [run, run, prepare_going, hready]
      rfl
    rw [hrun]
    exact ⟨rfl, List.prefix_rfl, List.prefix_rfl, fun _ => rfl⟩
  | ok ready =>
    obtain ⟨job, h'⟩ := ready
    have helsewhere : job.LogsElsewhere := fun path l hsource hsink =>
      hlog ⟨job, h', path, l, hready, hsource, hsink⟩
    obtain ⟨t, hread, hgoing⟩ := Job.exists_reads_going helsewhere h'
    have hrun : run args input h = job.conclude (job.tokenize h') := by rw [run, hready]
    have hrun' : run (ascii "-k" :: args) input h = job.going.conclude (job.going.tokenize h') := by
      rw [run, prepare_going, hready]
      rfl
    rw [hrun, hrun']
    refine ⟨Job.status_going hread hgoing, Job.output_going hread hgoing, Job.errorReports_going hread hgoing,
      fun hcount => ?_⟩
    rw [errorCount_eq hready hread, List.length_eq_zero_iff] at hcount
    rw [Job.tokenize_going_of_no_fault hread hgoing hcount]
    rfl

/-- Two blocks, with a line between them that is none. -/
def spoiled : Bytes := ascii "G1\n?\nX2\n"

/-- With `-k` the second block is printed as well. -/
theorem keep_going_only_adds_block :
    ¬ LogsIntoInput [] spoiled {} ∧ (run [ascii "-k"] spoiled {}).status = .faulty ∧
      (run [] spoiled {}).output <+: (run [ascii "-k"] spoiled {}).output ∧
      (run [] spoiled {}).output ≠ (run [ascii "-k"] spoiled {}).output := by
  have hlog : ¬ LogsIntoInput [] spoiled {} := by
    rintro ⟨job, h', path, l, ⟨⟩, ⟨⟩, -⟩
  obtain ⟨hstatus, houtput, -⟩ := keep_going_only_adds [] spoiled {} hlog
  exact ⟨hlog, hstatus.trans (by decide), houtput, by decide⟩

end PartProgram.Tool
