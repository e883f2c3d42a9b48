import PartProgram.Proofs.Findings
import PartProgram.Proofs.Logging
import PartProgram.Tool.Run

/-!
# What a run reads

The tokenizer reads a text to its end, keeps the events and the faults and logs the faults. So what
it comes to follows from what is found in the text (`Session.after`).

The text is what the source supplies (`Source.Supplies`). That is standard input, or the content of
the file; only of a file that the log goes to can it be more, namely what is logged meanwhile. A
directory supplies nothing, and that reading fails there shows in the log and in the status.
-/

namespace PartProgram.Tool

open Number Block Config

variable {job : Job} {h h' : Host} {s : Session} {r : Reader} {t : Bytes}

/-! ### From findings to a session -/

/-- Log faults, one after the other. -/
def logFaults (l : Log) (faults : List Fault) (h : Host) : Host :=
  faults.foldl (fun h f => l.write .error f.report.text h) h

theorem logFaults_singleton (l : Log) (f : Fault) (h : Host) :
    logFaults l [f] h = l.write .error f.report.text h := rfl

theorem logFaults_append (l : Log) (fs gs : List Fault) (h : Host) :
    logFaults l (fs ++ gs) h = logFaults l gs (logFaults l fs h) := List.foldl_append

theorem loggedTo_logFaults (l : Log) (fs : List Fault) : ∀ h : Host, Host.LoggedTo l.sink h (logFaults l fs h) := by
  induction fs with
  | nil => exact fun h => .refl _ h
  | cons f fs ih => exact fun h => (Host.LoggedTo.write l .error f.report.text h).trans (ih _)

/-- The session after something more has been found. -/
def Session.after (l : Log) (s : Session) (x : Findings) : Session where
  events := x.events.reverse ++ s.events
  faults := x.faults.reverse ++ s.faults
  host := logFaults l x.faults s.host

namespace Session

@[simp] theorem after_empty (l : Log) (s : Session) : s.after l {} = s := rfl

theorem refines_after (l : Log) (s : Session) : Refines (s.after l) Findings.keep keep := by
  intro e x
  simp [Findings.keep, keep, after]

theorem logFault_after (l : Log) (s : Session) (f : Fault) (x : Findings) :
    logFault l f (s.after l x) = s.after l (Findings.keepFault f x) := by
  simp [Findings.keepFault, logFault, after, logFaults_append, logFaults_singleton]

theorem loggedTo_after (l : Log) (s : Session) (x : Findings) : Host.LoggedTo l.sink s.host (s.after l x).host :=
  loggedTo_logFaults l x.faults s.host

end Session

namespace Job

/-- What is found in a text that is read from some reader on. -/
def found (job : Job) (t : Bytes) (r : Reader) : Reader × Findings :=
  Block.readOut job.settings.rules Findings.keep Findings.keepFault job.settings.keepGoing t r {}

/-- Read a text and, unless a fault stops the reader, the end of the input. -/
def readOut (job : Job) : Bytes → Reader → Session → Reader × Session :=
  Block.readOut job.settings.rules Session.keep (Session.logFault job.log) job.settings.keepGoing

theorem readOut_eq (job : Job) (t : Bytes) (r : Reader) (s : Session) :
    job.readOut t r s = Prod.map id (s.after job.log) (job.found t r) :=
  (Session.refines_after job.log s).readOut (Session.logFault_after job.log s) t r {}

theorem loggedTo_readOut (job : Job) (t : Bytes) (r : Reader) (s : Session) :
    Host.LoggedTo job.log.sink s.host (job.readOut t r s).2.host := by
  rw [readOut_eq]
  exact Session.loggedTo_after _ _ _

theorem loggedTo_readText (job : Job) (t : Bytes) (r : Reader) (s : Session) :
    Host.LoggedTo job.log.sink s.host (job.readText t r s).2.host := by
  have heq : job.readText t r (s.after job.log {}) = Prod.map id (s.after job.log) (Reader.feedAll job.settings.rules
      Findings.keep Findings.keepFault job.settings.keepGoing t r {}) :=
    (Session.refines_after job.log s).feedAll (Session.logFault_after job.log s) t r {}
  rw [Session.after_empty] at heq
  rw [heq]
  exact Session.loggedTo_after _ _ _

/-! ### Files -/

theorem readEnd_eq (hr : r.failed = false) (s : Session) : job.readEnd r s = job.readOut [] r s := by
  rw [readOut, readOut_nil hr]
  rfl

theorem readText_of_failed (hfailed : (job.readText t r s).1.failed = true) :
    job.readText t r s = job.readOut t r s := by
  rw [readOut, Block.readOut]
  exact (if_pos hfailed).symm

theorem readOut_append_of_not_failed (hr : r.failed = false) (hfailed : ¬ (job.readText t r s).1.failed = true)
    (u : Bytes) : job.readOut (t ++ u) r s = job.readOut u (job.readText t r s).1 (job.readText t r s).2 := by
  rw [readOut, readOut_append _ _ _ _ hr]
  exact if_neg hfailed

theorem contentAt_readOut (job : Job) (l : Location) (t : Bytes) (r : Reader) (s : Session) :
    s.host.contentAt l <+: (job.readOut t r s).2.host.contentAt l :=
  (job.loggedTo_readOut t r s).contentAt_grows l

/-- In rounds, what is read of a file is one text: it has at least what the file held at the start, and
no more than what it holds in the end. -/
theorem readFile_eq (job : Job) (l : Location) : ∀ (rounds offset : Nat) (r : Reader) (s : Session),
    r.failed = false → offset ≤ (s.host.contentAt l).length →
    ∃ t, job.readFile l rounds offset r s = job.readOut t r s ∧
      (0 < rounds → (s.host.contentAt l).drop offset <+: t) ∧
      (s.host.contentAt l).take offset ++ t <+: (job.readOut t r s).2.host.contentAt l := by
  intro rounds
  induction rounds with
  | zero =>
    intro offset r s hr _
    refine ⟨[], readEnd_eq hr s, by simp, ?_⟩
    rw [List.append_nil]
    exact List.IsPrefix.trans (List.take_prefix _ _) (job.contentAt_readOut l [] r s)
  | succ rounds ih =>
    intro offset r s hr hoffset
    rw [readFile]
    cases hrest : (s.host.contentAt l).drop offset with
    | nil =>
      refine ⟨[], readEnd_eq hr s, by simp, ?_⟩
      rw [List.append_nil]
      exact List.IsPrefix.trans (List.take_prefix _ _) (job.contentAt_readOut l [] r s)
    | cons c cs =>
      -- The round reads all of the file that is left, and the next one starts at what is its end now.
      have hwhole : (s.host.contentAt l).take offset ++ (c :: cs) = s.host.contentAt l := by
        rw [← hrest, List.take_append_drop]
      simp only
      split
      case isTrue hfailed =>
        refine ⟨c :: cs, readText_of_failed hfailed, fun _ => List.prefix_rfl, ?_⟩
        rw [hwhole]
        exact job.contentAt_readOut l _ r s
      case isFalse hfailed =>
        have hgrown := (job.loggedTo_readText (c :: cs) r s).contentAt_grows l
        have hlength : offset + (c :: cs).length = (s.host.contentAt l).length := by
          rw [← hrest, List.length_drop]
          omega
        obtain ⟨t, ht, -, hend⟩ := ih (offset + (c :: cs).length) (job.readText (c :: cs) r s).1
          (job.readText (c :: cs) r s).2 (by simpa using hfailed) (hlength ▸ hgrown.length_le)
        have hread := readOut_append_of_not_failed hr hfailed t
        refine ⟨(c :: cs) ++ t, ht.trans hread.symm, fun _ => List.prefix_append _ _, ?_⟩
        rw [hlength, ← List.prefix_iff_eq_take.mp hgrown] at hend
        rwa [hread, ← List.append_assoc, hwhole]

end Job

/-! ### Sources -/

/-- Between two moments, the source supplies a text. -/
inductive Source.Supplies (before after : Host) : Source → Bytes → Prop where
  /-- All of standard input. -/
  | standardInput (t : Bytes) : Supplies before after (.standardInput t) t
  /-- All of a file, and maybe some of what is added to it meanwhile. -/
  | file {path : Bytes} {l : Location} {t : Bytes} (hbefore : before.contentAt l <+: t)
      (hafter : t <+: after.contentAt l) : Supplies before after (.file path l) t
  /-- A directory can be opened, but reading it gives nothing. -/
  | directory (path : Bytes) : Supplies before after (.directory path) []

/-- A source that the log does not go to supplies the same text whatever is logged. -/
theorem Source.Supplies.eq_of_loggedTo {source : Source} {sink : Log.Sink} {after after' : Host} {u : Bytes}
    (ht : source.Supplies h after t) (hu : source.Supplies h after' u) (hlog : Host.LoggedTo sink h after)
    (hlog' : Host.LoggedTo sink h after') (hsink : ∀ path l, source = .file path l → sink ≠ .file l) : t = u := by
  cases ht with
  | standardInput t => cases hu; rfl
  | directory path => cases hu; rfl
  | @file path l t hbefore hafter =>
    obtain _ | ⟨hbefore', hafter'⟩ := hu
    have hl := hsink path l rfl
    rw [hlog.contentAt_eq hl] at hafter
    rw [hlog'.contentAt_eq hl] at hafter'
    rw [hafter.eq_of_length_le hbefore.length_le, hafter'.eq_of_length_le hbefore'.length_le]

/-- Whether a source is a directory. -/
def Source.isDirectory : Source → Bool
  | .directory _ => true
  | .standardInput _ | .file .. => false

theorem Source.Supplies.of_loggedTo {source : Source} {sink : Log.Sink} {after after' : Host}
    (ht : source.Supplies h after t) (hlog : Host.LoggedTo sink after after') : source.Supplies h after' t := by
  cases ht with
  | standardInput t => exact .standardInput t
  | directory path => exact .directory path
  | file hbefore hafter => exact .file hbefore (hafter.trans (hlog.contentAt_grows _))

/-- Reading the clock does not matter to a source. -/
theorem Source.Supplies.of_now {source : Source} {after : Host} (ht : source.Supplies h.now.2 after t) :
    source.Supplies h after t := by
  cases ht with
  | standardInput t => exact .standardInput t
  | directory path => exact .directory path
  | file hbefore hafter =>
    rw [Host.LoggedTo.contentAt_eq (.now .system h) (by simp)] at hbefore
    exact .file hbefore hafter

namespace Job

/-- What is found in a text that the job reads. -/
def findings (job : Job) (t : Bytes) : Findings := Block.findings job.settings.rules job.settings.keepGoing t

theorem readOut_new (job : Job) (t : Bytes) (s : Session) :
    (job.readOut t {} s).2 = s.after job.log (job.findings t) := by rw [readOut_eq]; rfl

theorem not_failed_readOut (job : Job) (t : Bytes) (s : Session) (hfaults : (job.findings t).faults = []) :
    (job.readOut t {} s).1.failed = false := by
  rw [readOut_eq]
  by_contra hfailed
  exact faults_of_failed t rfl (Bool.eq_true_of_not_eq_false hfailed) hfaults

/-- A directory is not read, and any other source is read to a fault or to its end. -/
theorem readSource_eq (job : Job) (s : Session) :
    ∃ t, job.source.Supplies s.host (job.readSource s).2.host t ∧
      if job.source.isDirectory then
        t = [] ∧ job.readSource s =
          (false, { s with host := job.log.write .error (ascii "Reading input: Is a directory") s.host })
      else job.readSource s = (!(job.readOut t {} s).1.failed, s.after job.log (job.findings t)) := by
  rw [readSource]
  cases job.source with
  | standardInput t =>
    refine ⟨t, .standardInput t, ?_⟩
    rw [← readOut_new, readOut, Block.readOut]
    rfl
  | directory path => exact ⟨[], .directory path, rfl, rfl⟩
  | file path l =>
    obtain ⟨t, ht, hbefore, hafter⟩ := job.readFile_eq l maxRounds 0 {} s rfl (Nat.zero_le _)
    refine ⟨t, ?_, ?_⟩
    · simp only [ht]
      exact .file (hbefore (by decide)) hafter
    · rw [← readOut_new, ← ht]
      rfl

/-! ### Tokenizing -/

/-- The job reads the text `t`. -/
structure Reads (job : Job) (h : Host) (t : Bytes) : Prop where
  supplied : job.source.Supplies h (job.tokenize h).session.host t
  events : (job.tokenize h).session.events.reverse = (job.findings t).events
  faults : (job.tokenize h).session.faults.reverse = (job.findings t).faults
  host : job.source.isDirectory = false →
    (job.tokenize h).session.host = logFaults job.log (job.findings t).faults h.now.2
  complete : (job.findings t).faults = [] → (job.tokenize h).complete = !job.source.isDirectory

theorem exists_reads (job : Job) (h : Host) : ∃ t, job.Reads h t := by
  obtain ⟨t, hsupplied, hread⟩ := job.readSource_eq { host := h.now.2 }
  have hsession : (job.tokenize h).session = (job.readSource { host := h.now.2 }).2 := rfl
  have hcomplete : (job.tokenize h).complete = (job.readSource { host := h.now.2 }).1 := rfl
  refine ⟨t, ?_⟩
  cases hdir : job.source.isDirectory with
  | true =>
    rw [if_pos hdir] at hread
    obtain ⟨rfl, hread⟩ := hread
    rw [hread] at hsession hcomplete
    refine ⟨hsupplied.of_now, ?_, ?_, fun hno => ?_, fun _ => ?_⟩
    · rw [hsession]
      rfl
    · rw [hsession]
      rfl
    · rw [hno] at hdir
      contradiction
    · rw [hcomplete, hdir]
      rfl
  | false =>
    rw [if_neg (by simp [hdir])] at hread
    rw [hread] at hsession hcomplete
    refine ⟨hsupplied.of_now, ?_, ?_, fun _ => ?_, fun hfaults => ?_⟩
    · simp [hsession, Session.after]
    · simp [hsession, Session.after]
    · rw [hsession, Session.after]
    · rw [hcomplete, job.not_failed_readOut t _ hfaults, hdir]

theorem loggedTo_tokenize (job : Job) (h : Host) : Host.LoggedTo job.log.sink h (job.tokenize h).session.host := by
  obtain ⟨t, -, hread⟩ := job.readSource_eq { host := h.now.2 }
  refine (Host.LoggedTo.now _ h).trans ?_
  change Host.LoggedTo _ _ (job.readSource { host := h.now.2 }).2.host
  split_ifs at hread
  · rw [hread.2]
    exact Host.LoggedTo.write job.log .error (ascii "Reading input: Is a directory") h.now.2
  · rw [hread]
    exact Session.loggedTo_after job.log { host := h.now.2 } _

theorem host_conclude (job : Job) (done : Tokenized) : (job.conclude done).host =
    job.log.write .info (summary (tally done.session.events.reverse) done.session.faults.length
      (duration done.start done.session.host.now.1)) done.session.host.now.2 := rfl

theorem loggedTo_conclude (job : Job) (done : Tokenized) :
    Host.LoggedTo job.log.sink done.session.host (job.conclude done).host := by
  rw [host_conclude]
  exact (Host.LoggedTo.now _ _).trans (Host.LoggedTo.write job.log _ _ _)

namespace Reads

theorem output (hread : job.Reads h t) (hquiet : job.quiet = false) :
    (job.conclude (job.tokenize h)).output = printout (job.findings t).events := by
  rw [conclude]
  simp [hquiet, hread.events]

theorem status (hread : job.Reads h t) : (job.conclude (job.tokenize h)).status =
    if job.source.isDirectory = false ∧ (job.findings t).faults = [] then .success else .faulty := by
  have hfaults : (job.tokenize h).session.faults = [] ↔ (job.findings t).faults = [] := by
    rw [← hread.faults, List.reverse_eq_nil_iff]
  rw [conclude]
  simp only [Bool.and_eq_true, List.isEmpty_iff, hfaults]
  by_cases hnone : (job.findings t).faults = []
  · simp [hread.complete hnone, hnone]
  · simp [hnone]

end Reads

end Job

/-! ### Runs -/

/-- How many errors a run finds in its input. -/
def errorCount (args : List Bytes) (input : Bytes) (h : Host) : Nat :=
  match prepare args input h with
  | .error _ => 0
  | .ok (job, h') => (job.tokenize h').session.faults.length

theorem errorCount_eq {args : List Bytes} {input : Bytes}
    (hready : prepare args input h = .ok (job, h')) (hread : job.Reads h' t) :
    errorCount args input h = (job.findings t).faults.length := by
  rw [errorCount, hready, ← hread.faults, List.length_reverse]

end PartProgram.Tool
