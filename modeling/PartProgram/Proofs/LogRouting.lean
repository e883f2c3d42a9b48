import PartProgram.Proofs.Calendar
import PartProgram.Proofs.Preparing
import Mathlib.Data.List.Induction

/-!
# Where messages go

A program directs its log, asks for messages of level debug or not, and logs messages, in any order and as often as
it likes (`Call`). The log remembers what the calls so far have left behind. Here all of that is read off the calls
themselves: the sink is the one that the latest direction names (`sinkAfter`), headers are coloured if the latest sink
besides the system log is a terminal (`colouredAfter`), messages of level debug are wanted if that was said last
(`debugAfter`), and the moment of a record is the reading of the clock that comes after those of the records before it
(`readings`). What has been written is then known from the calls alone (`written`), down to the bytes of each record
(`recordOf`), and a run writes exactly that (`messages_routed`).

Directing the log to a file can make the file, but it makes no directory and is in the way of none. So a name
leads to the same sink whenever it is used (`SameDirectories.sinkOf`), and only the host at the beginning matters.
-/

namespace PartProgram

namespace Host

variable {h h' h'' : Host} {here l l₀ : Location} {path : Bytes} {k : Nat}

/-! ### Directories stay where they are -/

/-- The two hosts have the same directories. -/
def SameDirectories (h h' : Host) : Prop := ∀ l, h'.inspect l = .ok .directory ↔ h.inspect l = .ok .directory

theorem SameDirectories.refl (h : Host) : SameDirectories h h := fun _ => Iff.rfl

theorem SameDirectories.trans (hfst : SameDirectories h h') (hsnd : SameDirectories h' h'') : SameDirectories h h'' :=
  fun l => (hsnd l).trans (hfst l)

theorem LoggedTo.sameDirectories {sink : Log.Sink} (hlog : LoggedTo sink h h') : SameDirectories h h' := by
  intro l
  obtain heq | ⟨-, content, t, hbefore, hafter⟩ := hlog.inspect l
  · rw [heq]
  · simp [hbefore, hafter]

theorem lookup_create_of_ne (hne : l ≠ l₀) : (h.create l₀).files.lookup l = h.files.lookup l := by
  have hbeq : (l == l₀) = false := beq_eq_false_iff_ne.mpr hne
  rw [create, List.lookup_append, List.lookup_cons, hbeq, List.lookup_nil, Option.or_none]

theorem lookup_create_self (h : Host) (l : Location) : (h.create l).files.lookup l ≠ none := by
  rw [create, List.lookup_append, List.lookup_cons_self, ne_eq, Option.or_eq_none_iff]
  simp

/-- A file that is made where there was nothing does not stand in for a directory. -/
theorem sameDirectories_create (hl : h.inspect l₀ = .error .missing) : SameDirectories h (h.create l₀) := by
  intro l
  refine ⟨inspect_directory_of_create, fun hdirectory => ?_⟩
  have hne : l ≠ l₀ := by
    rintro rfl
    rw [hl] at hdirectory
    cases hdirectory
  rw [inspect_directory_iff] at hdirectory ⊢
  obtain ⟨hlong, hnull, hfile, hthere⟩ := hdirectory
  exact ⟨hlong, hnull, (lookup_create_of_ne hne).trans hfile, hthere⟩

/-- A path leads to the same places in hosts with the same directories. -/
theorem SameDirectories.walk (hsame : SameDirectories h h') (components : List Bytes) : ∀ {here l : Location},
    h'.walk here components = .ok l ↔ h.walk here components = .ok l := by
  induction components with
  | nil => exact Iff.rfl
  | cons c components ih =>
    intro here l
    by_cases hhere : h.inspect here = .ok .directory
    · have hhere' := (hsame here).mpr hhere
      rw [Host.walk, Host.walk, hhere, hhere']
      exact ih
    · -- In either host the path ends here, with whatever is the matter.
      have hstop : ∀ {h₀ : Host}, h₀.inspect here ≠ .ok .directory → h₀.walk here (c :: components) ≠ .ok l := by
        intro h₀ hne
        rw [Host.walk]
        split
        · simp
        · simp
        · next hdirectory => exact absurd hdirectory hne
      exact iff_of_false (hstop (mt (hsame here).mp hhere)) (hstop hhere)

/-- The location at which text can be added under a path. -/
def opening? (h : Host) (path : Bytes) : Option Location := (h.openToAppend path).toOption.map Prod.fst

theorem opening?_of_ok (hopen : h.openToAppend path = .ok (l, h')) : h.opening? path = some l := by
  rw [opening?, hopen]
  rfl

theorem opening?_of_error {obstacle : Obstacle} (hopen : h.openToAppend path = .error obstacle) :
    h.opening? path = none := by
  rw [opening?, hopen]
  rfl

/-- There is a file at the location. -/
def HasFile (h : Host) (l : Location) : Prop := ∃ content, h.inspect l = .ok (.file content)

/-- Where a name is not too long there is a file, nothing at all, or a directory. -/
theorem inspect_ne_directory_iff : h.inspect l ≠ .ok .directory ∧ ¬ (l.names.headD []).length > maxName ↔
    h.HasFile l ∨ h.inspect l = .error .missing := by
  rw [HasFile]
  by_cases hlong : (l.names.headD []).length > maxName
  · rw [inspect, if_pos hlong]
    exact iff_of_false (fun hl => hl.2 hlong) (by simp)
  · rw [and_iff_left hlong, inspect, if_neg hlong]
    split_ifs
    · simp
    · cases h.files.lookup l <;> simp
    · cases h.files.lookup l <;> simp

theorem opening?_eq_some_iff : h.opening? path = some l ↔
    admissible path = .ok () ∧ h.walk (Path.ofBytes path).start (Path.ofBytes path).components = .ok l ∧
      (Path.ofBytes path).directory = false ∧ h.inspect l ≠ .ok .directory ∧ ¬ (l.names.headD []).length > maxName := by
  rw [inspect_ne_directory_iff]
  constructor
  · intro hopening
    cases hopen : h.openToAppend path with
    | error obstacle => simp [opening?_of_error hopen] at hopening
    | ok x =>
      obtain ⟨l', h'⟩ := x
      rw [opening?_of_ok hopen, Option.some.injEq] at hopening
      subst hopening
      obtain ⟨hpath, hwalk, hdirectory, hnode⟩ := openToAppend_eq_ok_iff.mp hopen
      exact ⟨hpath, hwalk, hdirectory, hnode.imp And.left And.left⟩
  · rintro ⟨hpath, hwalk, hdirectory, hnode⟩
    have hopen : ∃ h', h.openToAppend path = .ok (l, h') := by
      simp only [openToAppend_eq_ok_iff, hpath, hwalk, hdirectory, true_and]
      rcases hnode with hfile | hmissing
      · exact ⟨h, Or.inl ⟨hfile, rfl⟩⟩
      · exact ⟨h.create l, Or.inr ⟨hmissing, rfl⟩⟩
    obtain ⟨h', hopen⟩ := hopen
    exact opening?_of_ok hopen

/-- In hosts with the same directories the same paths can be opened. -/
theorem SameDirectories.opening? (hsame : SameDirectories h h') (path : Bytes) :
    h'.opening? path = h.opening? path := by
  refine Option.ext fun l => ?_
  simp only [opening?_eq_some_iff, hsame.walk, ne_eq, hsame l]

/-! ### The clock -/

/-- The readings to come when the clock has been read `k` times: the last one stands for all further readings. -/
def clockAfter (h : Host) (k : Nat) : List Moment := h.clock.drop (min k (h.clock.length - 1))

/-- The reading of the clock after `k` others. -/
def reading (h : Host) (k : Nat) : Moment := (h.clockAfter k).headD {}

@[simp] theorem clockAfter_zero (h : Host) : h.clockAfter 0 = h.clock := by
  rw [clockAfter, Nat.zero_min, List.drop_zero]

theorem now_fst (h : Host) : h.now.1 = h.clock.headD {} := by
  rw [now]
  split <;> simp [*]

theorem now_snd (h : Host) : h.now.2 = { h with clock := h.clock.drop (min 1 (h.clock.length - 1)) } := by
  obtain ⟨files, directories, clock, terminal, terminalAt, writes⟩ := h
  rcases clock with _ | ⟨m, _ | ⟨m', rest⟩⟩
  · rfl
  · rfl
  · simp [now]

theorem now_of_clock (hclock : h'.clock = h.clockAfter k) :
    h'.now.1 = h.reading k ∧ h'.now.2 = { h' with clock := h.clockAfter (k + 1) } := by
  refine ⟨by rw [now_fst, hclock, reading], ?_⟩
  rw [now_snd, hclock, clockAfter, clockAfter, List.drop_drop, List.length_drop]
  congr 2
  omega

/-! ### Files that are made and added to -/

theorem hasFile_iff : h.HasFile l ↔
    ¬ (l.names.headD []).length > maxName ∧ (l = nullDevice ∨ h.files.lookup l ≠ none) := by
  rw [HasFile, inspect]
  split_ifs with hlong hnull hdirectory
  · exact iff_of_false (by simp) fun hl => hl.1 hlong
  · exact iff_of_true ⟨[], rfl⟩ ⟨hlong, Or.inl hnull⟩
  · rw [and_iff_right hlong, or_iff_right hnull]
    cases h.files.lookup l <;> simp
  · rw [and_iff_right hlong, or_iff_right hnull]
    cases h.files.lookup l <;> simp

theorem hasFile_create (hl : h.inspect l = .error .missing) : (h.create l).HasFile l := by
  have hlong := (inspect_ne_directory_iff.mpr (Or.inr hl)).2
  exact hasFile_iff.mpr ⟨hlong, Or.inr (lookup_create_self h l)⟩

theorem LoggedTo.hasFile {sink : Log.Sink} (hlog : LoggedTo sink h h') (hl : h.HasFile l) : h'.HasFile l := by
  rw [hasFile_iff] at hl ⊢
  rwa [hlog.files]

/-- What is written to a file is at the end of its content, unless the file keeps nothing. -/
theorem contentAt_put (hl : h.HasFile l) (hnull : l ≠ nullDevice) (text : Bytes) :
    (h.put (.file l text)).contentAt l = h.contentAt l ++ text := by
  obtain ⟨hlong, hfile⟩ := hasFile_iff.mp hl
  obtain ⟨content, hcontent⟩ := Option.ne_none_iff_exists'.mp (hfile.resolve_left hnull)
  have hadded : (h.put (.file l text)).added l = h.added l ++ text := by simp [added, put]
  have hput : (h.put (.file l text)).files.lookup l = some content := hcontent
  simp only [contentAt, inspect, if_neg hlong, if_neg hnull, hcontent, hput, hadded, List.append_assoc]

/-- A file that is made where there was nothing takes nothing away. -/
theorem contentAt_create (hl : h.inspect l₀ = .error .missing) (l : Location) :
    h.contentAt l <+: (h.create l₀).contentAt l := by
  by_cases hne : l = l₀
  · subst hne
    rw [contentAt, hl]
    exact List.nil_prefix
  · have hadded : (h.create l₀).added l = h.added l := rfl
    rw [contentAt, contentAt, inspect, inspect, lookup_create_of_ne hne, hadded]
    exact List.prefix_rfl

end Host

namespace Log

/-! ### Calls -/

/-- What a program does with its log. -/
inductive Call where
  /-- Direct it to the sink of a name. -/
  | direct (name : Option Bytes)
  /-- Say whether messages of level debug are wanted. -/
  | wantDebug (wanted : Bool)
  /-- Log a message. -/
  | message (level : Level) (text : Bytes)
  deriving DecidableEq, Repr

/-- Make a call. -/
def perform (call : Call) (l : Log) (h : Host) : Log × Host :=
  match call with
  | .direct name => l.direct name h
  | .wantDebug wanted => ({ l with debug := wanted }, h)
  | .message level text => (l, l.write level text h)

/-- The calls, one after the other, with a log that nothing has been done with yet. -/
def run (h : Host) (calls : List Call) : Log × Host :=
  calls.foldl (fun (l, h) call => perform call l h) ({}, h)

theorem run_concat (h : Host) (calls : List Call) (call : Call) :
    run h (calls ++ [call]) = perform call (run h calls).1 (run h calls).2 := by
  rw [run, List.foldl_append]
  rfl

/-- Each call with the calls before it. -/
def withHistory (calls : List Call) : List (List Call × Call) := calls.mapIdx fun i call => (calls.take i, call)

theorem withHistory_concat (calls : List Call) (call : Call) :
    withHistory (calls ++ [call]) = withHistory calls ++ [(calls, call)] := by
  rw [withHistory, List.mapIdx_concat, List.take_left]
  congr 1
  refine List.mapIdx_eq_mapIdx_iff.mpr fun i hi => ?_
  rw [List.take_append_of_le_length hi.le]

/-! ### What the calls say -/

/-- The name that the log is directed to. -/
def Call.name? : Call → Option (Option Bytes)
  | .direct name => some name
  | .wantDebug _ | .message .. => none

/-- What is said about messages of level debug. -/
def Call.wanted? : Call → Option Bool
  | .wantDebug wanted => some wanted
  | .direct _ | .message .. => none

/-- The names that the log has been directed to, the latest one last. -/
def names (calls : List Call) : List (Option Bytes) := calls.filterMap Call.name?

end Log

/-- The sink that a name stands for: none and the empty name for the system log, `-` for standard error, and any other
name for a file, or for the system log if the file cannot be opened. -/
def Host.sinkOf (h : Host) (name : Option Bytes) : Log.Sink :=
  match name.map Text.untilNul with
  | none | some [] => .system
  | some path =>
    if path = ascii "-" then .standardError
    else match h.opening? path with
      | some location => .file location
      | none => .system

theorem Host.SameDirectories.sinkOf {h h' : Host} (hsame : SameDirectories h h') (name : Option Bytes) :
    h'.sinkOf name = h.sinkOf name := by
  simp only [Host.sinkOf, hsame.opening?]

namespace Log

/-- The sink after the calls: that of the latest name, and standard error before there is one. -/
def sinkAfter (h : Host) (calls : List Call) : Sink := ((names calls).getLast?.map h.sinkOf).getD .standardError

/-- Whether messages of level debug are wanted after the calls: what was said last, and not before anything was. -/
def debugAfter (calls : List Call) : Bool := (calls.filterMap Call.wanted?).getLast?.getD false

/-- The sinks that the log has been directed to, the latest one last, without the system log. -/
def streams (h : Host) (calls : List Call) : List Sink := ((names calls).map h.sinkOf).filter (· ≠ .system)

/-- Whether headers are coloured after the calls: whether the latest sink besides the system log is a terminal. They
are not before there is one. -/
def colouredAfter (h : Host) (calls : List Call) : Bool := (streams h calls).getLast?.any h.isTerminal

/-- Whether a message of the level is delivered after the calls. -/
def Delivers (h : Host) (calls : List Call) (level : Level) : Prop :=
  level = .debug → debugAfter calls = true ∧ sinkAfter h calls ≠ .system

instance (h : Host) (calls : List Call) (level : Level) : Decidable (Delivers h calls level) :=
  inferInstanceAs (Decidable (_ → _))

/-- Whether a record with the moment is made of the call. -/
def Stamped (h : Host) (before : List Call) : Call → Prop
  | .message level _ => Delivers h before level ∧ sinkAfter h before ≠ .system
  | .direct _ | .wantDebug _ => False

instance (h : Host) (before : List Call) : (call : Call) → Decidable (Stamped h before call)
  | .message _ _ => inferInstanceAs (Decidable (_ ∧ _))
  | .direct _ | .wantDebug _ => inferInstanceAs (Decidable False)

/-- How many of the calls have had the clock read. -/
def readings (h : Host) (calls : List Call) : Nat :=
  (withHistory calls).countP fun (before, call) => Stamped h before call

/-- How a record begins. -/
def heading : (coloured : Bool) → Level → Bytes
  | false, .debug => ascii "DEBUG "
  | false, .info => ascii "INFO  "
  | false, .error => ascii "ERROR "
  | true, .debug => ascii "\x1b[1m\x1b[34mDEBUG "
  | true, .info => ascii "\x1b[1mINFO  "
  | true, .error => ascii "\x1b[1m\x1b[31mERROR "

/-- The record of a message: the level, the moment in brackets and a blank, no more than 1023 bytes of the message, and
a line end if they do not end in one. Colours end after the bracket. -/
def recordOf (coloured : Bool) (level : Level) (moment : Moment) (text : Bytes) : Bytes :=
  heading coloured level ++ ascii "[" ++ moment.text ++ (if coloured then ascii "]\x1b[0m " else ascii "] ") ++
    text.take 1023 ++ if (text.take 1023).getLast? = some Byte.lf then [] else [Byte.lf]

/-- The writing that delivers a message after the calls. The record is the next one to have the clock read. -/
def delivery (h : Host) (calls : List Call) (level : Level) (text : Bytes) : Write :=
  let record := recordOf (colouredAfter h calls) level (h.reading (readings h calls)) text
  match sinkAfter h calls with
  | .system => .systemLog (match level with | .debug => 7 | .info => 6 | .error => 3) text
  | .standardError => .standardError record
  | .file location => .file location record

/-- What is written when the log is directed to a name: a complaint, if that is a file that cannot be opened. -/
def complaint (h : Host) (name : Option Bytes) : List Write :=
  match name.map Text.untilNul with
  | none | some [] => []
  | some path =>
    if path = ascii "-" then []
    else match h.openToAppend path with
      | .ok _ => []
      | .error obstacle => [.standardError (cannotOpen obstacle)]

/-- What a call writes after the calls before it. -/
def writing (h : Host) (before : List Call) : Call → List Write
  | .direct name => complaint (run h before).2 name
  | .wantDebug _ => []
  | .message level text => if Delivers h before level then [delivery h before level text] else []

/-- All that the calls write, in the order of the calls. -/
def written (h : Host) (calls : List Call) : List Write :=
  (withHistory calls).flatMap fun (before, call) => writing h before call

section

variable {h : Host} {calls : List Call}

theorem sinkAfter_direct (name : Option Bytes) : sinkAfter h (calls ++ [.direct name]) = h.sinkOf name := by
  simp [sinkAfter, names, Call.name?]

theorem sinkAfter_other {call : Call} (hcall : call.name? = none) :
    sinkAfter h (calls ++ [call]) = sinkAfter h calls := by
  simp [sinkAfter, names, hcall]

theorem colouredAfter_direct (name : Option Bytes) : colouredAfter h (calls ++ [.direct name]) =
    if h.sinkOf name = .system then colouredAfter h calls else h.isTerminal (h.sinkOf name) := by
  simp only [colouredAfter, streams, names, List.filterMap_append, List.map_append, List.filter_append]
  split_ifs with hsink <;> simp [Call.name?, hsink]

theorem colouredAfter_other {call : Call} (hcall : call.name? = none) :
    colouredAfter h (calls ++ [call]) = colouredAfter h calls := by
  simp [colouredAfter, streams, names, hcall]

theorem debugAfter_wantDebug (wanted : Bool) : debugAfter (calls ++ [.wantDebug wanted]) = wanted := by
  simp [debugAfter, Call.wanted?]

theorem debugAfter_other {call : Call} (hcall : call.wanted? = none) :
    debugAfter (calls ++ [call]) = debugAfter calls := by
  simp [debugAfter, hcall]

theorem readings_concat (call : Call) :
    readings h (calls ++ [call]) = readings h calls + if Stamped h calls call then 1 else 0 := by
  rw [readings, withHistory_concat, List.countP_append, List.countP_singleton]
  simp [readings]

theorem written_concat (call : Call) : written h (calls ++ [call]) = written h calls ++ writing h calls call := by
  rw [written, withHistory_concat, List.flatMap_append, List.flatMap_singleton, written]

end

/-! ### Directing the log -/

/-- All that directing the log to a name can do. -/
inductive Directed (l : Log) (name : Option Bytes) (h : Host) : Log × Host → Prop where
  /-- To the system log, by its name. -/
  | system (hsink : h.sinkOf name = .system) (hcomplaint : complaint h name = []) :
      Directed l name h ({ l with sink := .system }, h)
  /-- To standard error. -/
  | standardError (hsink : h.sinkOf name = .standardError) (hcomplaint : complaint h name = []) :
      Directed l name h ({ l with sink := .standardError, coloured := h.isTerminal .standardError }, h)
  /-- To a file, which is there or is made. -/
  | file {location : Location} {h' : Host} (hsink : h.sinkOf name = .file location) (hcomplaint : complaint h name = [])
      (hopen : h.HasFile location ∧ h' = h ∨ h.inspect location = .error .missing ∧ h' = h.create location) :
      Directed l name h ({ l with sink := .file location, coloured := h'.isTerminal (.file location) }, h')
  /-- To a file that cannot be opened, and so to the system log. -/
  | refused {obstacle : Host.Obstacle} (hsink : h.sinkOf name = .system)
      (hcomplaint : complaint h name = [.standardError (cannotOpen obstacle)]) :
      Directed l name h ({ l with sink := .system }, h.put (.standardError (cannotOpen obstacle)))

theorem directed (l : Log) (name : Option Bytes) (h : Host) : Directed l name h (l.direct name h) := by
  rw [direct]
  split
  · next hname => exact .system (by simp [Host.sinkOf, hname]) (by simp [complaint, hname])
  · next hname => exact .system (by simp [Host.sinkOf, hname]) (by simp [complaint, hname])
  · next path hempty hname =>
    split_ifs with hdash
    · exact .standardError (by rw [Host.sinkOf, hname, hdash]; rfl) (by rw [complaint, hname, hdash]; rfl)
    · rw [directToFile]
      cases hopen : h.openToAppend path with
      | ok x =>
        obtain ⟨location, h'⟩ := x
        obtain ⟨-, -, -, hnode⟩ := Host.openToAppend_eq_ok_iff.mp hopen
        exact .file (by simp [Host.sinkOf, hname, hdash, Host.opening?_of_ok hopen])
          (by simp [complaint, hname, hdash, hopen]) hnode
      | error obstacle =>
        exact .refused (by simp [Host.sinkOf, hname, hdash, Host.opening?_of_error hopen])
          (by simp [complaint, hname, hdash, hopen])

namespace Directed

variable {l : Log} {name : Option Bytes} {h : Host} {x : Log × Host}

/-- The clock, and which sinks are terminals, are left alone. -/
theorem surroundings (hx : Directed l name h x) : x.2.clock = h.clock ∧ x.2.isTerminal = h.isTerminal := by
  cases hx with
  | system | standardError | refused => exact ⟨rfl, rfl⟩
  | file _ _ hopen => obtain ⟨-, rfl⟩ | ⟨-, rfl⟩ := hopen <;> exact ⟨rfl, rfl⟩

theorem log (hx : Directed l name h x) : x.1 =
    { l with
      sink := h.sinkOf name
      coloured := if h.sinkOf name = .system then l.coloured else h.isTerminal (h.sinkOf name) } := by
  have hterminal := hx.surroundings.2
  cases hx with
  | system hsink _ => simp [hsink]
  | standardError hsink _ => simp [hsink]
  | file hsink _ _ => simp [hsink, ← hterminal]
  | refused hsink _ => simp [hsink]

theorem writes (hx : Directed l name h x) : x.2.writes.reverse = h.writes.reverse ++ complaint h name := by
  cases hx with
  | system _ hcomplaint => simp [hcomplaint]
  | standardError _ hcomplaint => simp [hcomplaint]
  | file _ hcomplaint hopen =>
    obtain ⟨-, rfl⟩ | ⟨-, rfl⟩ := hopen <;> simp [hcomplaint, Host.create]
  | refused _ hcomplaint => simp [hcomplaint, Host.put]

theorem sameDirectories (hx : Directed l name h x) : Host.SameDirectories h x.2 := by
  cases hx with
  | system | standardError => exact .refl h
  | file _ _ hopen =>
    obtain ⟨-, rfl⟩ | ⟨hmissing, rfl⟩ := hopen
    · exact .refl _
    · exact Host.sameDirectories_create hmissing
  | refused => exact (Host.LoggedTo.put h _).sameDirectories

/-- The file that the log goes to is there. -/
theorem hasFile (hx : Directed l name h x) {location : Location} (hsink : x.1.sink = .file location) :
    x.2.HasFile location := by
  cases hx with
  | system | standardError | refused => cases hsink
  | file _ _ hopen =>
    cases hsink
    obtain ⟨hthere, rfl⟩ | ⟨hmissing, rfl⟩ := hopen
    · exact hthere
    · exact Host.hasFile_create hmissing

theorem contentAt (hx : Directed l name h x) (location : Location) :
    h.contentAt location <+: x.2.contentAt location := by
  cases hx with
  | system | standardError => exact List.prefix_rfl
  | file _ _ hopen =>
    obtain ⟨-, rfl⟩ | ⟨hmissing, rfl⟩ := hopen
    · exact List.prefix_rfl
    · exact Host.contentAt_create hmissing location
  | refused => exact (Host.LoggedTo.put h _).contentAt_grows location

end Directed

/-! ### One message -/

theorem untilNul_eq_self {text : Bytes} (hnul : Byte.nul ∉ text) : Text.untilNul text = text := by
  rw [Text.untilNul, List.takeWhile_eq_self_iff]
  intro c hc
  rw [bne_iff_ne]
  rintro rfl
  exact hnul hc

/-- Where the colours of a header begin and end. -/
theorem header_eq (coloured : Bool) (level : Level) (moment : Moment) : header coloured level moment =
    heading coloured level ++ ascii "[" ++ moment.text ++ if coloured then ascii "]\x1b[0m " else ascii "] " := by
  have hend : ascii "]" ++ (if coloured then plain else []) ++ ascii " " =
      if coloured then ascii "]\x1b[0m " else ascii "] " := by
    cases coloured <;> rfl
  have hbegin : (if coloured then bold ++ level.colour else []) ++ level.title = heading coloured level := by
    cases coloured <;> cases level <;> rfl
  rw [header, hbegin, ← hend]
  simp only [List.append_assoc]

theorem terminated_eq (text : Bytes) :
    terminated text = text ++ if text.getLast? = some Byte.lf then [] else [Byte.lf] := by
  rw [terminated]
  split_ifs
  · exact (List.append_nil _).symm
  · rfl

theorem record_eq (coloured : Bool) (level : Level) (moment : Moment) {text : Bytes} (hnul : Byte.nul ∉ text) :
    record coloured level moment text = recordOf coloured level moment text := by
  rw [record, recordOf, header_eq, terminated_eq, body, untilNul_eq_self hnul]
  exact (List.append_assoc _ _ _).symm

/-- Every record ends its line. -/
theorem getLast?_recordOf (coloured : Bool) (level : Level) (moment : Moment) (text : Bytes) :
    (recordOf coloured level moment text).getLast? = some Byte.lf := by
  rw [recordOf]
  by_cases hlf : (text.take 1023).getLast? = some Byte.lf
  · rw [if_pos hlf, List.append_nil, List.getLast?_append, hlf]
    rfl
  · rw [if_neg hlf]
    exact List.getLast?_concat

/-- What the log and the host are after the calls. -/
structure Routed (h : Host) (calls : List Call) (x : Log × Host) : Prop where
  sink : x.1.sink = sinkAfter h calls
  coloured : x.1.coloured = colouredAfter h calls
  debug : x.1.debug = debugAfter calls
  directories : Host.SameDirectories h x.2
  terminal : x.2.isTerminal = h.isTerminal
  clock : x.2.clock = h.clockAfter (readings h calls)
  writes : x.2.writes.reverse = h.writes.reverse ++ written h calls
  hasFile : ∀ location, sinkAfter h calls = .file location → x.2.HasFile location

section

variable {h : Host} {calls : List Call} {x : Log × Host} {level : Level} {text : Bytes}

theorem routed_nil (h : Host) : Routed h [] ({}, h) where
  sink := rfl
  coloured := rfl
  debug := rfl
  directories := .refl h
  terminal := rfl
  clock := (h.clockAfter_zero).symm
  writes := (List.append_nil _).symm
  hasFile _ hsink := by cases hsink

theorem Routed.direct (hx : Routed h calls (run h calls)) (name : Option Bytes) :
    Routed h (calls ++ [.direct name]) ((run h calls).1.direct name (run h calls).2) := by
  have hdirected := directed (run h calls).1 name (run h calls).2
  have hname := hx.directories.sinkOf name
  constructor
  case sink => rw [hdirected.log, sinkAfter_direct, hname]
  case coloured => rw [hdirected.log, colouredAfter_direct, hname, hx.coloured, hx.terminal]
  case debug => rw [hdirected.log, debugAfter_other rfl, hx.debug]
  case directories => exact hx.directories.trans hdirected.sameDirectories
  case terminal => exact hdirected.surroundings.2.trans hx.terminal
  case clock =>
    rw [readings_concat, if_neg (by simp [Stamped])]
    exact hdirected.surroundings.1.trans hx.clock
  case writes => rw [hdirected.writes, hx.writes, written_concat, List.append_assoc, writing]
  case hasFile =>
    intro location hsink
    apply hdirected.hasFile
    rw [hdirected.log, hname, ← hsink, sinkAfter_direct]

theorem Routed.wantDebug (hx : Routed h calls x) (wanted : Bool) :
    Routed h (calls ++ [.wantDebug wanted]) ({ x.1 with debug := wanted }, x.2) where
  sink := hx.sink.trans (sinkAfter_other rfl).symm
  coloured := hx.coloured.trans (colouredAfter_other rfl).symm
  debug := (debugAfter_wantDebug wanted).symm
  directories := hx.directories
  terminal := hx.terminal
  clock := by
    rw [readings_concat, if_neg (by simp [Stamped])]
    exact hx.clock
  writes := by
    rw [written_concat, writing, List.append_nil]
    exact hx.writes
  hasFile := by
    rw [sinkAfter_other rfl]
    exact hx.hasFile

theorem Routed.passes_iff (hx : Routed h calls x) (level : Level) :
    x.1.passes level = true ↔ Delivers h calls level := by
  rw [passes, Delivers, ← hx.sink, ← hx.debug]
  cases level <;> simp

/-- What is written for a message is its delivery. -/
theorem Routed.entry (hx : Routed h calls x) (level : Level) (hnul : Byte.nul ∉ text) :
    x.1.entry level text x.2.now.1 = delivery h calls level text := by
  have hmoment := (Host.now_of_clock hx.clock).1
  cases hsink : sinkAfter h calls with
  | system =>
    simp only [Log.entry, delivery, hx.sink, hsink, untilNul_eq_self hnul]
    cases level <;> rfl
  | standardError => simp only [Log.entry, delivery, hx.sink, hsink, hx.coloured, hmoment, record_eq _ _ _ hnul]
  | file location => simp only [Log.entry, delivery, hx.sink, hsink, hx.coloured, hmoment, record_eq _ _ _ hnul]

/-- A message that is delivered is written once, and has the clock read unless it goes to the system log. -/
theorem Routed.write_eq (hx : Routed h calls x) (level : Level) (hnul : Byte.nul ∉ text) :
    x.1.write level text x.2 =
      if Delivers h calls level then
        (if sinkAfter h calls = .system then x.2
          else { x.2 with clock := h.clockAfter (readings h calls + 1) }).put (delivery h calls level text)
      else x.2 := by
  rw [Log.write_eq, hx.entry level hnul, hx.sink, (Host.now_of_clock hx.clock).2]
  simp only [hx.passes_iff level]

theorem Routed.message (hx : Routed h calls x) (level : Level) (hnul : Byte.nul ∉ text) :
    Routed h (calls ++ [.message level text]) (x.1, x.1.write level text x.2) := by
  constructor
  case sink => exact hx.sink.trans (sinkAfter_other rfl).symm
  case coloured => exact hx.coloured.trans (colouredAfter_other rfl).symm
  case debug => exact hx.debug.trans (debugAfter_other rfl).symm
  case directories => exact hx.directories.trans (Host.LoggedTo.write x.1 level text x.2).sameDirectories
  case terminal =>
    rw [hx.write_eq level hnul]
    split_ifs <;> exact hx.terminal
  case clock =>
    rw [hx.write_eq level hnul, readings_concat]
    by_cases hdelivers : Delivers h calls level
    · by_cases hsink : sinkAfter h calls = .system
      · simpa [hdelivers, hsink, Stamped, Host.put] using hx.clock
      · simp [hdelivers, hsink, Stamped, Host.put]
    · simpa [hdelivers, Stamped] using hx.clock
  case writes =>
    rw [hx.write_eq level hnul, written_concat, writing, ← List.append_assoc, ← hx.writes]
    split_ifs
    · exact List.reverse_cons
    · exact List.reverse_cons
    · exact (List.append_nil _).symm
  case hasFile =>
    intro location hsink
    rw [sinkAfter_other rfl] at hsink
    exact (Host.LoggedTo.write x.1 level text x.2).hasFile (hx.hasFile location hsink)

/-- A message that is delivered to a file is at the end of its content. -/
theorem Routed.contentAt_message (hx : Routed h calls x) (hdelivers : Delivers h calls level) (hnul : Byte.nul ∉ text)
    {location : Location} (hsink : sinkAfter h calls = .file location) (hnull : location ≠ Host.nullDevice) :
    (x.1.write level text x.2).contentAt location = x.2.contentAt location ++
      recordOf (colouredAfter h calls) level (h.reading (readings h calls)) text := by
  rw [hx.write_eq level hnul, if_pos hdelivers, if_neg (by simp [hsink])]
  unfold delivery
  rw [hsink]
  exact Host.contentAt_put (hx.hasFile location hsink) hnull _

/-- At the end of every run. -/
theorem routed_run (h : Host) (calls : List Call)
    (hnul : ∀ level text, .message level text ∈ calls → Byte.nul ∉ text) : Routed h calls (run h calls) := by
  induction calls using List.reverseRecOn with
  | nil => exact routed_nil h
  | append_singleton calls call ih =>
    have hx := ih fun level text hmem => hnul level text (List.mem_append_left _ hmem)
    rw [run_concat]
    cases call with
    | direct name => exact hx.direct name
    | wantDebug wanted => exact hx.wantDebug wanted
    | message level text => exact hx.message level (hnul level text (by simp))

end

/-! ### Files only grow -/

theorem contentAt_perform (call : Call) (l : Log) (h : Host) (location : Location) :
    h.contentAt location <+: (perform call l h).2.contentAt location := by
  cases call with
  | direct name => exact (directed l name h).contentAt location
  | wantDebug wanted => exact List.prefix_rfl
  | message level text => exact (Host.LoggedTo.write l level text h).contentAt_grows location

theorem contentAt_run_append (h : Host) (before after : List Call) (location : Location) :
    (run h before).2.contentAt location <+: (run h (before ++ after)).2.contentAt location := by
  induction after using List.reverseRecOn with
  | nil => rw [List.append_nil]
  | append_singleton after call ih =>
    rw [← List.append_assoc, run_concat]
    exact ih.trans (contentAt_perform call _ _ location)

/-- What is written on standard error or to a file ends in a line end. -/
def EndsLine : Write → Prop
  | .standardError text | .file _ text => text.getLast? = some Byte.lf
  | .systemLog .. => True

theorem endsLine_delivery (h : Host) (calls : List Call) (level : Level) (text : Bytes) :
    EndsLine (delivery h calls level text) := by
  unfold delivery
  cases sinkAfter h calls with
  | system => trivial
  | standardError => exact getLast?_recordOf _ _ _ _
  | file location => exact getLast?_recordOf _ _ _ _

theorem Directed.endsLine {l : Log} {name : Option Bytes} {h : Host} {x : Log × Host} (hx : Directed l name h x)
    {w : Write} (hw : w ∈ complaint h name) : EndsLine w := by
  cases hx with
  | system _ hcomplaint | standardError _ hcomplaint | file _ hcomplaint _ =>
    rw [hcomplaint] at hw
    cases hw
  | refused _ hcomplaint =>
    rw [hcomplaint, List.mem_singleton] at hw
    rw [hw]
    exact List.getLast?_concat

theorem endsLine_of_mem_writing {h : Host} {before : List Call} {call : Call} {w : Write}
    (hw : w ∈ writing h before call) : EndsLine w := by
  cases call with
  | direct name => exact (directed {} name (run h before).2).endsLine hw
  | wantDebug wanted => cases hw
  | message level text =>
    rw [writing] at hw
    split_ifs at hw
    · rw [List.mem_singleton.mp hw]
      exact endsLine_delivery h before level text
    · cases hw

/-- **Every message goes where the log was last directed.** Let a program direct its log, ask for messages of level
debug or not, and log messages without NUL, in any order. What is written is what each call writes, in the order of
the calls: a message is delivered once, to the sink that the latest name stands for, except that messages of level
debug are dropped unless they are wanted and the sink is not the system log. The clock has been read once for each
record and for nothing else, and a record tells its reading. All that is written on standard error or to a file ends
in a line end. What a file holds after some of the calls is at its beginning after the others too, and a message that
is delivered to a file adds its record to the end, unless the file keeps nothing. -/
theorem messages_routed (h : Host) (calls : List Call)
    (hnul : ∀ level text, .message level text ∈ calls → Byte.nul ∉ text) :
    (run h calls).2.writes.reverse = h.writes.reverse ++ written h calls ∧
      (run h calls).2.clock = h.clockAfter (readings h calls) ∧
      (∀ k, (h.reading k).Tells (h.reading k).text) ∧
      (∀ w ∈ written h calls, EndsLine w) ∧
      (∀ before after location, calls = before ++ after →
        (run h before).2.contentAt location <+: (run h calls).2.contentAt location) ∧
      ∀ before level text after location, calls = before ++ .message level text :: after →
        Delivers h before level → sinkAfter h before = .file location → location ≠ Host.nullDevice →
        (run h (before ++ [.message level text])).2.contentAt location = (run h before).2.contentAt location ++
          recordOf (colouredAfter h before) level (h.reading (readings h before)) text := by
  have hrouted := routed_run h calls hnul
  refine ⟨hrouted.writes, hrouted.clock, fun k => (h.reading k).tells_text, fun w hw => ?_, ?_, ?_⟩
  · obtain ⟨⟨before, call⟩, -, hw⟩ := List.mem_flatMap.mp hw
    exact endsLine_of_mem_writing hw
  · rintro before after location rfl
    exact contentAt_run_append h before after location
  · rintro before level text after location rfl hdelivers hsink hnull
    have hbefore := routed_run h before fun level' text' hmem => hnul level' text' (List.mem_append_left _ hmem)
    rw [run_concat]
    exact hbefore.contentAt_message hdelivers (hnul level text (by simp)) hsink hnull

/-- A host whose standard error is a terminal and whose files are none, where nothing is but a directory. The clock
goes from one leap day to the day after. -/
def terminalHost : Host where
  directories := [⟨.working 0, [ascii "d"]⟩]
  clock := [⟨951868798, 5⟩, ⟨951868799, 999999⟩, ⟨951868800, 0⟩, ⟨951868801, 0⟩]
  terminal := true
  terminalAt _ := false

/-- Messages before the log is directed anywhere, to standard error, to a file that is made, and after a file that
cannot be opened. -/
def redirected : List Call :=
  [.message .info (ascii "a"), .direct (some (ascii "-")), .message .error (ascii "b"),
    .direct (some (ascii "d/log")), .message .debug (ascii "c"), .wantDebug true, .message .debug (ascii "e\n"),
    .direct (some (ascii "d")), .message .debug (ascii "f"), .message .error (ascii "g")]

/-- The record on the terminal is coloured from the first direction on, the one in the file is not. The first message
of level debug is not wanted yet, and the last one would go to the system log: both are dropped. -/
theorem messages_routed_redirected :
    (∀ level text, .message level text ∈ redirected → Byte.nul ∉ text) ∧
      (run terminalHost redirected).2.writes.reverse =
        [.standardError (ascii "INFO  [2000-02-29 23:59:58.000005] a\n"),
          .standardError (ascii "\x1b[1m\x1b[31mERROR [2000-02-29 23:59:59.999999]\x1b[0m b\n"),
          .file ⟨.working 0, [ascii "log", ascii "d"]⟩ (ascii "DEBUG [2000-03-01 00:00:00.000000] e\n"),
          .standardError (ascii "Cannot open logfile: Is a directory\n"),
          .systemLog 3 (ascii "g")] ∧
      (run terminalHost redirected).2.clock = [⟨951868801, 0⟩] := by
  have hnul : ∀ level text, .message level text ∈ redirected → Byte.nul ∉ text := by
    intro level text hmem
    simp only [redirected, List.mem_cons, Call.message.injEq, reduceCtorEq, List.not_mem_nil, or_false,
      false_or] at hmem
    rcases hmem with ⟨-, rfl⟩ | ⟨-, rfl⟩ | ⟨-, rfl⟩ | ⟨-, rfl⟩ | ⟨-, rfl⟩ | ⟨-, rfl⟩ <;> decide
  obtain ⟨hwrites, hclock, -⟩ := messages_routed terminalHost redirected hnul
  refine ⟨hnul, hwrites.trans ?_, hclock.trans ?_⟩
  · decide
  · decide

end Log

end PartProgram
