import PartProgram.Log.Sink
import Mathlib.Data.List.Basic

/-!
# What logging leaves as it is

While the program works it reads the clock and logs, and does nothing else to the host. So the
files and directories stay where they are, every file only grows, and only the log file does
(`Host.LoggedTo`). Whether a path leads anywhere does not change (`LoggedTo.find_error_iff`,
`LoggedTo.find_directory_iff`).
-/

namespace PartProgram

/-- The sink that a piece of writing goes to. -/
def Write.sink : Write → Log.Sink
  | .standardError _ => .standardError
  | .file l _ => .file l
  | .systemLog .. => .system

namespace Log

/-- What is written for a message. -/
def entry (l : Log) (level : Level) (message : Bytes) (moment : Moment) : Write :=
  match l.sink with
  | .system => .systemLog level.priority (Text.untilNul message)
  | .standardError => .standardError (record l.coloured level moment message)
  | .file location => .file location (record l.coloured level moment message)

theorem sink_entry (l : Log) (level : Level) (message : Bytes) (moment : Moment) :
    (l.entry level message moment).sink = l.sink := by
  rw [entry]
  split <;> simp_all [Write.sink]

/-- The system log has a clock of its own. -/
theorem write_eq (l : Log) (level : Level) (message : Bytes) (h : Host) :
    l.write level message h =
      if l.passes level then
        (if l.sink = .system then h else h.now.2).put (l.entry level message h.now.1)
      else h := by
  rw [write, entry]
  cases hsink : l.sink <;> simp

end Log

namespace Host

variable {h h' h'' : Host} {sink : Log.Sink} {l : Location}

/-- The host `h'` is `h` after readings of the clock and writing to one sink. -/
structure LoggedTo (sink : Log.Sink) (h h' : Host) : Prop where
  files : h'.files = h.files
  directories : h'.directories = h.directories
  writes : ∃ ws, h'.writes = ws ++ h.writes ∧ ∀ w ∈ ws, w.sink = sink

namespace LoggedTo

theorem refl (sink : Log.Sink) (h : Host) : LoggedTo sink h h := ⟨rfl, rfl, [], by simp⟩

theorem trans (hfst : LoggedTo sink h h') (hsnd : LoggedTo sink h' h'') : LoggedTo sink h h'' := by
  obtain ⟨ws, hws, hsink⟩ := hfst.writes
  obtain ⟨ws', hws', hsink'⟩ := hsnd.writes
  refine ⟨hsnd.files.trans hfst.files, hsnd.directories.trans hfst.directories, ws' ++ ws, ?_, ?_⟩
  · rw [hws', hws, List.append_assoc]
  · intro w hw
    obtain hw | hw := List.mem_append.mp hw
    · exact hsink' w hw
    · exact hsink w hw

theorem now (sink : Log.Sink) (h : Host) : LoggedTo sink h h.now.2 := by
  rw [Host.now]
  split
  · exact refl sink h
  · exact refl sink h
  · exact ⟨rfl, rfl, [], by simp⟩

theorem put (h : Host) (w : Write) : LoggedTo w.sink h (h.put w) := ⟨rfl, rfl, [w], by simp [Host.put]⟩

theorem write (log : Log) (level : Log.Level) (message : Bytes) (h : Host) :
    LoggedTo log.sink h (log.write level message h) := by
  rw [Log.write_eq]
  split_ifs
  · exact Log.sink_entry log level message h.now.1 ▸ put h _
  · exact (now log.sink h).trans (Log.sink_entry log level message h.now.1 ▸ put _ _)
  · exact refl _ h

/-! ### Files and directories -/

theorem added (hlog : LoggedTo sink h h') (l : Location) :
    ∃ t, h'.added l = h.added l ++ t ∧ (sink ≠ .file l → t = []) := by
  obtain ⟨ws, hws, hsink⟩ := hlog.writes
  refine ⟨_, by rw [Host.added, hws, List.reverse_append, List.flatMap_append]; rfl, fun hl => ?_⟩
  apply List.flatMap_eq_nil_iff.mpr
  intro w hw
  have hto := hsink w (List.mem_reverse.mp hw)
  cases w with
  | standardError | systemLog => rfl
  | file l' t =>
    apply if_neg
    rintro rfl
    exact hl hto.symm

/-- What is at a location stays the same, except that a file may grow if it is the log file. -/
theorem inspect (hlog : LoggedTo sink h h') (l : Location) :
    h'.inspect l = h.inspect l ∨
      sink = .file l ∧ ∃ content t, h.inspect l = .ok (.file content) ∧ h'.inspect l = .ok (.file (content ++ t)) := by
  obtain ⟨t, ht, hnone⟩ := hlog.added l
  have hdir : h'.hasDirectory l = h.hasDirectory l := by rw [hasDirectory, hasDirectory, hlog.directories]
  by_cases hsink : sink = .file l
  · by_cases hlong : (l.names.headD []).length > maxName
    · exact Or.inl (by rw [Host.inspect, Host.inspect, if_pos hlong, if_pos hlong])
    by_cases hnull : l = nullDevice
    · exact Or.inl (by rw [Host.inspect, Host.inspect, if_neg hlong, if_neg hlong, if_pos hnull, if_pos hnull])
    rw [Host.inspect, Host.inspect, if_neg hlong, if_neg hlong, if_neg hnull, if_neg hnull, hlog.files, hdir]
    cases hfile : h.files.lookup l with
    | none => exact Or.inl rfl
    | some content => exact Or.inr ⟨hsink, content ++ h.added l, t, rfl, by rw [ht, List.append_assoc]⟩
  · rw [hnone hsink, List.append_nil] at ht
    exact Or.inl (by rw [Host.inspect, Host.inspect, hlog.files, hdir, ht])

theorem contentAt_grows (hlog : LoggedTo sink h h') (l : Location) : h.contentAt l <+: h'.contentAt l := by
  rw [contentAt, contentAt]
  obtain heq | ⟨-, content, t, hbefore, hafter⟩ := hlog.inspect l
  · simp only [heq, List.prefix_rfl]
  · simp only [hbefore, hafter, List.prefix_append]

theorem contentAt_eq (hlog : LoggedTo sink h h') (hl : sink ≠ .file l) : h'.contentAt l = h.contentAt l := by
  obtain heq | ⟨hsink, -⟩ := hlog.inspect l
  · rw [contentAt, contentAt, heq]
  · exact absurd hsink hl

/-! ### Paths -/

theorem walk (hlog : LoggedTo sink h h') (path : List Bytes) : ∀ here, h'.walk here path = h.walk here path := by
  induction path with
  | nil => exact fun _ => rfl
  | cons c path ih =>
    intro here
    rw [Host.walk, Host.walk]
    obtain heq | ⟨-, content, t, hbefore, hafter⟩ := hlog.inspect here
    · simp only [heq, ih]
    · simp only [hbefore, hafter]

theorem find (hlog : LoggedTo sink h h') (path : Bytes) :
    h'.find path = h.find path ∨
      ∃ l content t, h.find path = .ok (l, .file content) ∧ h'.find path = .ok (l, .file (content ++ t)) := by
  rw [Host.find, Host.find]
  cases admissible path with
  | error e => exact Or.inl rfl
  | ok =>
    simp only [hlog.walk]
    generalize (if (Path.ofBytes path).directory then _ else _) = components
    cases hl : h.walk (Path.ofBytes path).start components with
    | error e => exact Or.inl rfl
    | ok l =>
      obtain heq | ⟨-, content, t, hbefore, hafter⟩ := hlog.inspect l
      · exact Or.inl (by simp only [bind, Except.bind, heq])
      · refine Or.inr ⟨l, content, t, ?_, ?_⟩
        · simp only [bind, Except.bind, hbefore, pure, Except.pure]
        · simp only [bind, Except.bind, hafter, pure, Except.pure]

theorem find_error_iff (hlog : LoggedTo sink h h') {path : Bytes} {obstacle : Obstacle} :
    h'.find path = .error obstacle ↔ h.find path = .error obstacle := by
  obtain heq | ⟨l, content, t, hbefore, hafter⟩ := hlog.find path
  · rw [heq]
  · simp [hbefore, hafter]

theorem find_directory_iff (hlog : LoggedTo sink h h') {path : Bytes} :
    h'.find path = .ok (l, .directory) ↔ h.find path = .ok (l, .directory) := by
  obtain heq | ⟨l, content, t, hbefore, hafter⟩ := hlog.find path
  · rw [heq]
  · simp [hbefore, hafter]

end LoggedTo

end Host

/-! ### Reports of errors -/

/-- What a record of a level begins with. -/
def Log.front (coloured : Bool) (level : Log.Level) : Bytes :=
  (if coloured then bold ++ level.colour else []) ++ level.title

/-- Whether a piece of writing reports an error: in the system log by its priority, elsewhere by how it begins. -/
def Write.isError : Write → Bool
  | .systemLog priority _ => priority == Log.Level.error.priority
  | .standardError text | .file _ text => [false, true].any fun coloured => (Log.front coloured .error).isPrefixOf text

theorem Log.isError_entry (l : Log) (level : Level) (message : Bytes) (moment : Moment) :
    (l.entry level message moment).isError = (level == .error) := by
  rw [entry]
  cases l.sink <;> cases level <;> cases l.coloured <;> rfl

namespace Host

variable {h h' : Host} {sink : Log.Sink}

/-- The reports of errors, in the order in which they were written. -/
def errorReports (h : Host) : List Write := h.writes.reverse.filter Write.isError

theorem LoggedTo.errorReports (hlog : LoggedTo sink h h') : h.errorReports <+: h'.errorReports := by
  obtain ⟨ws, hws, -⟩ := hlog.writes
  rw [Host.errorReports, Host.errorReports, hws, List.reverse_append, List.filter_append]
  exact List.prefix_append _ _

theorem errorReports_now (h : Host) : h.now.2.errorReports = h.errorReports := by
  rw [now]
  split <;> rfl

theorem errorReports_put (h : Host) (w : Write) :
    (h.put w).errorReports = h.errorReports ++ if w.isError then [w] else [] := by
  rw [Host.errorReports, put, List.reverse_cons, List.filter_append, List.filter_singleton]
  cases w.isError <;> rfl

/-- Messages of level error, and no others, are reports of errors. -/
theorem errorReports_write (l : Log) (level : Log.Level) (message : Bytes) (h : Host) :
    (l.write level message h).errorReports =
      h.errorReports ++ if level = .error then [l.entry level message h.now.1] else [] := by
  have hclock : (if l.sink = .system then h else h.now.2).errorReports = h.errorReports := by
    split_ifs
    · rfl
    · exact errorReports_now h
  rw [Log.write_eq]
  cases hpasses : l.passes level with
  | true =>
    rw [if_pos rfl, errorReports_put, hclock, Log.isError_entry]
    simp only [beq_iff_eq]
  | false =>
    have hlevel : level ≠ .error := by
      rintro rfl
      simp [Log.passes] at hpasses
    simp [hlevel]

end Host

end PartProgram
