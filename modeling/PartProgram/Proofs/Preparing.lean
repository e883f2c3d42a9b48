import PartProgram.Proofs.Tokenizing
import PartProgram.Proofs.ValidConfiguration

/-!
# Whether a run gets ready

Before it reads anything, a run needs a valid configuration, if one is named, and an input that can be
opened. What these names lead to is asked after the log has been directed, since the log file may be one of
them; that can bring a file into being, but never a directory (`find_directory_of_log`).

A run gets ready exactly if nothing of this is missing (`prepare_cases`).
-/

namespace PartProgram

open Config

/-! ### Making settings -/

namespace Config.Settings

variable {l : Log}

theorem loggedTo_complain (l : Log) (n : Nat) (complaint : Bytes) (d : Draft) :
    Host.LoggedTo l.sink d.host (d.complain l n complaint).host :=
  Host.LoggedTo.write l .error (complaintText n complaint) d.host

theorem loggedTo_present (l : Log) (n : Nat) (p : Progress) (d : Draft) (line : Line) :
    Host.LoggedTo l.sink d.host (present (listener l) n p d line).2.host := by
  cases line with
  | blank => exact .refl _ _
  | heading => exact .refl _ _
  | brokenHeading => exact loggedTo_complain l n _ d
  | malformed => exact loggedTo_complain l n _ d
  | assignment name value =>
    rw [present]
    split_ifs
    · cases hassign : d.settings.assign d.current name value with
      | ok t =>
        simp only [listener, hassign]
        exact .refl _ _
      | error e =>
        cases e with
        | unusable =>
          simp only [listener, hassign]
          exact loggedTo_complain l n _ d
        | noSuchWidth =>
          simp only [listener, hassign]
          exact (loggedTo_complain l n _ d).trans (loggedTo_complain l n _ _)
    · exact .refl _ _

theorem loggedTo_presentAll (l : Log) (ls : List Line) : ∀ (n : Nat) (p : Progress) (d : Draft),
    Host.LoggedTo l.sink d.host (presentAll (listener l) n p d ls).2.host := by
  induction ls with
  | nil => exact fun _ _ _ => .refl _ _
  | cons line ls ih => exact fun n p d => (loggedTo_present l n p d line).trans (ih _ _ _)

theorem loggedTo_configure (t : Settings) (l : Log) (content : Bytes) (h : Host) :
    Host.LoggedTo l.sink h (t.configure l content h).2.2 :=
  (loggedTo_presentAll l _ 1 {} { settings := t, host := h }).trans (.write l .debug _ _)

end Config.Settings

/-! ### Directing the log -/

namespace Host

variable {h : Host} {here l l₀ : Location} {path : Bytes}

theorem inspect_directory_iff : h.inspect l = .ok .directory ↔
    ¬ (l.names.headD []).length > maxName ∧ l ≠ nullDevice ∧ h.files.lookup l = none ∧ h.hasDirectory l := by
  rw [inspect]
  split_ifs with hlong hnull hdirectory
  · exact iff_of_false (by simp) fun hl => hl.1 hlong
  · exact iff_of_false (by simp) fun hl => hl.2.1 hnull
  · cases h.files.lookup l with
    | some content => exact iff_of_false (by simp) (by simp)
    | none => exact iff_of_true rfl ⟨hlong, hnull, rfl, hdirectory⟩
  · cases h.files.lookup l with
    | some content => exact iff_of_false (by simp) (by simp)
    | none => exact iff_of_false (by simp) fun hl => hdirectory hl.2.2.2

theorem inspect_directory_of_create (hl : (h.create l₀).inspect l = .ok .directory) : h.inspect l = .ok .directory := by
  obtain ⟨hlong, hnull, hfile, hdirectory⟩ := inspect_directory_iff.mp hl
  rw [create, List.lookup_append, Option.or_eq_none_iff] at hfile
  exact inspect_directory_iff.mpr ⟨hlong, hnull, hfile.1, hdirectory⟩

theorem walk_of_create (path : List Bytes) : ∀ {here : Location}, (h.create l₀).walk here path = .ok l →
    h.walk here path = .ok l := by
  induction path with
  | nil => exact fun hl => hl
  | cons c path ih =>
    intro here hl
    rw [walk] at hl ⊢
    cases hhere : (h.create l₀).inspect here with
    | error e =>
      rw [hhere] at hl
      cases hl
    | ok node =>
      cases node with
      | file content =>
        rw [hhere] at hl
        cases hl
      | directory =>
        rw [hhere] at hl
        rw [inspect_directory_of_create hhere]
        exact ih hl

theorem find_eq_ok_iff {node : Node} : h.find path = .ok (l, node) ↔
    admissible path = .ok () ∧ h.walk (Path.ofBytes path).start (if (Path.ofBytes path).directory then
      (Path.ofBytes path).components ++ [ascii "."] else (Path.ofBytes path).components) = .ok l ∧
      h.inspect l = .ok node := by
  simp only [find, bind, Except.bind, pure, Except.pure]
  cases admissible path with
  | error e => simp
  | ok =>
    simp only [true_and]
    cases h.walk _ _ with
    | error e => simp
    | ok l' =>
      simp only
      constructor
      · intro heq
        cases hnode : h.inspect l' with
        | error e =>
          rw [hnode] at heq
          cases heq
        | ok node' =>
          rw [hnode] at heq
          cases heq
          exact ⟨rfl, hnode⟩
      · rintro ⟨⟨rfl⟩, hnode⟩
        rw [hnode]

/-- A file that is added hides no directory, and makes none. -/
theorem find_directory_of_create (hl : (h.create l₀).find path = .ok (l, .directory)) :
    h.find path = .ok (l, .directory) := by
  obtain ⟨hpath, hwalk, hnode⟩ := find_eq_ok_iff.mp hl
  exact find_eq_ok_iff.mpr ⟨hpath, walk_of_create _ hwalk, inspect_directory_of_create hnode⟩

/-- A file that is opened to be added to is one that is there, or a new one. -/
theorem openToAppend_eq_ok_iff {h' : Host} : h.openToAppend path = .ok (l, h') ↔
    admissible path = .ok () ∧ h.walk (Path.ofBytes path).start (Path.ofBytes path).components = .ok l ∧
      (Path.ofBytes path).directory = false ∧
      ((∃ content, h.inspect l = .ok (.file content)) ∧ h' = h ∨ h.inspect l = .error .missing ∧ h' = h.create l) := by
  simp only [openToAppend, bind, Except.bind, pure, Except.pure, throw, throwThe, MonadExceptOf.throw]
  cases admissible path with
  | error e => simp
  | ok =>
    simp only [true_and]
    cases h.walk (Path.ofBytes path).start (Path.ofBytes path).components with
    | error e => simp
    | ok l' =>
      cases (Path.ofBytes path).directory with
      | true => simp
      | false =>
        -- Only a file that is there, or nothing at all at the location, lets the path be opened.
        simp only [Except.ok.injEq, true_and, Bool.false_eq_true, if_false]
        constructor
        · intro hl
          split at hl
          · next content hfile =>
            cases hl
            exact ⟨rfl, Or.inl ⟨⟨content, hfile⟩, rfl⟩⟩
          · cases hl
          · next hmissing =>
            cases hl
            exact ⟨rfl, Or.inr ⟨hmissing, rfl⟩⟩
          · cases hl
        · rintro ⟨rfl, ⟨⟨content, hfile⟩, rfl⟩ | ⟨hmissing, rfl⟩⟩
          · rw [hfile]
          · rw [hmissing]

end Host

namespace Tool

variable {o : Options} {input : Bytes} {h h' : Host} {log : Log} {sink : Log.Sink}

/-- Directing the log makes no directory. -/
theorem find_directory_of_log {path : Bytes} {l : Location} (hl : (o.log h).2.find path = .ok (l, .directory)) :
    h.find path = .ok (l, .directory) := by
  rw [Options.log] at hl
  cases hfile : o.logFile with
  | none => rwa [hfile] at hl
  | some name =>
    simp only [hfile, Log.direct] at hl
    split at hl
    · exact hl
    · exact hl
    · split_ifs at hl
      · exact hl
      · rw [Log.directToFile] at hl
        split at hl
        case h_1 l₀ h₀ hopen =>
          obtain ⟨-, -, -, ⟨-, rfl⟩ | ⟨-, rfl⟩⟩ := Host.openToAppend_eq_ok_iff.mp hopen
          · exact hl
          · exact Host.find_directory_of_create hl
        case h_2 obstacle _ => exact (Host.LoggedTo.put h _).find_directory_iff.mp hl

/-! ### The configuration and the input -/

namespace Options

/-- The configuration file cannot be opened, or it holds no valid text. -/
def Unconfigured (o : Options) (h : Host) : Prop :=
  ∃ name, o.config = some name ∧
    ((∃ obstacle, h.find name = .error obstacle) ∨ ∃ l content, h.find name = .ok (l, .file content) ∧ ¬ Valid content)

/-- The input cannot be opened. -/
def NoInput (o : Options) (h : Host) : Prop := ∃ name ∈ o.names, ∃ obstacle, h.find name = .error obstacle

/-- The input is a directory. -/
def InputIsDirectory (o : Options) (h : Host) : Prop := ∃ name ∈ o.names, ∃ l, h.find name = .ok (l, .directory)

theorem noInput_iff_of_loggedTo (hlog : Host.LoggedTo sink h h') : o.NoInput h' ↔ o.NoInput h := by
  simp only [NoInput, hlog.find_error_iff]

theorem inputIsDirectory_iff_of_loggedTo (hlog : Host.LoggedTo sink h h') :
    o.InputIsDirectory h' ↔ o.InputIsDirectory h := by
  simp only [InputIsDirectory, hlog.find_directory_iff]

end Options

theorem readConfig_cases (o : Options) (log : Log) (h : Host)
    (hdirectory : ∀ name l, o.config = some name → h.find name ≠ .ok (l, .directory)) :
    (∃ t h', readConfig o log h = .ok (t, h') ∧ ¬ o.Unconfigured h ∧ Host.LoggedTo log.sink h h') ∨
      ∃ h', readConfig o log h = .error h' ∧ o.Unconfigured h := by
  cases hconfig : o.config with
  | none =>
    refine Or.inl ⟨{}, h, by rw [readConfig, hconfig], ?_, .refl _ _⟩
    rintro ⟨name, hname, -⟩
    rw [hconfig] at hname
    cases hname
  | some name =>
    rw [readConfig, hconfig]
    simp only [Host.read?]
    rcases hfind : h.find name with obstacle | ⟨l, _ | content⟩
    · exact Or.inr ⟨_, rfl, name, hconfig, Or.inl ⟨obstacle, hfind⟩⟩
    · exact absurd hfind (hdirectory name l hconfig)
    · have hclean := Settings.configure_clean_iff {} log content h
      simp only
      split_ifs with hvalid
      · refine Or.inl ⟨_, _, rfl, ?_, Settings.loggedTo_configure {} log content h⟩
        rintro ⟨name', hname', hbad⟩
        obtain rfl : name = name' := Option.some.inj (hconfig.symm.trans hname')
        rw [hfind] at hbad
        obtain ⟨obstacle, ⟨⟩⟩ | ⟨_, _, ⟨rfl⟩, hinvalid⟩ := hbad
        exact hinvalid (hclean.mp hvalid)
      · exact Or.inr ⟨_, rfl, name, hconfig, Or.inr ⟨l, content, hfind, fun h => hvalid (hclean.mpr h)⟩⟩

theorem findSource_cases (input : Bytes) (log : Log) (h : Host) (hnames : o.names.length ≤ 1) :
    (∃ source, findSource o input log h = .ok source ∧ ¬ o.NoInput h ∧
      (source.isDirectory = true ↔ o.InputIsDirectory h)) ∨
      ∃ h', findSource o input log h = .error h' ∧ o.NoInput h := by
  rw [findSource, Options.NoInput, Options.InputIsDirectory]
  match o.names, hnames with
  | [], _ => exact Or.inl ⟨_, rfl, by simp, by simp [Source.isDirectory]⟩
  | [name], _ =>
    simp only [List.mem_singleton, exists_eq_left]
    rcases h.find name with obstacle | ⟨l, _ | content⟩
    · exact Or.inr ⟨_, rfl, obstacle, rfl⟩
    · exact Or.inl ⟨_, rfl, by simp, by simp [Source.isDirectory]⟩
    · exact Or.inl ⟨_, rfl, by simp, by simp [Source.isDirectory]⟩

/-- There is at most one name on a command line that is not refused. -/
theorem length_names_le {args : List Bytes} (ho : Options.ofArguments args = .ok o) : o.names.length ≤ 1 := by
  rw [Options.ofArguments] at ho
  split at ho
  · cases ho
  · split_ifs at ho with hnames
    cases ho
    exact not_lt.mp hnames

/-- A run gets ready exactly if there is nothing wrong with its configuration and its input can be opened. -/
theorem prepare_cases (input : Bytes) (h : Host) (hnames : o.names.length ≤ 1)
    (hdirectory : ∀ name l, o.config = some name → h.find name ≠ .ok (l, .directory)) :
    (∃ job h', o.prepare input h = .ok (job, h') ∧ ¬ o.Unconfigured (o.log h).2 ∧ ¬ o.NoInput (o.log h).2 ∧
      (job.source.isDirectory = true ↔ o.InputIsDirectory (o.log h).2)) ∨
      ∃ h', o.prepare input h = .error h' ∧ (o.Unconfigured (o.log h).2 ∨ o.NoInput (o.log h).2) := by
  -- The names are looked up once the log has been directed.
  have hdirectory' : ∀ name l, o.config = some name → (o.log h).2.find name ≠ .ok (l, .directory) :=
    fun name l hname hl => hdirectory name l hname (find_directory_of_log hl)
  rw [Options.prepare]
  simp only
  obtain ⟨t, h₁, hread, hconfigured, hlog⟩ | ⟨h₁, hread, hunconfigured⟩ :=
    readConfig_cases o (o.log h).1 (o.log h).2 hdirectory'
  · rw [← Options.noInput_iff_of_loggedTo hlog, ← Options.inputIsDirectory_iff_of_loggedTo hlog]
    simp only [hread]
    obtain ⟨source, hfind, hinput, hsource⟩ | ⟨h₂, hfind, hinput⟩ := findSource_cases input (o.log h).1 h₁ hnames
    · simp only [hfind]
      exact Or.inl ⟨_, _, rfl, hconfigured, hinput, hsource⟩
    · simp only [hfind]
      exact Or.inr ⟨_, rfl, Or.inr hinput⟩
  · simp only [hread]
    exact Or.inr ⟨_, rfl, Or.inl hunconfigured⟩

end Tool

end PartProgram
