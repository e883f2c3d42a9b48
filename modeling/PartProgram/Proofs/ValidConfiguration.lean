import PartProgram.Config.Settings
import Mathlib.Tactic.Common

/-!
# Valid configuration text

Configuration text is valid if each of its lines is blank, a heading or an assignment, and each
assignment in one of the tokenizer's sections is one that it can use (`Valid`). That does not depend
on the settings that the text is to change, nor on the log.

The settings are made without a complaint exactly if the text is valid (`configure_clean_iff`).
-/

namespace PartProgram.Config

open Number

variable {l : Log} {t : Settings} {s : Option Bytes} {current name value : Bytes} {ls : List Line}

/-! ### Assignments -/

/-- The tokenizer can use the assignment in this section. -/
inductive Usable : Bytes → Bytes → Bytes → Prop where
  /-- Whether small letters are accepted. -/
  | acceptLowercase {value : Bytes} {b : Bool} (h : bool? value = some b) :
      Usable readerSection (ascii "accept-lowercase") value
  /-- Whether checksums are verified. -/
  | verifyChecksum {value : Bytes} {b : Bool} (h : bool? value = some b) :
      Usable readerSection (ascii "verify-checksum") value
  /-- Whether to go on after a fault. -/
  | keepGoing {value : Bytes} {b : Bool} (h : bool? value = some b) :
      Usable tokenizeSection (ascii "keep-going") value
  /-- The width of significands. -/
  | significandBits {value : Bytes} {n : Int} {w : Width} (h : int? value = some n) (hw : Width.ofBits? n = some w) :
      Usable tokenizeSection (ascii "significand-bits") value
  /-- The way of scaling. -/
  | scaling {value : Bytes} {way : Scaling} (h : scaling? value = some way) :
      Usable tokenizeSection (ascii "mul10-strategy") value

theorem required_map_isOk {α β : Type} (x : Option α) (f : α → β) :
    (∃ y, (required x).map f = .ok y) ↔ ∃ a, x = some a := by
  cases x <;> simp [required, Except.map]

theorem width?_map_isOk {β : Type} (value : Bytes) (f : Width → β) :
    (∃ y, (width? value).map f = .ok y) ↔ ∃ n w, int? value = some n ∧ Width.ofBits? n = some w := by
  rw [width?]
  cases int? value with
  | none => simp [Except.map]
  | some n => cases hw : Width.ofBits? n <;> simp [Except.map, hw]

/-- An assignment is taken exactly if it can be used. -/
theorem assign_isOk_iff (t : Settings) (current name value : Bytes) :
    (∃ t', t.assign current name value = .ok t') ↔ Usable current name value := by
  constructor
  · rw [Settings.assign]
    rintro ⟨t', h⟩
    split_ifs at h with hreader hlower hsum htokenize hgo hbits hscaling
    · obtain ⟨b, hb⟩ := (required_map_isOk _ _).mp ⟨t', h⟩
      exact hreader ▸ hlower ▸ .acceptLowercase hb
    · obtain ⟨b, hb⟩ := (required_map_isOk _ _).mp ⟨t', h⟩
      exact hreader ▸ hsum ▸ .verifyChecksum hb
    · obtain ⟨b, hb⟩ := (required_map_isOk _ _).mp ⟨t', h⟩
      exact htokenize ▸ hgo ▸ .keepGoing hb
    · obtain ⟨n, w, hn, hw⟩ := (width?_map_isOk _ _).mp ⟨t', h⟩
      exact htokenize ▸ hbits ▸ .significandBits hn hw
    · obtain ⟨way, hway⟩ := (required_map_isOk _ _).mp ⟨t', h⟩
      exact htokenize ▸ hscaling ▸ .scaling hway
  · intro h
    cases h with
    | acceptLowercase h => exact (required_map_isOk _ _).mpr ⟨_, h⟩
    | verifyChecksum h => exact (required_map_isOk _ _).mpr ⟨_, h⟩
    | keepGoing h => exact (required_map_isOk _ _).mpr ⟨_, h⟩
    | significandBits h hw => exact (width?_map_isOk _ _).mpr ⟨_, _, h, hw⟩
    | scaling h => exact (required_map_isOk _ _).mpr ⟨_, h⟩

/-! ### Lines -/

/-- The section is one of the tokenizer's. -/
def Known (s : Option Bytes) : Prop := s = some readerSection ∨ s = some tokenizeSection

/-- `Sound s ls`: nothing is wrong with the lines `ls` in the section `s`. -/
inductive Sound : Option Bytes → List Line → Prop where
  /-- The text ends. -/
  | nil {s : Option Bytes} : Sound s []
  /-- A blank line. -/
  | blank {s : Option Bytes} {ls : List Line} : Sound s ls → Sound s (.blank :: ls)
  /-- A section starts. -/
  | heading {s : Option Bytes} {name : Bytes} {ls : List Line} : Sound (some name) ls → Sound s (.heading name :: ls)
  /-- An assignment that is for somebody else. -/
  | foreign {s : Option Bytes} {name value : Bytes} {ls : List Line} : ¬ Known s → Sound s ls →
      Sound s (.assignment name value :: ls)
  /-- An assignment that can be used. -/
  | usable {current name value : Bytes} {ls : List Line} : Known (some current) → Usable current name value →
      Sound (some current) ls → Sound (some current) (.assignment name value :: ls)

/-- Valid configuration text. It starts outside of all sections. -/
def Valid (content : Bytes) : Prop := Sound none ((lines content).map Line.ofBytes)

theorem sound_blank_iff : Sound s (.blank :: ls) ↔ Sound s ls :=
  ⟨fun | .blank h => h, .blank⟩

theorem sound_heading_iff : Sound s (.heading name :: ls) ↔ Sound (some name) ls :=
  ⟨fun | .heading h => h, .heading⟩

theorem sound_foreign_iff (hs : ¬ Known s) : Sound s (.assignment name value :: ls) ↔ Sound s ls := by
  refine ⟨fun h => ?_, .foreign hs⟩
  cases h with
  | foreign _ h => exact h
  | usable hknown _ _ => exact absurd hknown hs

theorem sound_known_iff (hs : Known (some current)) :
    Sound (some current) (.assignment name value :: ls) ↔ Usable current name value ∧ Sound (some current) ls := by
  refine ⟨fun h => ?_, fun ⟨husable, h⟩ => .usable hs husable h⟩
  cases h with
  | foreign hforeign _ => exact absurd hs hforeign
  | usable _ husable h => exact ⟨husable, h⟩

/-! ### Following the text -/

namespace Settings

variable {p : Progress} {d : Draft}

/-- The listener is in the section `s` of the text. -/
structure InSection (s : Option Bytes) (p : Progress) (d : Draft) : Prop where
  interested : p.interested = true ↔ Known s
  current : ∀ name, s = some name → d.current = name

theorem InSection.heading (name : Bytes) (p : Progress) (d : Draft) :
    InSection (some name) { p with current := name, interested := name == readerSection || name == tokenizeSection }
      { d with current := name } := by
  refine ⟨by simp [Known], ?_⟩
  rintro _ ⟨rfl⟩
  rfl

theorem present_usable {n : Nat} (hp : p.interested = true) (ht : d.settings.assign d.current name value = .ok t) :
    present (listener l) n p d (.assignment name value) = (p, { d with settings := t }) := by
  rw [present, if_pos hp]
  simp only [listener, ht]

theorem present_unusable {n : Nat} {e : Objection} (hp : p.interested = true)
    (he : d.settings.assign d.current name value = .error e) :
    (present (listener l) n p d (.assignment name value)).1.clean = false := by
  rw [present, if_pos hp]
  cases e <;> simp only [listener, he]

/-- What is wrong stays wrong. -/
theorem clean_present (listener : Listener Draft) (n : Nat) (hp : p.clean = false) (d : Draft) (line : Line) :
    (present listener n p d line).1.clean = false := by
  cases line with
  | blank => exact hp
  | heading => exact hp
  | brokenHeading => rfl
  | malformed => rfl
  | assignment name value =>
    rw [present]
    split_ifs
    · split
      · exact hp
      · rfl
    · exact hp

theorem clean_presentAll (listener : Listener Draft) (ls : List Line) : ∀ {n : Nat} {p : Progress} {d : Draft},
    p.clean = false → (presentAll listener n p d ls).1.clean = false := by
  induction ls with
  | nil => exact fun hp => hp
  | cons line ls ih => exact fun hp => ih (clean_present listener _ hp _ line)

theorem not_clean_presentAll_cons {listener : Listener Draft} {n : Nat} {line : Line}
    (h : (present listener n p d line).1.clean = false) :
    ¬ (presentAll listener n p d (line :: ls)).1.clean = true := by
  rw [presentAll, clean_presentAll listener ls h]
  decide

/-- Lines are taken without a complaint exactly if they are sound. -/
theorem presentAll_clean_iff (l : Log) (ls : List Line) : ∀ {n : Nat} {s : Option Bytes} {p : Progress} {d : Draft},
    InSection s p d → p.clean = true → ((presentAll (listener l) n p d ls).1.clean = true ↔ Sound s ls) := by
  induction ls with
  | nil =>
    intro n s p d _ hclean
    exact ⟨fun _ => .nil, fun _ => hclean⟩
  | cons line ls ih =>
    intro n s p d hin hclean
    cases line with
    | blank =>
      rw [sound_blank_iff]
      exact ih hin hclean
    | heading name =>
      rw [sound_heading_iff]
      exact ih (.heading name p d) hclean
    | brokenHeading => exact iff_of_false (not_clean_presentAll_cons rfl) nofun
    | malformed => exact iff_of_false (not_clean_presentAll_cons rfl) nofun
    | assignment name value =>
      by_cases hknown : Known s
      · obtain ⟨current, rfl⟩ : ∃ current, s = some current := by
          obtain rfl | rfl := hknown <;> exact ⟨_, rfl⟩
        have hinterested := hin.interested.mpr hknown
        obtain rfl : d.current = current := hin.current current rfl
        rw [sound_known_iff hknown, ← assign_isOk_iff d.settings]
        cases hassign : d.settings.assign d.current name value with
        | ok t =>
          simp only [presentAll, present_usable hinterested hassign]
          rw [ih (d := { d with settings := t }) ⟨hin.interested, hin.current⟩ hclean]
          exact ⟨fun h => ⟨⟨t, rfl⟩, h⟩, And.right⟩
        | error e => exact iff_of_false (not_clean_presentAll_cons (present_unusable hinterested hassign)) nofun
      · -- Nobody is interested in the assignment, whatever it says.
        have hforeign : p.interested = false := by simpa [hknown] using hin.interested
        rw [sound_foreign_iff hknown]
        simp only [presentAll, present, hforeign]
        exact ih hin hclean

theorem configure_clean_iff (t : Settings) (l : Log) (content : Bytes) (h : Host) :
    (t.configure l content h).1 = true ↔ Valid content :=
  presentAll_clean_iff l _ ⟨by simp [Known], by simp⟩ rfl

end Settings

end PartProgram.Config
