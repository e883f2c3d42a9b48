import PartProgram.Proofs.IntegerText
import PartProgram.Proofs.ListenerCalls
import PartProgram.Proofs.ValidConfiguration
import Mathlib.Data.Prod.Lex

/-!
# The last assignment wins

Configuration text makes five settings (`Key`), each in one section and under one name, and with values that are written
in ways of their own (`Key.IsWritten`). An assignment that gives one of them a valid value sets it and leaves the other
four alone, and any other assignment sets nothing (`get_assigned`). While lines are presented, the listener is in the
section that the lines themselves tell (`InSection.present`), so what a line sets is known from the text (`setBy`).

So after any number of texts, each setting has the last valid value that it was given, or the one that it had before.
-/

namespace PartProgram.Config

open Number

/-! ### The settings one by one -/

/-- A value is read and used, or there is an objection. -/
theorem required_map_eq {α β : Type} (x : Option α) (f : α → β) :
    (∃ a, x = some a ∧ (required x).map f = .ok (f a)) ∨ x = none ∧ ∃ e, (required x).map f = .error e := by
  cases x with
  | none => exact Or.inr ⟨rfl, _, rfl⟩
  | some a => exact Or.inl ⟨a, rfl, rfl⟩

theorem width?_map_eq {β : Type} (value : Bytes) (f : Width → β) :
    (∃ w, (int? value).bind Width.ofBits? = some w ∧ (width? value).map f = .ok (f w)) ∨
      (int? value).bind Width.ofBits? = none ∧ ∃ e, (width? value).map f = .error e := by
  rw [width?]
  cases int? value with
  | none => exact Or.inr ⟨rfl, _, rfl⟩
  | some n =>
    simp only [Option.bind_some]
    cases Width.ofBits? n with
    | none => exact Or.inr ⟨rfl, _, rfl⟩
    | some w => exact Or.inl ⟨w, rfl, rfl⟩

/-- A setting that configuration text can make. -/
inductive Key where
  /-- Whether small letters are accepted. -/
  | acceptLowercase
  /-- Whether checksums are verified. -/
  | verifyChecksum
  /-- Whether to go on after a fault. -/
  | keepGoing
  /-- The width of significands. -/
  | significandBits
  /-- The way of scaling. -/
  | mul10Strategy
  deriving DecidableEq, Repr

namespace Key

/-- The values of a setting. -/
abbrev Value : Key → Type
  | acceptLowercase | verifyChecksum | keepGoing => Bool
  | significandBits => Width
  | mul10Strategy => Scaling

/-- The section in which it is made. -/
def heading : Key → Bytes
  | acceptLowercase | verifyChecksum => ascii "gcode-parser"
  | keepGoing | significandBits | mul10Strategy => ascii "tokenize"

/-- Its name there. -/
def name : Key → Bytes
  | acceptLowercase => ascii "accept-lowercase"
  | verifyChecksum => ascii "verify-checksum"
  | keepGoing => ascii "keep-going"
  | significandBits => ascii "significand-bits"
  | mul10Strategy => ascii "mul10-strategy"

/-- The words for a truth value. -/
def truthWords : Bool → List Bytes
  | true => [ascii "1", ascii "yes", ascii "true", ascii "on"]
  | false => [ascii "0", ascii "no", ascii "false", ascii "off"]

/-- The value is written so: a truth value as one of its words, in letters of any case, a width as its number of bits,
and a way of scaling by its name. -/
def IsWritten : (k : Key) → k.Value → Bytes → Prop
  | acceptLowercase, b, text | verifyChecksum, b, text | keepGoing, b, text =>
    ∃ word ∈ truthWords b, Text.Lowered text word
  | significandBits, .w16, text => Text.IsInteger text 16
  | significandBits, .w32, text => Text.IsInteger text 32
  | significandBits, .w64, text => Text.IsInteger text 64
  | mul10Strategy, .multiply, text => text = ascii "multiply"
  | mul10Strategy, .shiftAdd, text => text = ascii "shift-add"

/-- The value that is read from a text. -/
def read? : (k : Key) → Bytes → Option k.Value
  | acceptLowercase, value | verifyChecksum, value | keepGoing, value => bool? value
  | significandBits, value => (int? value).bind Width.ofBits?
  | mul10Strategy, value => scaling? value

/-- The value in the settings. -/
def get : (k : Key) → Settings → k.Value
  | acceptLowercase, t => t.rules.acceptLowercase
  | verifyChecksum, t => t.rules.verifyChecksum
  | keepGoing, t => t.keepGoing
  | significandBits, t => t.rules.arithmetic.width
  | mul10Strategy, t => t.rules.arithmetic.scaling

/-- The settings with the value. -/
def set : (k : Key) → k.Value → Settings → Settings
  | acceptLowercase, b, t => { t with rules := { t.rules with acceptLowercase := b } }
  | verifyChecksum, b, t => { t with rules := { t.rules with verifyChecksum := b } }
  | keepGoing, b, t => { t with keepGoing := b }
  | significandBits, width, t => t.withWidth width
  | mul10Strategy, scaling, t => t.withScaling scaling

variable {k k' : Key} {t : Settings}

theorem get_set (k : Key) (v : k.Value) (t : Settings) : k.get (k.set v t) = v := by
  cases k <;> rfl

theorem get_set_of_ne (h : k ≠ k') (v : k.Value) (t : Settings) : k'.get (k.set v t) = k'.get t := by
  cases k <;> cases k' <;> try rfl
  all_goals exact absurd rfl h

theorem bool?_eq_some_iff {b : Bool} {value : Bytes} :
    bool? value = some b ↔ ∃ word ∈ truthWords b, Text.Lowered value word := by
  have hdisjoint : ∀ word ∈ truthWords true, word ∉ truthWords false := by decide
  simp only [Text.lowered_iff, exists_eq_right']
  change (if Text.lower value ∈ truthWords true then some true
    else if Text.lower value ∈ truthWords false then some false else none) = some b ↔ _
  split_ifs with htrue hfalse
  · cases b with
    | true => simpa using htrue
    | false => simpa using hdisjoint _ htrue
  · cases b with
    | true => simpa using htrue
    | false => simpa using hfalse
  · cases b with
    | true => simpa using htrue
    | false => simpa using hfalse

theorem int?_bind_eq_some_iff {w : Width} {value : Bytes} :
    (int? value).bind Width.ofBits? = some w ↔ significandBits.IsWritten w value := by
  have hbits : ∀ i, Width.ofBits? i = some w ↔ i = w.bits := by
    intro i
    rw [Width.ofBits?]
    cases w <;> split_ifs <;> simp_all [Width.bits]
  have hread : ∀ i : Int, 0 < i → Text.FitsInt32 i → (int? value = some i ↔ Text.IsInteger value i) :=
    fun i hi hfits => (Text.int32?_eq_some_iff_of_pos hi).trans (and_iff_right hfits)
  simp only [Option.bind_eq_some_iff, hbits, exists_eq_right]
  cases w with
  | w16 => exact hread 16 (by decide) (by decide)
  | w32 => exact hread 32 (by decide) (by decide)
  | w64 => exact hread 64 (by decide) (by decide)

theorem scaling?_eq_some_iff {way : Scaling} {value : Bytes} :
    scaling? value = some way ↔ mul10Strategy.IsWritten way value := by
  have hdistinct : ascii "multiply" ≠ ascii "shift-add" := by decide
  rw [scaling?]
  cases way with
  | multiply => split_ifs <;> simp_all [IsWritten]
  | shiftAdd => split_ifs <;> simp_all [IsWritten]

/-- A value is read from the texts that it is written as. -/
theorem read?_eq_some_iff {v : k.Value} {value : Bytes} : k.read? value = some v ↔ k.IsWritten v value := by
  cases k with
  | acceptLowercase | verifyChecksum | keepGoing => exact bool?_eq_some_iff
  | significandBits => exact int?_bind_eq_some_iff
  | mul10Strategy => exact scaling?_eq_some_iff

theorem eq_of_heading_of_name (hheading : k.heading = k'.heading) (hname : k.name = k'.name) : k = k' := by
  revert hheading hname
  cases k <;> cases k' <;> decide

/-- An assignment to a setting is taken exactly if its value is valid. -/
theorem assign_eq (k : Key) (t : Settings) (value : Bytes) :
    (∃ v, k.read? value = some v ∧ t.assign k.heading k.name value = .ok (k.set v t)) ∨
      k.read? value = none ∧ ∃ e, t.assign k.heading k.name value = .error e := by
  rw [Settings.assign]
  cases k with
  | acceptLowercase =>
    rw [heading, name, ← readerSection, if_pos rfl, if_pos rfl]
    exact required_map_eq (bool? value) _
  | verifyChecksum =>
    rw [heading, name, ← readerSection, if_pos rfl, if_neg (by decide), if_pos rfl]
    exact required_map_eq (bool? value) _
  | keepGoing =>
    rw [heading, name, ← tokenizeSection, if_neg (by decide), if_pos rfl, if_pos rfl]
    exact required_map_eq (bool? value) _
  | significandBits =>
    rw [heading, name, ← tokenizeSection, if_neg (by decide), if_pos rfl, if_neg (by decide), if_pos rfl]
    exact width?_map_eq value _
  | mul10Strategy =>
    rw [heading, name, ← tokenizeSection, if_neg (by decide), if_pos rfl, if_neg (by decide), if_neg (by decide),
      if_pos rfl]
    exact required_map_eq (scaling? value) _

/-- What can be used is an assignment to a setting. -/
theorem usable_iff {current name value : Bytes} :
    Usable current name value ↔ ∃ k : Key, k.heading = current ∧ k.name = name ∧ ∃ v, k.IsWritten v value := by
  simp only [← read?_eq_some_iff]
  constructor
  · intro h
    cases h with
    | acceptLowercase h => exact ⟨acceptLowercase, rfl, rfl, _, h⟩
    | verifyChecksum h => exact ⟨verifyChecksum, rfl, rfl, _, h⟩
    | keepGoing h => exact ⟨keepGoing, rfl, rfl, _, h⟩
    | significandBits h hw => exact ⟨significandBits, rfl, rfl, _, Option.bind_eq_some_iff.mpr ⟨_, h, hw⟩⟩
    | scaling h => exact ⟨mul10Strategy, rfl, rfl, _, h⟩
  · rintro ⟨k, rfl, rfl, v, hv⟩
    rw [← assign_isOk_iff {}]
    obtain ⟨v', -, hassign⟩ | ⟨hnone, -⟩ := k.assign_eq {} value
    · exact ⟨_, hassign⟩
    · cases hnone.symm.trans hv

end Key

/-! ### What a line sets -/

/-- The section after a line, if there is one, and `s` before it. -/
def Line.sectionAfter (s : Option Bytes) : Line → Option Bytes
  | .heading name => some name
  | .brokenHeading => none
  | .blank | .assignment _ _ | .malformed => s

/-- The value that a line in the section `s` gives to a setting. -/
def setBy (k : Key) (s : Option Bytes) : Line → Option k.Value
  | .assignment name value => if s = some k.heading ∧ name = k.name then k.read? value else none
  | .blank | .heading _ | .brokenHeading | .malformed => none

section

variable {l : Log} {t t' : Settings} {s : Option Bytes} {current name value : Bytes} {e : Objection}

theorem get_assigned (k : Key) (h : t.assign current name value = .ok t') :
    k.get t' = (setBy k (some current) (.assignment name value)).getD (k.get t) := by
  obtain ⟨k', rfl, rfl, u, hu⟩ := Key.usable_iff.mp ((assign_isOk_iff t current name value).mp ⟨t', h⟩)
  obtain ⟨v, hv, hassign⟩ | ⟨hnone, -⟩ := k'.assign_eq t value
  · obtain rfl : k'.set v t = t' := Except.ok.inj (hassign.symm.trans h)
    by_cases hk : k' = k
    · subst hk
      rw [setBy, if_pos ⟨rfl, rfl⟩, hv, Key.get_set]
      rfl
    · have hother : ¬ (some k'.heading = some k.heading ∧ k'.name = k.name) :=
        fun ⟨hheading, hname⟩ => hk (Key.eq_of_heading_of_name (Option.some.inj hheading) hname)
      rw [setBy, if_neg hother, Key.get_set_of_ne hk]
      rfl
  · cases hnone.symm.trans (Key.read?_eq_some_iff.mpr hu)

theorem setBy_refused (k : Key) (h : t.assign current name value = .error e) :
    setBy k (some current) (.assignment name value) = none := by
  rw [setBy]
  split_ifs with hk
  · obtain ⟨⟨rfl⟩, rfl⟩ := hk
    obtain ⟨v, -, hassign⟩ | ⟨hnone, -⟩ := k.assign_eq t value
    · cases hassign.symm.trans h
    · exact hnone
  · rfl

theorem Known.exists_eq_some (h : Known s) : ∃ current, s = some current := by
  obtain rfl | rfl := h
  · exact ⟨readerSection, rfl⟩
  · exact ⟨tokenizeSection, rfl⟩

theorem known_heading (k : Key) : Known (some k.heading) := by
  cases k
  all_goals simp [Key.heading, Known, readerSection, tokenizeSection]

theorem setBy_foreign (k : Key) (h : ¬ Known s) (line : Line) : setBy k s line = none := by
  cases line with
  | assignment name value =>
    refine if_neg ?_
    rintro ⟨rfl, -⟩
    exact h (known_heading k)
  | _ => rfl

end

namespace Settings

variable {l : Log} {s : Option Bytes} {p : Progress} {d : Draft} {name value : Bytes} {n : Nat}

/-- An assignment that is refused leaves the settings and the section as they are. -/
theorem present_refused {e : Objection} (hp : p.interested = true)
    (he : d.settings.assign d.current name value = .error e) :
    (present (listener l) n p d (.assignment name value)).2.settings = d.settings ∧
      (present (listener l) n p d (.assignment name value)).2.current = d.current := by
  rw [present, if_pos hp]
  cases e with
  | unusable =>
    simp only [listener, he]
    exact ⟨rfl, rfl⟩
  | noSuchWidth =>
    simp only [listener, he]
    exact ⟨rfl, rfl⟩

/-- What one line does: the listener is in the section that the line tells, and has set what the line sets. -/
theorem InSection.present (hin : InSection s p d) (n : Nat) (line : Line) :
    InSection (line.sectionAfter s) (present (listener l) n p d line).1 (present (listener l) n p d line).2 ∧
      ∀ k : Key, k.get (Config.present (listener l) n p d line).2.settings = (setBy k s line).getD (k.get d.settings) := by
  cases line with
  | blank => exact ⟨hin, fun _ => rfl⟩
  | heading name => exact ⟨.heading name p d, fun _ => rfl⟩
  | brokenHeading => exact ⟨⟨by simp [Config.present, Known, Line.sectionAfter], nofun⟩, fun _ => rfl⟩
  | malformed => exact ⟨⟨hin.interested, hin.current⟩, fun _ => rfl⟩
  | assignment name value =>
    by_cases hknown : Known s
    · have hinterested := hin.interested.mpr hknown
      obtain ⟨current, rfl⟩ := hknown.exists_eq_some
      obtain rfl : d.current = current := hin.current current rfl
      cases hassign : d.settings.assign d.current name value with
      | ok t =>
        rw [present_usable hinterested hassign]
        exact ⟨⟨hin.interested, hin.current⟩, fun k => get_assigned k hassign⟩
      | error e =>
        obtain ⟨hsettings, hcurrent⟩ := present_refused (l := l) (n := n) hinterested hassign
        refine ⟨⟨?_, fun name' h => ?_⟩, fun k => ?_⟩
        · rw [(interested_present id).1]
          exact hin.interested
        · rw [hcurrent]
          exact hin.current name' h
        · rw [hsettings, setBy_refused k hassign]
          rfl
    · -- Nobody is interested in the assignment, whatever it says.
      have hforeign : p.interested = false := by simpa [hknown] using hin.interested
      simp only [Config.present, hforeign]
      exact ⟨hin, fun k => by rw [setBy_foreign k hknown]; rfl⟩

end Settings

/-! ### What lines set -/

/-- The section after lines, and `s` before them. -/
def sectionAfter (s : Option Bytes) (ls : List Line) : Option Bytes := ls.foldl Line.sectionAfter s

/-- The line at index `i` gives the value to the setting. -/
def GivenAt (k : Key) (s : Option Bytes) (ls : List Line) (i : Nat) (v : k.Value) : Prop :=
  ∃ line, ls[i]? = some line ∧ setBy k (sectionAfter s (ls.take i)) line = some v

/-- The value `v` is the last one that is given, or none is given and it is `start`. -/
def Settled {ι α : Type} [LE ι] (given : ι → α → Prop) (start v : α) : Prop :=
  (∃ i, given i v ∧ ∀ j u, given j u → j ≤ i) ∨ v = start ∧ ∀ i u, ¬ given i u

/-- What a first part settles is what the rest starts with. The places of the parts are `f i` and `g j`, in this
order. -/
theorem Settled.andThen {ι κ μ α : Type} [LE ι] [LE κ] [LE μ] {first : ι → α → Prop} {rest : κ → α → Prop}
    {given : μ → α → Prop} {f : ι → μ} {g : κ → μ} {start u v : α}
    (hgiven : ∀ m w, given m w ↔ (∃ i, m = f i ∧ first i w) ∨ ∃ j, m = g j ∧ rest j w)
    (hf : ∀ i i', i ≤ i' → f i ≤ f i') (hg : ∀ j j', j ≤ j' → g j ≤ g j') (hfg : ∀ i j, f i ≤ g j)
    (hfirst : Settled first start u) (hrest : Settled rest u v) : Settled given start v := by
  obtain ⟨j, hj, hlast⟩ | ⟨rfl, hnone⟩ := hrest
  · refine Or.inl ⟨g j, (hgiven _ _).mpr (Or.inr ⟨j, rfl, hj⟩), fun m w hm => ?_⟩
    obtain ⟨i, rfl, -⟩ | ⟨j', rfl, hj'⟩ := (hgiven m w).mp hm
    · exact hfg i j
    · exact hg j' j (hlast j' w hj')
  · -- Nothing is given later, so what counts is what was settled first.
    obtain ⟨i, hi, hlast⟩ | ⟨rfl, hnever⟩ := hfirst
    · refine Or.inl ⟨f i, (hgiven _ _).mpr (Or.inl ⟨i, rfl, hi⟩), fun m w hm => ?_⟩
      obtain ⟨i', rfl, hi'⟩ | ⟨j, rfl, hj⟩ := (hgiven m w).mp hm
      · exact hf i' i (hlast i' w hi')
      · exact absurd hj (hnone j w)
    · refine Or.inr ⟨rfl, fun m w hm => ?_⟩
      obtain ⟨i, -, hi⟩ | ⟨j, -, hj⟩ := (hgiven m w).mp hm
      · exact hnever i w hi
      · exact hnone j w hj

/-- At one place, a value is given or none is. -/
theorem settled_option {α : Type} (w : Option α) (start : α) :
    Settled (fun (_ : Fin 1) u => w = some u) start (w.getD start) := by
  cases w with
  | none => exact Or.inr ⟨rfl, nofun⟩
  | some u => exact Or.inl ⟨0, rfl, fun j _ _ => Fin.le_zero_iff.mpr (Fin.fin_one_eq_zero j)⟩

theorem givenAt_cons_iff {k : Key} {s : Option Bytes} {line : Line} {ls : List Line} {i : Nat} {v : k.Value} :
    GivenAt k s (line :: ls) i v ↔
      (∃ _ : Fin 1, i = 0 ∧ setBy k s line = some v) ∨ ∃ j, i = j + 1 ∧ GivenAt k (line.sectionAfter s) ls j v := by
  cases i with
  | zero => simp [GivenAt, sectionAfter]
  | succ i => simp [GivenAt, sectionAfter]

theorem settled_presentAll (l : Log) (k : Key) (ls : List Line) :
    ∀ {s : Option Bytes} {p : Progress} {d : Settings.Draft} (n : Nat), Settings.InSection s p d →
      Settled (GivenAt k s ls) (k.get d.settings) (k.get (presentAll (Settings.listener l) n p d ls).2.settings) := by
  induction ls with
  | nil => exact fun _ _ => Or.inr ⟨rfl, by simp [GivenAt]⟩
  | cons line ls ih =>
    intro s p d n hin
    obtain ⟨hin', hset⟩ := hin.present (l := l) n line
    have hrest := ih (n + 1) hin'
    rw [hset k] at hrest
    -- The line is one place, before those of the lines that follow.
    exact .andThen (fun _ _ => givenAt_cons_iff) (fun _ _ _ => Nat.le_refl 0) (fun _ _ => Nat.succ_le_succ)
      (fun _ _ => Nat.zero_le _) (settled_option (setBy k s line) _) hrest

/-! ### What a text sets -/

section

variable {content : Bytes} {name : Bytes}

theorem sectionAfter_concat (s : Option Bytes) (ls : List Line) (line : Line) :
    sectionAfter s (ls ++ [line]) = line.sectionAfter (sectionAfter s ls) := by
  simp [sectionAfter]

theorem sectionAfter_eq_some_iff (ls : List Line) :
    sectionAfter none ls = some name ↔ ∃ i, Latest ls i (.heading name) := by
  induction ls using List.reverseRecOn with
  | nil => simp [sectionAfter, not_latest_nil]
  | append_singleton ls line ih =>
    rw [sectionAfter_concat]
    by_cases hline : line.IsSection
    · simp only [latest_append_section hline, exists_eq_left]
      cases line with
      | heading name' => simp [Line.sectionAfter, eq_comm]
      | brokenHeading => simp [Line.sectionAfter]
      | blank | malformed | assignment => exact absurd hline id
    · simp only [latest_append_other hline, ← ih]
      cases line with
      | heading | brokenHeading => exact absurd trivial hline
      | blank | malformed | assignment => rfl

theorem standsIn_iff_sectionAfter {i : Nat} :
    StandsIn content (i + 1) name ↔ sectionAfter none ((statements content).take i) = some name :=
  standsIn_iff.trans (sectionAfter_eq_some_iff _).symm

/-- Line `n` of the text is a valid assignment to the setting, and gives it the value. -/
def Sets (k : Key) (content : Bytes) (n : Nat) (v : k.Value) : Prop :=
  ∃ text value, Shows content n text ∧ Assigns text k.name value ∧ StandsIn content n k.heading ∧ k.IsWritten v value

theorem sets_iff (k : Key) (content : Bytes) (n : Nat) (v : k.Value) :
    Sets k content n v ↔ ∃ i, n = i + 1 ∧ GivenAt k none (statements content) i v := by
  constructor
  · rintro ⟨text, value, hshows, hassigns, hsection, hwritten⟩
    obtain ⟨i, rfl, hi⟩ := statement_assignment_iff.mpr ⟨text, hshows, hassigns⟩
    refine ⟨i, rfl, _, hi, ?_⟩
    rw [setBy, if_pos ⟨standsIn_iff_sectionAfter.mp hsection, rfl⟩, Key.read?_eq_some_iff.mpr hwritten]
  · rintro ⟨i, rfl, line, hi, hset⟩
    cases line with
    | assignment name value =>
      rw [setBy] at hset
      split_ifs at hset with hk
      obtain ⟨hsection, rfl⟩ := hk
      obtain ⟨text, hshows, hassigns⟩ := statement_assignment_iff.mp ⟨i, rfl, hi⟩
      exact ⟨text, value, hshows, hassigns, standsIn_iff_sectionAfter.mpr hsection, Key.read?_eq_some_iff.mp hset⟩
    | blank | heading | brokenHeading | malformed => cases hset

theorem settled_configure (t : Settings) (l : Log) (content : Bytes) (h : Host) (k : Key) :
    Settled (Sets k content) (k.get t) (k.get (t.configure l content h).2.1) := by
  have hrun : Settled (GivenAt k none (statements content)) (k.get t) (k.get (t.configure l content h).2.1) :=
    settled_presentAll l k _ 1 ⟨by simp [Known], by simp⟩
  obtain ⟨i, hi, hlast⟩ | ⟨heq, hnone⟩ := hrun
  · refine Or.inl ⟨i + 1, (sets_iff k content _ _).mpr ⟨i, rfl, hi⟩, fun m u hm => ?_⟩
    obtain ⟨j, rfl, hj⟩ := (sets_iff k content m u).mp hm
    exact Nat.succ_le_succ (hlast j u hj)
  · refine Or.inr ⟨heq, fun m u hm => ?_⟩
    obtain ⟨j, rfl, hj⟩ := (sets_iff k content m u).mp hm
    exact hnone j u hj

/-! ### Whether a text is faultless -/

/-- Nothing is wrong with the line in the section `s`. -/
def Line.Fine (s : Option Bytes) : Line → Prop
  | .blank | .heading _ => True
  | .brokenHeading | .malformed => False
  | .assignment name value => ∀ current, s = some current → Known s → Usable current name value

theorem sound_cons_iff {s : Option Bytes} {line : Line} {ls : List Line} :
    Sound s (line :: ls) ↔ line.Fine s ∧ Sound (line.sectionAfter s) ls := by
  cases line with
  | blank => exact sound_blank_iff.trans ⟨fun h => ⟨trivial, h⟩, And.right⟩
  | heading name => exact sound_heading_iff.trans ⟨fun h => ⟨trivial, h⟩, And.right⟩
  | brokenHeading => exact iff_of_false nofun (fun h => h.1)
  | malformed => exact iff_of_false nofun (fun h => h.1)
  | assignment name value =>
    by_cases hs : Known s
    · obtain ⟨current, rfl⟩ := hs.exists_eq_some
      rw [sound_known_iff hs]
      simp [Line.Fine, Line.sectionAfter, hs]
    · rw [sound_foreign_iff hs]
      simp [Line.Fine, Line.sectionAfter, hs]

theorem sound_iff (ls : List Line) : ∀ {s : Option Bytes}, Sound s ls ↔
    ∀ (i : Nat) (line : Line), ls[i]? = some line → line.Fine (sectionAfter s (ls.take i)) := by
  induction ls with
  | nil => exact iff_of_true .nil (by simp)
  | cons line ls ih =>
    intro s
    rw [sound_cons_iff, ih]
    constructor
    · rintro ⟨hfine, hrest⟩ i line' hi
      cases i with
      | zero =>
        cases hi
        exact hfine
      | succ i => exact hrest i line' hi
    · intro h
      exact ⟨h 0 line rfl, fun i line' hi => h (i + 1) line' hi⟩

/-- No line of the text is malformed, and every assignment in one of the tokenizer's sections is to a setting and has a
valid value. -/
structure Faultless (content : Bytes) : Prop where
  closed : ∀ n text, Shows content n text → IsSection text → IsClosed text
  wellFormed : ∀ n text, Shows content n text → ¬ IsMalformed text
  usable : ∀ n text name value current, Shows content n text → Assigns text name value → StandsIn content n current →
    current = ascii "gcode-parser" ∨ current = ascii "tokenize" →
      ∃ k : Key, k.heading = current ∧ k.name = name ∧ ∃ v, k.IsWritten v value

theorem valid_iff_faultless (content : Bytes) : Valid content ↔ Faultless content := by
  rw [Valid, ← statements, sound_iff]
  constructor
  · intro h
    refine ⟨?_, ?_, ?_⟩
    · intro n text hshows hsection
      by_contra hopen
      obtain ⟨i, -, hi⟩ := statement_brokenHeading_iff.mpr ⟨text, hshows, hsection, hopen⟩
      exact h i _ hi
    · intro n text hshows hmalformed
      obtain ⟨i, -, hi⟩ := statement_malformed_iff.mpr ⟨text, hshows, hmalformed⟩
      exact h i _ hi
    · intro n text name value current hshows hassigns hsection hknown
      obtain ⟨i, rfl, hi⟩ := statement_assignment_iff.mpr ⟨text, hshows, hassigns⟩
      have hafter := standsIn_iff_sectionAfter.mp hsection
      refine Key.usable_iff.mp (h i _ hi current hafter ?_)
      rw [Known, hafter, Option.some.injEq, Option.some.injEq]
      exact hknown
  · intro h i line hi
    cases line with
    | blank | heading => trivial
    | brokenHeading =>
      obtain ⟨text, hshows, hsection, hopen⟩ := statement_brokenHeading_iff.mp ⟨i, rfl, hi⟩
      exact hopen (h.closed _ text hshows hsection)
    | malformed =>
      obtain ⟨text, hshows, hmalformed⟩ := statement_malformed_iff.mp ⟨i, rfl, hi⟩
      exact h.wellFormed _ text hshows hmalformed
    | assignment name value =>
      intro current hafter hknown
      obtain ⟨text, hshows, hassigns⟩ := statement_assignment_iff.mp ⟨i, rfl, hi⟩
      rw [Known, hafter, Option.some.injEq, Option.some.injEq] at hknown
      exact Key.usable_iff.mpr
        (h.usable _ text name value current hshows hassigns (standsIn_iff_sectionAfter.mpr hafter) hknown)

end

/-! ### Several texts -/

/-- What is said of each text, and the settings and the host after them. -/
def Settings.configureAll (l : Log) : List Bytes → Settings → Host → List Bool × Settings × Host
  | [], t, h => ([], t, h)
  | content :: rest, t, h =>
    let (clean, t', h') := t.configure l content h
    let (cleans, t'', h'') := configureAll l rest t' h'
    (clean :: cleans, t'', h'')

/-- In the text at index `i`, line `n` gives the value to the setting. The pairs are ordered by text, then by line. -/
def SetsAmong (k : Key) (contents : List Bytes) (place : ℕ ×ₗ ℕ) (v : k.Value) : Prop :=
  ∃ content, contents[(ofLex place).1]? = some content ∧ Sets k content (ofLex place).2 v

section

variable {k : Key} {content : Bytes} {contents : List Bytes} {v : k.Value}

theorem setsAmong_cons_iff {place : ℕ ×ₗ ℕ} : SetsAmong k (content :: contents) place v ↔
    (∃ n, place = toLex (0, n) ∧ Sets k content n v) ∨
      ∃ later, place = toLex ((ofLex later).1 + 1, (ofLex later).2) ∧ SetsAmong k contents later v := by
  obtain ⟨⟨i, n⟩, rfl⟩ := toLex.surjective place
  constructor
  · rintro ⟨content', hi, hsets⟩
    cases i with
    | zero =>
      cases hi
      exact Or.inl ⟨n, rfl, hsets⟩
    | succ i => exact Or.inr ⟨toLex (i, n), rfl, content', hi, hsets⟩
  · rintro (⟨n', hplace, hsets⟩ | ⟨later, hplace, content', hi, hsets⟩)
    · cases toLex.injective hplace
      exact ⟨content, rfl, hsets⟩
    · cases toLex.injective hplace
      exact ⟨content', hi, hsets⟩

end

theorem settled_cons_text {k : Key} {content : Bytes} {contents : List Bytes} {start u v : k.Value}
    (hfirst : Settled (Sets k content) start u) (hrest : Settled (SetsAmong k contents) u v) :
    Settled (SetsAmong k (content :: contents)) start v := by
  refine .andThen (fun _ _ => setsAmong_cons_iff) ?_ ?_ ?_ hfirst hrest
  · exact fun n m h => Prod.Lex.toLex_le_toLex.mpr (Or.inr ⟨rfl, h⟩)
  · intro place place' h
    rw [Prod.Lex.toLex_le_toLex]
    exact (Prod.Lex.le_iff.mp h).imp Nat.succ_lt_succ fun heq => ⟨congrArg Nat.succ heq.1, heq.2⟩
  · exact fun n place => Prod.Lex.toLex_le_toLex.mpr (Or.inl (Nat.succ_pos _))

theorem settled_configureAll (l : Log) (k : Key) (contents : List Bytes) : ∀ (t : Settings) (h : Host),
    Settled (SetsAmong k contents) (k.get t) (k.get (Settings.configureAll l contents t h).2.1) := by
  induction contents with
  | nil => exact fun _ _ => Or.inr ⟨rfl, by simp [SetsAmong]⟩
  | cons content contents ih => exact fun t h => settled_cons_text (settled_configure t l content h k) (ih _ _)

theorem clean_configureAll (l : Log) (contents : List Bytes) : ∀ (t : Settings) (h : Host),
    List.Forall₂ (fun clean content => clean = true ↔ Faultless content)
      (Settings.configureAll l contents t h).1 contents := by
  induction contents with
  | nil => exact fun _ _ => .nil
  | cons content contents ih =>
    exact fun t h => .cons ((t.configure_clean_iff l content h).trans (valid_iff_faultless content)) (ih _ _)

/-- **The last valid assignment wins.** After any number of texts, each setting has the last valid value that was
assigned to it in its section, or the value from before if there was none, and nothing else has an effect; the width is
one of the three that there are. Each text is said to be clean exactly if it is faultless. -/
theorem last_assignment_wins (t : Settings) (l : Log) (contents : List Bytes) (h : Host) :
    (∀ k : Key, Settled (SetsAmong k contents) (k.get t) (k.get (Settings.configureAll l contents t h).2.1)) ∧
      (Settings.configureAll l contents t h).2.1.rules.arithmetic.width.bits ∈ [16, 32, 64] ∧
      List.Forall₂ (fun clean content => clean = true ↔ Faultless content)
        (Settings.configureAll l contents t h).1 contents := by
  refine ⟨fun k => settled_configureAll l k contents t h, ?_, clean_configureAll l contents t h⟩
  cases (Settings.configureAll l contents t h).2.1.rules.arithmetic.width with
  | w16 => decide
  | w32 => decide
  | w64 => decide

end PartProgram.Config
