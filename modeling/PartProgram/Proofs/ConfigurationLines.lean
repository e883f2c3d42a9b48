import PartProgram.Config.Line
import PartProgram.Proofs.Trimming
import Mathlib.Data.List.Forall2

/-!
# Lines and sections of configuration text

What configuration text says, told from the text itself. A line ends before a line feed or at the end of the
text (`LineAt`). What counts of it stands before its first number sign or carriage return (`Counts`), and is a section
line if it starts with a bracket, and otherwise an assignment if it has an equals sign (`IsSection`, `Assigns`). The
section of a line is that of the last section line before it, if that one is closed (`Governs`, `StandsIn`).

The reading of a line agrees with this (`counts_iff`, `ofBytes_eq_heading_iff` and its kin), and so does the division
of a text into lines (`lineAt_iff`).
-/

namespace PartProgram

/-- `Lowered s t`: the text `t` is `s` with the small letter for each of the capital letters, `A` to `Z`. -/
def Text.Lowered (s t : Bytes) : Prop :=
  List.Forall₂ (fun c d => if 0x41 ≤ c ∧ c ≤ 0x5a then d = c + 0x20 else d = c) s t

theorem Text.lowered_iff {s t : Bytes} : Lowered s t ↔ lower s = t := by
  have hletter : ∀ c d : UInt8, (if 0x41 ≤ c ∧ c ≤ 0x5a then d = c + 0x20 else d = c) ↔ Byte.toLower c = d := by
    grind [Byte.toLower, Byte.isUpper]
  simp only [Lowered, hletter]
  rw [← List.forall₂_map_left_iff (R := Eq), List.forall₂_eq_eq_eq, lower]

namespace Config

open Text

variable {content raw rest text name value : Bytes} {n : Nat}

/-! ### Lines -/

/-- `LineAt content n raw`: the line with number `n` of the text, counted from one, is `raw`. -/
inductive LineAt : Bytes → Nat → Bytes → Prop where
  /-- The text is a line without a line end. -/
  | last {raw : Bytes} : raw ≠ [] → Byte.lf ∉ raw → LineAt raw 1 raw
  /-- The first of the lines. -/
  | first {raw rest : Bytes} : Byte.lf ∉ raw → LineAt (raw ++ Byte.lf :: rest) 1 raw
  /-- A line after the first. -/
  | later {first rest raw : Bytes} {n : Nat} : Byte.lf ∉ first → LineAt rest n raw →
      LineAt (first ++ Byte.lf :: rest) (n + 1) raw

theorem lines_append_lf (h : Byte.lf ∉ raw) (rest : Bytes) : lines (raw ++ Byte.lf :: rest) = raw :: lines rest := by
  induction raw with
  | nil => simp [lines]
  | cons c raw ih =>
    simp only [List.mem_cons, not_or] at h
    rw [List.cons_append, lines, if_neg (Ne.symm h.1), ih h.2]

theorem lines_of_not_mem (h : Byte.lf ∉ raw) (hne : raw ≠ []) : lines raw = [raw] := by
  induction raw with
  | nil => exact absurd rfl hne
  | cons c raw ih =>
    simp only [List.mem_cons, not_or] at h
    rw [lines, if_neg (Ne.symm h.1)]
    by_cases hraw : raw = []
    · rw [hraw]
      rfl
    · rw [ih h.2 hraw]

/-- A text is empty, or a line without a line end, or a line with its line end before a text. -/
theorem text_induction {P : Bytes → Prop} (nil : P []) (last : ∀ raw, raw ≠ [] → Byte.lf ∉ raw → P raw)
    (line : ∀ raw rest, Byte.lf ∉ raw → P rest → P (raw ++ Byte.lf :: rest)) (content : Bytes) : P content := by
  induction hn : content.length using Nat.strongRecOn generalizing content with
  | _ n ih =>
    by_cases hlf : Byte.lf ∈ content
    · obtain ⟨raw, rest, rfl, hraw⟩ := List.eq_append_cons_of_mem hlf
      refine line raw rest hraw (ih rest.length ?_ rest rfl)
      rw [← hn, List.length_append, List.length_cons]
      omega
    · by_cases hnil : content = []
      · exact hnil ▸ nil
      · exact last content hnil hlf

/-- Lines are numbered from one. -/
theorem lineAt_iff : LineAt content n raw ↔ ∃ i, n = i + 1 ∧ (lines content)[i]? = some raw := by
  constructor
  · intro h
    induction h with
    | last hne hlf => exact ⟨0, rfl, by rw [lines_of_not_mem hlf hne]; rfl⟩
    | first hlf => exact ⟨0, rfl, by rw [lines_append_lf hlf]; rfl⟩
    | later hlf _ ih =>
      obtain ⟨i, rfl, hi⟩ := ih
      exact ⟨i + 1, rfl, by rwa [lines_append_lf hlf]⟩
  · rintro ⟨i, rfl, hi⟩
    induction content using text_induction generalizing i with
    | nil => cases hi
    | last line hne hlf =>
      rw [lines_of_not_mem hlf hne] at hi
      cases i with
      | zero =>
        cases hi
        exact .last hne hlf
      | succ i => cases hi
    | line line rest hlf ih =>
      rw [lines_append_lf hlf] at hi
      cases i with
      | zero =>
        cases hi
        exact .first hlf
      | succ i => exact .later hlf (ih i hi)

/-- `Counts raw text`: what counts of the line `raw` is `text`. The line is cut at the first number sign or carriage
return, and trimmed. -/
def Counts (raw text : Bytes) : Prop :=
  ∃ kept rest, raw = kept ++ rest ∧ Byte.hash ∉ kept ∧ Byte.cr ∉ kept ∧
    (∀ c, rest.head? = some c → c = Byte.hash ∨ c = Byte.cr) ∧ Trimmed kept text

theorem takeWhile_eq_iff {p : UInt8 → Bool} {kept : Bytes} : raw.takeWhile p = kept ↔
    ∃ rest, raw = kept ++ rest ∧ (∀ c ∈ kept, p c) ∧ ∀ c, rest.head? = some c → p c = false := by
  constructor
  · rintro rfl
    refine ⟨raw.dropWhile p, List.takeWhile_append_dropWhile.symm, fun c hc => List.mem_takeWhile_imp hc, ?_⟩
    intro c hc
    have hstop := List.head?_dropWhile_not p raw
    rwa [hc] at hstop
  · rintro ⟨rest, rfl, hkept, hrest⟩
    have hnil : rest.takeWhile p = [] := by
      cases rest with
      | nil => rfl
      | cons c rest => exact List.takeWhile_cons_of_neg (by simp [hrest c rfl])
    rw [List.takeWhile_append_of_pos hkept, hnil, List.append_nil]

theorem counts_iff : Counts raw text ↔ bare raw = text := by
  rw [bare, ← trimmed_iff]
  constructor
  · rintro ⟨kept, rest, hraw, hhash, hcr, hrest, htext⟩
    rwa [takeWhile_eq_iff.mpr ⟨rest, hraw, ?_, ?_⟩]
    · intro c hc
      simp [ne_of_mem_of_not_mem hc hhash, ne_of_mem_of_not_mem hc hcr]
    · intro c hc
      rcases hrest c hc with rfl | rfl <;> rfl
  · intro htext
    obtain ⟨rest, hraw, hkept, hrest⟩ := takeWhile_eq_iff.mp rfl
    refine ⟨_, rest, hraw, fun hmem => ?_, fun hmem => ?_, fun c hc => ?_, htext⟩
    · exact absurd (hkept _ hmem) (by decide)
    · exact absurd (hkept _ hmem) (by decide)
    · simpa [imp_iff_not_or, or_comm] using hrest c hc

/-- What counts of the line with number `n` is `text`. -/
def Shows (content : Bytes) (n : Nat) (text : Bytes) : Prop := ∃ raw, LineAt content n raw ∧ Counts raw text

theorem shows_iff : Shows content n text ↔ ∃ raw, LineAt content n raw ∧ bare raw = text := by
  simp only [Shows, counts_iff]

/-! ### Kinds of lines -/

/-- A section line. -/
def IsSection (text : Bytes) : Prop := text.head? = some Byte.openBracket

/-- It ends in a bracket too. -/
def IsClosed (text : Bytes) : Prop := text.getLast? = some Byte.closeBracket

/-- The text stands for the name, which is trimmed and has small letters. -/
def StandsFor (text name : Bytes) : Prop := ∃ t, Trimmed text t ∧ Lowered t name

/-- The section line has the name in its brackets. -/
def HasName (text name : Bytes) : Prop :=
  ∃ inside, text = Byte.openBracket :: (inside ++ [Byte.closeBracket]) ∧ StandsFor inside name

/-- The line gives the value to the name: the two stand around its first equals sign. -/
def Assigns (text name value : Bytes) : Prop :=
  ¬ IsSection text ∧ ∃ left right, text = left ++ Byte.equals :: right ∧ Byte.equals ∉ left ∧
    StandsFor left name ∧ Trimmed right value

/-- The line is neither a section line nor an assignment, and not empty. -/
def IsMalformed (text : Bytes) : Prop := text ≠ [] ∧ ¬ IsSection text ∧ Byte.equals ∉ text

/-- A heading, closed or not. -/
def Line.IsSection : Line → Prop
  | .heading _ | .brokenHeading => True
  | .blank | .assignment _ _ | .malformed => False

theorem standsFor_iff : StandsFor text name ↔ canonicalName text = name := by
  simp only [StandsFor, trimmed_iff, lowered_iff, canonicalName, exists_eq_left']

theorem divide_at_equals {left : Bytes} (h : Byte.equals ∉ left) (right : Bytes) :
    (left ++ Byte.equals :: right).takeWhile (· != Byte.equals) = left ∧
      ((left ++ Byte.equals :: right).dropWhile (· != Byte.equals)).drop 1 = right := by
  have hpass : ∀ c ∈ left, (c != Byte.equals) = true := by
    intro c hc
    simpa using ne_of_mem_of_not_mem hc h
  rw [List.takeWhile_append_of_pos hpass, List.dropWhile_append_of_pos hpass]
  simp

theorem assigns_iff : Assigns text name value ↔ ¬ IsSection text ∧ Byte.equals ∈ text ∧
    canonicalName (text.takeWhile (· != Byte.equals)) = name ∧
    Text.trim ((text.dropWhile (· != Byte.equals)).drop 1) = value := by
  simp only [Assigns, standsFor_iff, trimmed_iff]
  refine and_congr_right fun _ => ?_
  constructor
  · rintro ⟨left, right, rfl, hleft, hname, hvalue⟩
    obtain ⟨htake, hdrop⟩ := divide_at_equals hleft right
    exact ⟨by simp, by rwa [htake], by rwa [hdrop]⟩
  · rintro ⟨hmem, hname, hvalue⟩
    obtain ⟨left, right, rfl, hleft⟩ := List.eq_append_cons_of_mem hmem
    obtain ⟨htake, hdrop⟩ := divide_at_equals hleft right
    exact ⟨left, right, rfl, hleft, by rwa [htake] at hname, by rwa [hdrop] at hvalue⟩

theorem hasName_iff (hsection : IsSection text) (hclosed : IsClosed text) :
    HasName text name ↔ canonicalName text.tail.dropLast = name := by
  constructor
  · rintro ⟨inside, rfl, hname⟩
    rw [List.tail_cons, List.dropLast_concat]
    exact standsFor_iff.mp hname
  · intro hname
    obtain ⟨cs, rfl⟩ := List.head?_eq_some_iff.mp hsection
    cases cs using List.reverseRecOn with
    | nil =>
      rw [IsClosed] at hclosed
      exact absurd hclosed (by decide)
    | append_singleton inside c =>
      rw [IsClosed, ← List.cons_append, List.getLast?_concat, Option.some.injEq] at hclosed
      rw [List.tail_cons, List.dropLast_concat] at hname
      exact ⟨inside, by rw [hclosed], standsFor_iff.mpr hname⟩

theorem ofBytes_eq_heading_iff : Line.ofBytes raw = .heading name ↔
    IsSection (bare raw) ∧ IsClosed (bare raw) ∧ HasName (bare raw) name := by
  rw [and_congr_right fun hsection => and_congr_right (hasName_iff hsection), Line.ofBytes, IsSection, IsClosed]
  cases bare raw with
  | nil => simp
  | cons c cs =>
    simp only
    split_ifs <;> simp_all

theorem ofBytes_eq_brokenHeading_iff : Line.ofBytes raw = .brokenHeading ↔
    IsSection (bare raw) ∧ ¬ IsClosed (bare raw) := by
  rw [Line.ofBytes, IsSection, IsClosed]
  cases bare raw with
  | nil => simp
  | cons c cs =>
    simp only
    split_ifs <;> simp_all

theorem ofBytes_eq_assignment_iff : Line.ofBytes raw = .assignment name value ↔ Assigns (bare raw) name value := by
  rw [Line.ofBytes, assigns_iff, IsSection]
  cases bare raw with
  | nil => simp
  | cons c cs =>
    simp only
    split_ifs <;> simp_all

theorem ofBytes_eq_malformed_iff : Line.ofBytes raw = .malformed ↔ IsMalformed (bare raw) := by
  rw [Line.ofBytes, IsMalformed, IsSection]
  cases bare raw with
  | nil => simp
  | cons c cs =>
    simp only
    split_ifs <;> simp_all

theorem isSection_ofBytes : (Line.ofBytes raw).IsSection ↔ IsSection (bare raw) := by
  rw [Line.ofBytes, IsSection]
  cases bare raw with
  | nil => simp [Line.IsSection]
  | cons c cs =>
    simp only
    split_ifs <;> simp_all [Line.IsSection]

/-- What the lines of a text say. -/
def statements (content : Bytes) : List Line := (lines content).map Line.ofBytes

theorem statements_getElem?_iff {line : Line} {i : Nat} : (statements content)[i]? = some line ↔
    ∃ raw, LineAt content (i + 1) raw ∧ Line.ofBytes raw = line := by
  rw [statements, List.getElem?_map, Option.map_eq_some_iff]
  simp only [lineAt_iff, Nat.add_right_cancel_iff, exists_eq_left']

/-- What a statement says can be seen from what counts of its line. -/
theorem statement_iff {line : Line} {P : Bytes → Prop} (h : ∀ raw, Line.ofBytes raw = line ↔ P (bare raw)) {n : Nat} :
    (∃ i, n = i + 1 ∧ (statements content)[i]? = some line) ↔ ∃ text, Shows content n text ∧ P text := by
  constructor
  · rintro ⟨i, rfl, hi⟩
    obtain ⟨raw, hraw, hline⟩ := statements_getElem?_iff.mp hi
    exact ⟨bare raw, shows_iff.mpr ⟨raw, hraw, rfl⟩, (h raw).mp hline⟩
  · rintro ⟨text, hshows, hP⟩
    obtain ⟨raw, hraw, rfl⟩ := shows_iff.mp hshows
    obtain ⟨i, rfl, hi⟩ := lineAt_iff.mp hraw
    exact ⟨i, rfl, statements_getElem?_iff.mpr ⟨raw, hraw, (h raw).mpr hP⟩⟩

theorem statement_heading_iff : (∃ i, n = i + 1 ∧ (statements content)[i]? = some (.heading name)) ↔
    ∃ text, Shows content n text ∧ IsSection text ∧ IsClosed text ∧ HasName text name :=
  statement_iff fun _ => ofBytes_eq_heading_iff

theorem statement_brokenHeading_iff : (∃ i, n = i + 1 ∧ (statements content)[i]? = some .brokenHeading) ↔
    ∃ text, Shows content n text ∧ IsSection text ∧ ¬ IsClosed text :=
  statement_iff fun _ => ofBytes_eq_brokenHeading_iff

theorem statement_assignment_iff : (∃ i, n = i + 1 ∧ (statements content)[i]? = some (.assignment name value)) ↔
    ∃ text, Shows content n text ∧ Assigns text name value :=
  statement_iff fun _ => ofBytes_eq_assignment_iff

theorem statement_malformed_iff : (∃ i, n = i + 1 ∧ (statements content)[i]? = some .malformed) ↔
    ∃ text, Shows content n text ∧ IsMalformed text :=
  statement_iff fun _ => ofBytes_eq_malformed_iff

/-! ### Sections -/

/-- The last section line before line `n` is line `m`, and what counts of it is `text`. -/
def Governs (content : Bytes) (m n : Nat) (text : Bytes) : Prop :=
  m < n ∧ Shows content m text ∧ IsSection text ∧
    ∀ k text', m < k → k < n → Shows content k text' → ¬ IsSection text'

/-- Line `n` is in the section of the given name. -/
def StandsIn (content : Bytes) (n : Nat) (name : Bytes) : Prop :=
  ∃ m text, Governs content m n text ∧ IsClosed text ∧ HasName text name

/-- `Latest ls i line`: the last of the section lines among `ls` is `line`, at index `i`. -/
def Latest (ls : List Line) (i : Nat) (line : Line) : Prop :=
  ls[i]? = some line ∧ line.IsSection ∧ ∀ j line', i < j → ls[j]? = some line' → ¬ line'.IsSection

theorem not_latest_nil {i : Nat} {line : Line} : ¬ Latest [] i line := by
  rintro ⟨h, -⟩
  cases h

theorem latest_append_section {ls : List Line} {x line : Line} {i : Nat} (hx : x.IsSection) :
    Latest (ls ++ [x]) i line ↔ i = ls.length ∧ line = x := by
  constructor
  · rintro ⟨hi, -, hlast⟩
    obtain hlt | rfl | hgt := Nat.lt_trichotomy i ls.length
    · exact absurd hx (hlast ls.length x hlt (by simp))
    · exact ⟨rfl, by simpa using hi.symm⟩
    · rw [List.getElem?_eq_none (by simp; omega)] at hi
      cases hi
  · rintro ⟨rfl, rfl⟩
    refine ⟨by simp, hx, fun j line' hj hline' => ?_⟩
    rw [List.getElem?_eq_none (by simp; omega)] at hline'
    cases hline'

theorem latest_append_other {ls : List Line} {x line : Line} {i : Nat} (hx : ¬ x.IsSection) :
    Latest (ls ++ [x]) i line ↔ Latest ls i line := by
  have hother : ∀ (j : Nat) (line' : Line), line'.IsSection → ((ls ++ [x])[j]? = some line' ↔ ls[j]? = some line') := by
    intro j line' hline'
    obtain hlt | rfl | hgt := Nat.lt_trichotomy j ls.length
    · rw [List.getElem?_append_left hlt]
    · rw [List.getElem?_concat_length, List.getElem?_eq_none (Nat.le_refl _)]
      refine iff_of_false ?_ (by simp)
      rintro ⟨rfl⟩
      exact hx hline'
    · rw [List.getElem?_eq_none (by simp; omega), List.getElem?_eq_none (by omega)]
  rw [Latest, Latest]
  constructor
  · rintro ⟨hi, hline, hlast⟩
    exact ⟨(hother i line hline).mp hi, hline,
      fun j line' hj hj' hline' => hlast j line' hj ((hother j line' hline').mpr hj') hline'⟩
  · rintro ⟨hi, hline, hlast⟩
    exact ⟨(hother i line hline).mpr hi, hline,
      fun j line' hj hj' hline' => hlast j line' hj ((hother j line' hline').mp hj') hline'⟩

theorem getElem?_take_iff {ls : List Line} {line : Line} {k i : Nat} :
    (ls.take k)[i]? = some line ↔ i < k ∧ ls[i]? = some line := by
  rw [List.getElem?_take, Option.ite_none_right_eq_some]

/-- The heading of a section, if it is closed, is the last section line among the statements before. -/
theorem governs_closed_iff {m k : Nat} :
    (∃ text, Governs content m (k + 1) text ∧ IsClosed text ∧ HasName text name) ↔
      ∃ i, m = i + 1 ∧ Latest ((statements content).take k) i (.heading name) := by
  have hbetween : ∀ i, (∀ q text', i + 1 < q → q < k + 1 → Shows content q text' → ¬ IsSection text') ↔
      ∀ j line', i < j → ((statements content).take k)[j]? = some line' → ¬ line'.IsSection := by
    intro i
    constructor
    · intro h j line' hj hline'
      obtain ⟨hjk, hline'⟩ := getElem?_take_iff.mp hline'
      obtain ⟨raw, hraw, rfl⟩ := statements_getElem?_iff.mp hline'
      rw [isSection_ofBytes]
      exact h (j + 1) _ (by omega) (by omega) (shows_iff.mpr ⟨raw, hraw, rfl⟩)
    · intro h q text' hq hqk hshows
      obtain ⟨raw, hraw, rfl⟩ := shows_iff.mp hshows
      obtain ⟨j, rfl, -⟩ := lineAt_iff.mp hraw
      rw [← isSection_ofBytes]
      refine h j _ (by omega) (getElem?_take_iff.mpr ⟨by omega, ?_⟩)
      exact statements_getElem?_iff.mpr ⟨raw, hraw, rfl⟩
  constructor
  · rintro ⟨text, ⟨hm, hshows, hsection, hlast⟩, hclosed, hname⟩
    obtain ⟨raw, hraw, rfl⟩ := shows_iff.mp hshows
    obtain ⟨i, rfl, -⟩ := lineAt_iff.mp hraw
    have hline := ofBytes_eq_heading_iff.mpr ⟨hsection, hclosed, hname⟩
    refine ⟨i, rfl, getElem?_take_iff.mpr ⟨by omega, ?_⟩, trivial, (hbetween i).mp hlast⟩
    exact statements_getElem?_iff.mpr ⟨raw, hraw, hline⟩
  · rintro ⟨i, rfl, hi, -, hlast⟩
    obtain ⟨hik, hi⟩ := getElem?_take_iff.mp hi
    obtain ⟨raw, hraw, hline⟩ := statements_getElem?_iff.mp hi
    obtain ⟨hsection, hclosed, hname⟩ := ofBytes_eq_heading_iff.mp hline
    have hshows : Shows content (i + 1) (bare raw) := shows_iff.mpr ⟨raw, hraw, rfl⟩
    exact ⟨bare raw, ⟨by omega, hshows, hsection, (hbetween i).mpr hlast⟩, hclosed, hname⟩

theorem standsIn_iff {k : Nat} :
    StandsIn content (k + 1) name ↔ ∃ i, Latest ((statements content).take k) i (.heading name) := by
  simp only [StandsIn, governs_closed_iff]
  constructor
  · rintro ⟨_, i, rfl, h⟩
    exact ⟨i, h⟩
  · rintro ⟨i, h⟩
    exact ⟨i + 1, i, rfl, h⟩

end Config

end PartProgram
