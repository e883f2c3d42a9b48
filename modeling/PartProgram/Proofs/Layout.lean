import PartProgram.Proofs.ListenerCalls
import PartProgram.Proofs.Trimming
import Mathlib.Data.List.DropRight
import Mathlib.Logic.Relation

/-!
# Layout does not show

Blanks at the ends of a line, around its equals sign or inside its brackets, a comment, a carriage return, and the
case of names: a line with any of these changed (`LineRelaid`) says the same (`LineRelaid.ofBytes`). So a text whose
lines are laid out anew (`TextRelaid`) is followed in the same way by every listener.

Most changes come down to what is left when the comment and the blanks at the ends are taken off. Blanks
inside the line are next to a byte that is not a blank, and such a byte divides the text for trimming
(`trim_append_cons`).
-/

namespace PartProgram

/-! ### Small letters -/

namespace Byte

theorem toLower_eq_iff {c x : UInt8} (hx : isUpper x = false) (hx' : isLower x = false) : toLower c = x ↔ c = x := by
  grind [isUpper, isLower, toLower]

theorem toLower_toLower (c : UInt8) : toLower (toLower c) = toLower c := by
  grind [isUpper, toLower]

theorem isSpace_toLower (c : UInt8) : isSpace (toLower c) = isSpace c := by
  grind [isSpace, isUpper, toLower]

end Byte

namespace Text

variable {s : Bytes}

theorem lower_trimStart (s : Bytes) : lower (trimStart s) = trimStart (lower s) := by
  rw [lower, lower, trimStart, trimStart, List.dropWhile_map]
  congr 2
  funext c
  exact (Byte.isSpace_toLower c).symm

theorem lower_trim (s : Bytes) : lower (trim s) = trim (lower s) := by
  have hend : ∀ s, lower (trimEnd s) = trimEnd (lower s) := by
    intro s
    have h := lower_trimStart s.reverse
    rw [lower, lower, trimStart, trimStart, List.map_reverse] at h
    rw [lower, lower, trimEnd, trimEnd, List.map_reverse, h]
  rw [trim, hend, lower_trimStart, trim]

theorem lower_lower (s : Bytes) : lower (lower s) = lower s := by
  rw [lower, lower, List.map_map]
  congr 1
  funext c
  exact Byte.toLower_toLower c

section

variable {x : UInt8} (hx : Byte.isUpper x = false) (hx' : Byte.isLower x = false)

include hx hx'

theorem mem_lower_iff : x ∈ lower s ↔ x ∈ s := by
  simp [lower, Byte.toLower_eq_iff hx hx']

theorem head?_lower_iff : (lower s).head? = some x ↔ s.head? = some x := by
  simp [lower, Byte.toLower_eq_iff hx hx']

theorem getLast?_lower_iff : (lower s).getLast? = some x ↔ s.getLast? = some x := by
  simp [lower, Byte.toLower_eq_iff hx hx']

end

end Text

namespace Config

open Text

variable {raw raw' left left' right p r u q v b b' : Bytes}

/-! ### Comments and carriage returns -/

/-- The line without a comment and what follows a carriage return. -/
def uncommented (raw : Bytes) : Bytes := raw.takeWhile fun c => c != Byte.hash && c != Byte.cr

theorem bare_eq (raw : Bytes) : bare raw = trim (uncommented raw) := rfl

/-- There is neither a comment nor a carriage return. -/
def Uncommented (u : Bytes) : Prop := Byte.hash ∉ u ∧ Byte.cr ∉ u

theorem append_uncommented_iff : Uncommented (u ++ v) ↔ Uncommented u ∧ Uncommented v := by
  simp only [Uncommented, List.mem_append, not_or]
  exact and_and_and_comm

/-- What stands in front is kept whole, or nothing of what follows is seen. -/
theorem uncommented_append (u v : Bytes) :
    Uncommented u ∧ uncommented (u ++ v) = u ++ uncommented v ∨
      ¬ Uncommented u ∧ uncommented (u ++ v) = uncommented u := by
  induction u with
  | nil => exact Or.inl ⟨⟨by simp, by simp⟩, rfl⟩
  | cons c u ih =>
    simp only [Uncommented, uncommented, List.cons_append, List.takeWhile_cons, List.mem_cons, not_or] at ih ⊢
    by_cases hc : c = Byte.hash ∨ c = Byte.cr
    · obtain rfl | rfl := hc
      · exact Or.inr (by simp)
      · exact Or.inr (by simp)
    · rw [not_or] at hc
      have hkeep : (c != Byte.hash && c != Byte.cr) = true := by simp [hc.1, hc.2]
      simp only [hkeep, if_true, Ne.symm hc.1, Ne.symm hc.2, not_false_eq_true, true_and, List.cons.injEq]
      exact ih

theorem uncommented_append_of_uncommented (h : Uncommented u) (v : Bytes) :
    uncommented (u ++ v) = u ++ uncommented v := by
  obtain ⟨-, heq⟩ | ⟨hnot, -⟩ := uncommented_append u v
  · exact heq
  · exact absurd h hnot

theorem uncommented_append_of_not (h : ¬ Uncommented u) (v : Bytes) : uncommented (u ++ v) = uncommented u := by
  obtain ⟨hkept, -⟩ | ⟨-, heq⟩ := uncommented_append u v
  · exact absurd hkept h
  · exact heq

theorem uncommented_of_uncommented (h : Uncommented u) : uncommented u = u := by
  simpa [uncommented] using uncommented_append_of_uncommented h []

theorem lower_uncommented (raw : Bytes) : lower (uncommented raw) = uncommented (lower raw) := by
  rw [lower, lower, uncommented, uncommented, List.takeWhile_map]
  congr 2
  funext c
  have hhash : (Byte.toLower c != Byte.hash) = (c != Byte.hash) := by
    rw [Bool.eq_iff_iff, bne_iff_ne, bne_iff_ne, ne_eq, Byte.toLower_eq_iff (by decide) (by decide)]
  have hcr : (Byte.toLower c != Byte.cr) = (c != Byte.cr) := by
    rw [Bool.eq_iff_iff, bne_iff_ne, bne_iff_ne, ne_eq, Byte.toLower_eq_iff (by decide) (by decide)]
  simp only [Function.comp, hhash, hcr]

theorem lower_bare (raw : Bytes) : lower (bare raw) = bare (lower raw) := by
  rw [bare_eq, bare_eq, lower_trim, lower_uncommented]

/-! ### Blanks -/

/-- Blanks, which may be added to a line: spaces, tabulators, vertical ones too, and form feeds. -/
def Blanks (b : Bytes) : Prop := ∀ c ∈ b, c = Byte.space ∨ c = Byte.tab ∨ c = 0x0b ∨ c = 0x0c

instance (b : Bytes) : Decidable (Blanks b) := List.decidableBAll _ b

theorem Blanks.isSpace (h : Blanks b) : ∀ c ∈ b, Byte.isSpace c := by
  intro c hc
  obtain rfl | rfl | rfl | rfl := h c hc <;> decide

theorem Blanks.not_mem (h : Blanks b) {c : UInt8} (hc : Byte.isSpace c = false ∨ c = Byte.cr) : c ∉ b := by
  intro hmem
  obtain rfl | rfl | rfl | rfl := h c hmem
  all_goals exact absurd hc (by decide)

theorem Blanks.uncommented (h : Blanks b) : Uncommented b :=
  ⟨h.not_mem (Or.inl (by decide)), h.not_mem (Or.inr rfl)⟩

theorem canonicalName_blanks_append (h : Blanks b) (s : Bytes) : canonicalName (b ++ s) = canonicalName s := by
  rw [canonicalName, trim_spaces_append h.isSpace, canonicalName]

theorem canonicalName_append_blanks (h : Blanks b) (s : Bytes) : canonicalName (s ++ b) = canonicalName s := by
  rw [canonicalName, trim_append_spaces h.isSpace, canonicalName]

theorem canonicalName_lower (s : Bytes) : canonicalName (lower s) = canonicalName s := by
  rw [canonicalName, canonicalName, ← lower_trim, lower_lower]

/-! ### What the changed lines say -/

theorem ofBytes_congr (h : bare raw = bare raw') : Line.ofBytes raw = Line.ofBytes raw' := by
  rw [Line.ofBytes, Line.ofBytes, h]

/-- What a line with an equals sign says, unless that is in a comment. -/
theorem ofBytes_equals (hleft : Byte.equals ∉ left) (hkept : Uncommented left)
    (hhead : (trimStart left).head? ≠ some Byte.openBracket) (right : Bytes) :
    Line.ofBytes (left ++ Byte.equals :: right) = .assignment (canonicalName left) (trim (uncommented right)) := by
  have hequals : uncommented (Byte.equals :: right) = Byte.equals :: uncommented right :=
    List.takeWhile_cons_of_pos (by decide)
  rw [ofBytes_eq_assignment_iff, bare_eq, uncommented_append_of_uncommented hkept, hequals,
    trim_append_cons (by decide)]
  refine ⟨fun hsection => ?_, trimStart left, trimEnd (uncommented right), rfl, ?_, ?_,
    trimmed_iff.mpr (trim_trimEnd _)⟩
  · rw [IsSection, List.head?_append] at hsection
    cases hstart : (trimStart left).head? with
    | none =>
      rw [hstart, Option.none_or, List.head?_cons] at hsection
      exact absurd hsection (by decide)
    | some c =>
      rw [hstart, Option.some_or] at hsection
      exact hhead (hstart.trans hsection)
  · exact fun hmem => hleft ((List.dropWhile_sublist _).subset hmem)
  · rw [standsFor_iff, canonicalName, trim_trimStart, canonicalName]

/-- What a section line says. -/
theorem ofBytes_section {y : Bytes} (h : bare raw = Byte.openBracket :: y) : Line.ofBytes raw =
    if y.getLast? = some Byte.closeBracket then .heading (canonicalName y.dropLast) else .brokenHeading := by
  rw [Line.ofBytes, h]
  cases y with
  | nil => rfl
  | cons c y => simp [List.getLast?_cons_cons]

theorem mem_of_mem_trim {c : UInt8} {s : Bytes} (h : c ∈ trim s) : c ∈ s :=
  (List.dropWhile_sublist _).subset ((List.rdropWhile_prefix _ _).subset h)

theorem not_mem_bare {c : UInt8} (hkept : ¬ Uncommented u) (hc : c ∉ u) : c ∉ bare (u ++ v) := by
  rw [bare_eq, uncommented_append_of_not hkept]
  exact fun hmem => hc ((List.takeWhile_sublist _).subset (mem_of_mem_trim hmem))

/-- What counts of a line around a byte that is not a blank. -/
theorem bare_append_cons {c : UInt8} (hkept : Uncommented u) (hc : Byte.isSpace c = false) (hhash : c ≠ Byte.hash)
    (v : Bytes) : bare (u ++ c :: v) = trimStart u ++ c :: trimEnd (uncommented v) := by
  have hcr : c ≠ Byte.cr := by
    rintro rfl
    exact absurd hc (by decide)
  have hv : uncommented (c :: v) = c :: uncommented v := List.takeWhile_cons_of_pos (by simp [hhash, hcr])
  rw [bare_eq, uncommented_append_of_uncommented hkept, hv, trim_append_cons hc]

/-- The bracket of a section line is a given byte after nothing but whitespace, or it stands before that byte. -/
theorem opening_of_isSection {c : UInt8} (hkept : Uncommented u) (hc : Byte.isSpace c = false) (hhash : c ≠ Byte.hash)
    (h : IsSection (bare (u ++ c :: v))) : trimStart u = [] ∧ c = Byte.openBracket ∨ Byte.openBracket ∈ u := by
  rw [IsSection, bare_append_cons hkept hc hhash] at h
  cases hstart : trimStart u with
  | nil =>
    rw [hstart] at h
    exact Or.inl ⟨rfl, Option.some.inj h⟩
  | cons d s =>
    rw [hstart] at h
    have hmem : Byte.openBracket ∈ trimStart u := by
      rw [hstart, ← Option.some.inj h]
      exact List.mem_cons_self
    exact Or.inr ((List.dropWhile_sublist _).subset hmem)

/-- Before the first bracket of a section line there is nothing but whitespace. -/
theorem bare_opening (hp : Byte.openBracket ∉ p) (h : IsSection (bare (p ++ Byte.openBracket :: r))) (r' : Bytes) :
    bare (p ++ Byte.openBracket :: r') = Byte.openBracket :: trimEnd (uncommented r') := by
  by_cases hkept : Uncommented p
  · obtain ⟨hnil, -⟩ := (opening_of_isSection hkept (by decide) (by decide) h).resolve_right hp
    rw [bare_append_cons hkept (by decide) (by decide), hnil, List.nil_append]
  · -- The bracket stands in a comment, so there is none in what counts.
    exact absurd (List.mem_of_mem_head? h) (not_mem_bare hkept hp)

/-- The opening bracket of a section line stands before a closing one, and blanks may stand between them. -/
theorem bare_closing (hkept : Uncommented u) (h : IsSection (bare (u ++ Byte.closeBracket :: q))) :
    ∃ v, ∀ b, Blanks b → bare (u ++ (b ++ Byte.closeBracket :: q)) =
      Byte.openBracket :: (v ++ b ++ Byte.closeBracket :: trimEnd (uncommented q)) := by
  have hopen : Byte.openBracket ∈ u :=
    (opening_of_isSection hkept (by decide) (by decide) h).resolve_left fun hleft => absurd hleft.2 (by decide)
  obtain ⟨p, v, rfl, hp⟩ := List.eq_append_cons_of_mem hopen
  refine ⟨v, fun b hb => ?_⟩
  have hinside : Uncommented (v ++ b) := by
    rw [List.append_cons, append_uncommented_iff] at hkept
    exact append_uncommented_iff.mpr ⟨hkept.2, hb.uncommented⟩
  have hclose : uncommented (Byte.closeBracket :: q) = Byte.closeBracket :: uncommented q :=
    List.takeWhile_cons_of_pos (by decide)
  rw [List.append_assoc, List.cons_append] at h ⊢
  rw [bare_opening hp h, ← List.append_assoc, uncommented_append_of_uncommented hinside, hclose,
    trimEnd_append_cons (by decide)]

theorem canonicalName_congr {s s' : Bytes} (h : lower s' = lower s) : canonicalName s' = canonicalName s := by
  rw [← canonicalName_lower, h, canonicalName_lower]

theorem isSection_congr_lower {s s' : Bytes} (h : lower s' = lower s) : IsSection s' ↔ IsSection s := by
  rw [IsSection, ← head?_lower_iff (by decide) (by decide), h, head?_lower_iff (by decide) (by decide), IsSection]

theorem equals_mem_congr_lower {s s' : Bytes} (h : lower s' = lower s) : Byte.equals ∈ s' ↔ Byte.equals ∈ s := by
  rw [← mem_lower_iff (by decide) (by decide), h, mem_lower_iff (by decide) (by decide)]

/-- The case of letters does not matter to a section line. -/
theorem ofBytes_section_congr_lower (h : lower (bare raw') = lower (bare raw)) (hraw : IsSection (bare raw)) :
    Line.ofBytes raw' = Line.ofBytes raw := by
  obtain ⟨y, hy⟩ := List.head?_eq_some_iff.mp hraw
  obtain ⟨y', hy'⟩ := List.head?_eq_some_iff.mp ((isSection_congr_lower h).mpr hraw)
  have htail : lower y' = lower y := by
    rw [hy, hy'] at h
    exact List.tail_eq_of_cons_eq h
  have hlast : y'.getLast? = some Byte.closeBracket ↔ y.getLast? = some Byte.closeBracket := by
    rw [← getLast?_lower_iff (by decide) (by decide), htail, getLast?_lower_iff (by decide) (by decide)]
  have hname : canonicalName y'.dropLast = canonicalName y.dropLast := by
    refine canonicalName_congr ?_
    rw [lower, lower, List.map_dropLast, List.map_dropLast]
    exact congrArg List.dropLast htail
  rw [ofBytes_section hy, ofBytes_section hy', hname, if_congr hlast rfl rfl]

/-- Nor does it to a line that is neither a section line nor an assignment. -/
theorem ofBytes_other_congr_lower (h : lower (bare raw') = lower (bare raw)) (hraw : ¬ IsSection (bare raw))
    (hequals : Byte.equals ∉ bare raw) : Line.ofBytes raw' = Line.ofBytes raw := by
  by_cases hnil : bare raw = []
  · refine ofBytes_congr ?_
    rw [hnil] at h ⊢
    exact List.map_eq_nil_iff.mp h
  · have hnil' : bare raw' ≠ [] := by
      intro heq
      rw [heq] at h
      exact hnil (List.map_eq_nil_iff.mp h.symm)
    rw [ofBytes_eq_malformed_iff.mpr ⟨hnil, hraw, hequals⟩, ofBytes_eq_malformed_iff]
    exact ⟨hnil', (isSection_congr_lower h).not.mpr hraw, (equals_mem_congr_lower h).not.mpr hequals⟩

/-! ### Lines laid out anew -/

/-- `LineRelaid raw raw'`: the line `raw'` is `raw` with one thing of its layout changed. -/
inductive LineRelaid : Bytes → Bytes → Prop where
  /-- Blanks at the start. -/
  | blanksBefore {b raw : Bytes} : Blanks b → LineRelaid raw (b ++ raw)
  /-- Blanks at the end. -/
  | blanksAfter {b raw : Bytes} : Blanks b → LineRelaid raw (raw ++ b)
  /-- Blanks around the first equals sign of a line that is not a section line. -/
  | aroundEquals {b b' left right : Bytes} : Blanks b → Blanks b' → Byte.equals ∉ left →
      ¬ IsSection (bare (left ++ Byte.equals :: right)) →
      LineRelaid (left ++ Byte.equals :: right) (left ++ b ++ Byte.equals :: (b' ++ right))
  /-- Blanks after the opening bracket of a section line, the first one. -/
  | afterOpening {b p r : Bytes} : Blanks b → Byte.openBracket ∉ p → IsSection (bare (p ++ Byte.openBracket :: r)) →
      LineRelaid (p ++ Byte.openBracket :: r) (p ++ Byte.openBracket :: (b ++ r))
  /-- Blanks before the closing bracket of a section line, the last one that is not in a comment. -/
  | beforeClosing {b u q : Bytes} : Blanks b → Byte.closeBracket ∉ uncommented q →
      IsSection (bare (u ++ Byte.closeBracket :: q)) →
      LineRelaid (u ++ Byte.closeBracket :: q) (u ++ (b ++ Byte.closeBracket :: q))
  /-- A comment. -/
  | comment {raw text : Bytes} : LineRelaid raw (raw ++ Byte.hash :: text)
  /-- A carriage return. -/
  | carriageReturn {raw : Bytes} : LineRelaid raw (raw ++ [Byte.cr])
  /-- The case of letters of a section line. -/
  | sectionCase {raw raw' : Bytes} : IsSection (bare raw) → lower raw' = lower raw → LineRelaid raw raw'
  /-- The case of letters before the first equals sign of another line. -/
  | nameCase {left left' right : Bytes} : Byte.equals ∉ left → ¬ IsSection (bare (left ++ Byte.equals :: right)) →
      lower left' = lower left → LineRelaid (left ++ Byte.equals :: right) (left' ++ Byte.equals :: right)

/-- Nothing is seen of what stands after a number sign or a carriage return. -/
theorem bare_append_cut {c : UInt8} (hc : c = Byte.hash ∨ c = Byte.cr) (raw text : Bytes) :
    bare (raw ++ c :: text) = bare raw := by
  have hcut : uncommented (c :: text) = [] := List.takeWhile_cons_of_neg (by obtain rfl | rfl := hc <;> decide)
  by_cases hkept : Uncommented raw
  · rw [bare_eq, uncommented_append_of_uncommented hkept, hcut, List.append_nil, bare_eq,
      uncommented_of_uncommented hkept]
  · rw [bare_eq, uncommented_append_of_not hkept, bare_eq]

theorem bare_append_blanks (hb : Blanks b) (raw : Bytes) : bare (raw ++ b) = bare raw := by
  by_cases hkept : Uncommented raw
  · rw [bare_eq, uncommented_append_of_uncommented hkept, uncommented_of_uncommented hb.uncommented,
      trim_append_spaces hb.isSpace, bare_eq, uncommented_of_uncommented hkept]
  · rw [bare_eq, uncommented_append_of_not hkept, bare_eq]

theorem bare_blanks_append (hb : Blanks b) (raw : Bytes) : bare (b ++ raw) = bare raw := by
  rw [bare_eq, uncommented_append_of_uncommented hb.uncommented, trim_spaces_append hb.isSpace, bare_eq]

/-- Whether a line is a section line is known from what stands before its equals sign. -/
theorem head?_trimStart_ne (hkept : Uncommented left) (h : ¬ IsSection (bare (left ++ Byte.equals :: right))) :
    (trimStart left).head? ≠ some Byte.openBracket := by
  intro hhead
  refine h ?_
  rw [bare_append_cons hkept (by decide) (by decide), IsSection, List.head?_append, hhead]
  rfl

theorem head?_trimStart_append_blanks (hb : Blanks b) (left : Bytes) :
    (trimStart (left ++ b)).head? = (trimStart left).head? := by
  rw [trimStart_append]
  split_ifs with hnil
  · have hblank : trimStart b = [] := List.dropWhile_eq_nil_iff.mpr hb.isSpace
    rw [hnil, hblank]
  · exact List.head?_append_of_ne_nil _ hnil

theorem ofBytes_aroundEquals (hb : Blanks b) (hb' : Blanks b') (hleft : Byte.equals ∉ left)
    (h : ¬ IsSection (bare (left ++ Byte.equals :: right))) :
    Line.ofBytes (left ++ b ++ Byte.equals :: (b' ++ right)) = Line.ofBytes (left ++ Byte.equals :: right) := by
  by_cases hkept : Uncommented left
  · have hkept' : Uncommented (left ++ b) := append_uncommented_iff.mpr ⟨hkept, hb.uncommented⟩
    have hleft' : Byte.equals ∉ left ++ b := by
      simp only [List.mem_append, not_or]
      exact ⟨hleft, hb.not_mem (Or.inl (by decide))⟩
    have hhead := head?_trimStart_ne hkept h
    have hhead' : (trimStart (left ++ b)).head? ≠ some Byte.openBracket := by
      rwa [head?_trimStart_append_blanks hb]
    rw [ofBytes_equals hleft hkept hhead, ofBytes_equals hleft' hkept' hhead', canonicalName_append_blanks hb,
      uncommented_append_of_uncommented hb'.uncommented, trim_spaces_append hb'.isSpace]
  · refine ofBytes_congr ?_
    rw [bare_eq, bare_eq, List.append_assoc, uncommented_append_of_not hkept, uncommented_append_of_not hkept]

theorem ofBytes_afterOpening (hb : Blanks b) (hp : Byte.openBracket ∉ p)
    (h : IsSection (bare (p ++ Byte.openBracket :: r))) :
    Line.ofBytes (p ++ Byte.openBracket :: (b ++ r)) = Line.ofBytes (p ++ Byte.openBracket :: r) := by
  rw [ofBytes_section (bare_opening hp h r), ofBytes_section (bare_opening hp h (b ++ r)),
    uncommented_append_of_uncommented hb.uncommented, trimEnd_append]
  by_cases hnil : trimEnd (uncommented r) = []
  · have hblank : trimEnd b = [] := trimEnd_of_spaces hb.isSpace []
    rw [if_pos hnil, hnil, hblank]
  · have hlast : (b ++ trimEnd (uncommented r)).getLast? = (trimEnd (uncommented r)).getLast? :=
      List.getLast?_append_of_ne_nil _ hnil
    rw [if_neg hnil, hlast, List.dropLast_append_of_ne_nil hnil, canonicalName_blanks_append hb]

theorem ofBytes_beforeClosing (hb : Blanks b) (hq : Byte.closeBracket ∉ uncommented q)
    (h : IsSection (bare (u ++ Byte.closeBracket :: q))) :
    Line.ofBytes (u ++ (b ++ Byte.closeBracket :: q)) = Line.ofBytes (u ++ Byte.closeBracket :: q) := by
  by_cases hkept : Uncommented u
  · obtain ⟨v, hv⟩ := bare_closing hkept h
    have hold := hv [] (by simp [Blanks])
    rw [List.nil_append, List.append_nil] at hold
    rw [ofBytes_section (hv b hb), ofBytes_section hold]
    -- The line is closed exactly if nothing but blanks follows this bracket.
    cases hend : trimEnd (uncommented q) with
    | nil => simp [canonicalName_append_blanks hb]
    | cons c z =>
      have hmem : ∀ d ∈ c :: z, d ≠ Byte.closeBracket := by
        rintro d hd rfl
        exact hq ((List.rdropWhile_prefix _ _).subset (hend ▸ hd))
      have hlast : (c :: z).getLast? ≠ some Byte.closeBracket :=
        fun heq => hmem _ (List.mem_of_getLast? heq) rfl
      rw [List.getLast?_append_of_ne_nil _ (by simp), List.getLast?_append_of_ne_nil _ (by simp),
        List.getLast?_cons_cons, if_neg hlast, if_neg hlast]
  · refine ofBytes_congr ?_
    rw [bare_eq, bare_eq, uncommented_append_of_not hkept, uncommented_append_of_not hkept]

theorem ofBytes_nameCase (hleft : Byte.equals ∉ left) (h : ¬ IsSection (bare (left ++ Byte.equals :: right)))
    (hlower : lower left' = lower left) :
    Line.ofBytes (left' ++ Byte.equals :: right) = Line.ofBytes (left ++ Byte.equals :: right) := by
  by_cases hkept : Uncommented left
  · have hkept' : Uncommented left' := by
      rw [Uncommented, ← mem_lower_iff (by decide) (by decide), ← mem_lower_iff (x := Byte.cr) (by decide) (by decide),
        hlower, mem_lower_iff (by decide) (by decide), mem_lower_iff (by decide) (by decide)]
      exact hkept
    have hhead' : (trimStart left').head? ≠ some Byte.openBracket := by
      rw [ne_eq, ← head?_lower_iff (by decide) (by decide), lower_trimStart, hlower, ← lower_trimStart,
        head?_lower_iff (by decide) (by decide)]
      exact head?_trimStart_ne hkept h
    rw [ofBytes_equals hleft hkept (head?_trimStart_ne hkept h),
      ofBytes_equals ((equals_mem_congr_lower hlower).not.mpr hleft) hkept' hhead', canonicalName_congr hlower]
  · -- The equals sign stands in a comment.
    refine ofBytes_other_congr_lower ?_ h (not_mem_bare hkept hleft)
    rw [lower_bare, lower_bare, lower, lower, List.map_append, List.map_append]
    exact congrArg (fun s => bare (s ++ lower (Byte.equals :: right))) hlower

/-- A line that is laid out anew says the same. -/
theorem LineRelaid.ofBytes (h : LineRelaid raw raw') : Line.ofBytes raw' = Line.ofBytes raw := by
  cases h with
  | blanksBefore hb => exact ofBytes_congr (bare_blanks_append hb raw)
  | blanksAfter hb => exact ofBytes_congr (bare_append_blanks hb raw)
  | aroundEquals hb hb' hleft hline => exact ofBytes_aroundEquals hb hb' hleft hline
  | afterOpening hb hp hline => exact ofBytes_afterOpening hb hp hline
  | beforeClosing hb hq hline => exact ofBytes_beforeClosing hb hq hline
  | comment => exact ofBytes_congr (bare_append_cut (Or.inl rfl) raw _)
  | carriageReturn => exact ofBytes_congr (bare_append_cut (Or.inr rfl) raw [])
  | sectionCase hline hlower =>
    refine ofBytes_section_congr_lower ?_ hline
    rw [lower_bare, hlower, lower_bare]
  | nameCase hleft hline hlower => exact ofBytes_nameCase hleft hline hlower

/-! ### Texts laid out anew -/

/-- The layout of the line is changed any number of times, back and forth. -/
def LineRelaidMany (raw raw' : Bytes) : Prop := Relation.EqvGen LineRelaid raw raw'

theorem LineRelaidMany.ofBytes (h : LineRelaidMany raw raw') : Line.ofBytes raw' = Line.ofBytes raw := by
  induction h with
  | rel raw raw' h => exact h.ofBytes
  | refl raw => rfl
  | symm raw raw' _ ih => exact ih.symm
  | trans raw raw' raw'' _ _ ih ih' => exact ih'.trans ih

/-- `TextRelaid content content'`: the text `content'` is `content` with the layout of its lines changed. -/
inductive TextRelaid : Bytes → Bytes → Prop where
  /-- What stands after the last line end, which may be nothing. -/
  | last {raw raw' : Bytes} : Byte.lf ∉ raw → Byte.lf ∉ raw' → LineRelaidMany raw raw' → TextRelaid raw raw'
  /-- A line with its line end. -/
  | line {raw raw' rest rest' : Bytes} : Byte.lf ∉ raw → Byte.lf ∉ raw' → LineRelaidMany raw raw' →
      TextRelaid rest rest' → TextRelaid (raw ++ Byte.lf :: rest) (raw' ++ Byte.lf :: rest')

section

variable {σ : Type} {listener : Listener σ} {content content' : Bytes}

/-- What stands after the last line end is presented as a line, also if it is nothing. -/
theorem presentAll_last (hraw : Byte.lf ∉ raw) (n : Nat) (p : Progress) (s : σ) :
    presentAll listener n p s (statements raw) = present listener n p s (Line.ofBytes raw) := by
  by_cases hnil : raw = []
  · rw [hnil]
    rfl
  · rw [statements, lines_of_not_mem hraw hnil]
    rfl

theorem presentAll_relaid (h : TextRelaid content content') : ∀ (n : Nat) (p : Progress) (s : σ),
    presentAll listener n p s (statements content') = presentAll listener n p s (statements content) := by
  induction h with
  | last hraw hraw' hline =>
    intro n p s
    rw [presentAll_last hraw, presentAll_last hraw', hline.ofBytes]
  | line hraw hraw' hline _ ih =>
    intro n p s
    rw [statements, lines_append_lf hraw', statements, lines_append_lf hraw, List.map_cons, List.map_cons,
      presentAll_cons, presentAll_cons, hline.ofBytes]
    exact ih _ _ _

theorem follow_relaid (listener : Listener σ) (h : TextRelaid content content') (s : σ) :
    follow listener content' s = follow listener content s := by
  rw [follow_eq, follow_eq, presentAll_relaid h]

/-- **Layout does not show.** A text whose lines are laid out anew makes the same calls to every listener, with the same
lines, names, values and complaints, and comes to the same end. -/
theorem layout_unseen (listener : Listener σ) (h : TextRelaid content content') (s : σ) :
    calls listener content' s = calls listener content s ∧ follow listener content' s = follow listener content s := by
  refine ⟨?_, follow_relaid listener h s⟩
  rw [calls, calls, follow_relaid listener.recorded h]

/-- A listener that takes an interest in everything and can use nothing. -/
def objecting : Listener Unit where
  heading _ _ _ := (true, ())
  assignment _ _ _ _ := (false, ())
  report _ _ _ := ()

/-- A heading and an assignment in which all is changed, and a blank line that is added at the end. -/
theorem layout_unseen_objecting :
    TextRelaid (ascii "[Sec]\nKey=Val\n") (ascii " [ sEC\t]\r\nkEY =\tVal#=\n\x0c") ∧
      calls objecting (ascii " [ sEC\t]\r\nkEY =\tVal#=\n\x0c") () =
        [.heading 1 (ascii "sec") true, .assignment 2 (ascii "key") (ascii "Val") false,
          .report 2 (ascii "In section [sec]: Couldn't handle 'key = Val'")] := by
  have hheading : LineRelaidMany (ascii "[Sec]") (ascii " [ sEC\t]\r") :=
    .trans _ (ascii "[ Sec]") _ (.rel _ _ (.afterOpening (b := ascii " ") (p := []) (r := ascii "Sec]")
      (by decide) (by decide) rfl)) <|
    .trans _ (ascii "[ Sec\t]") _ (.rel _ _ (.beforeClosing (b := ascii "\t") (u := ascii "[ Sec") (q := [])
      (by decide) (by decide) rfl)) <|
    .trans _ (ascii "[ sEC\t]") _ (.rel _ _ (.sectionCase rfl (by decide))) <|
    .trans _ (ascii "[ sEC\t]\r") _ (.rel _ _ .carriageReturn) (.rel _ _ (.blanksBefore (b := ascii " ") (by decide)))
  have hassignment : LineRelaidMany (ascii "Key=Val") (ascii "kEY =\tVal#=") :=
    .trans _ (ascii "Key =\tVal") _ (.rel _ _ (@LineRelaid.aroundEquals (ascii " ") (ascii "\t") (ascii "Key")
      (ascii "Val") (by decide) (by decide) (by decide) (by unfold IsSection; decide))) <|
    .trans _ (ascii "kEY =\tVal") _ (.rel _ _ (@LineRelaid.nameCase (ascii "Key ") (ascii "kEY ") (ascii "\tVal")
      (by decide) (by unfold IsSection; decide) (by decide))) <|
    .rel _ _ .comment
  have hlast : LineRelaidMany [] (ascii "\x0c") := .rel _ _ (@LineRelaid.blanksAfter (ascii "\x0c") [] (by decide))
  have h : TextRelaid (ascii "[Sec]\nKey=Val\n") (ascii " [ sEC\t]\r\nkEY =\tVal#=\n\x0c") :=
    @TextRelaid.line (ascii "[Sec]") _ _ _ (by decide) (by decide) hheading <|
    .line (by decide) (by decide) hassignment (.last (by decide) (by decide) hlast)
  exact ⟨h, (layout_unseen objecting h ()).1.trans (by decide)⟩

end

end Config

end PartProgram
