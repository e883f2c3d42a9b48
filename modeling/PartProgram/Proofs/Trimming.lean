import PartProgram.Text.Byte
import Mathlib.Data.List.DropRight
import Mathlib.Tactic.SplitIfs

/-!
# Trimming

What is left of a text without the whitespace at its ends. A byte that is not whitespace divides a text for
trimming: what stands before it is trimmed only at the start, and what stands after it only at the end
(`trim_append_cons`). So whitespace that is put at an end does not matter (`trim_spaces_append`,
`trim_append_spaces`), and a text is its trimmed form between two stretches of whitespace (`exists_eq_trim`).

That is all there is to say: of the texts that have whitespace put around them to make `s`, the trimmed form is the one
without any at its own ends (`trimmed_iff`).
-/

namespace PartProgram.Text

variable {s t b : Bytes} {c : UInt8}

theorem trimStart_of_spaces (h : ∀ c ∈ b, Byte.isSpace c) (s : Bytes) : trimStart (b ++ s) = trimStart s :=
  List.dropWhile_append_of_pos h

theorem trimEnd_of_spaces (h : ∀ c ∈ b, Byte.isSpace c) (s : Bytes) : trimEnd (s ++ b) = trimEnd s := by
  rw [trimEnd, List.reverse_append, List.dropWhile_append_of_pos fun c hc => h c (List.mem_reverse.mp hc), trimEnd]

theorem trimStart_append (s t : Bytes) :
    trimStart (s ++ t) = if trimStart s = [] then trimStart t else trimStart s ++ t := by
  simp only [trimStart, List.dropWhile_append, List.isEmpty_iff]
  rfl

theorem trimEnd_append (s t : Bytes) : trimEnd (s ++ t) = if trimEnd t = [] then trimEnd s else s ++ trimEnd t := by
  simp only [trimEnd, List.reverse_append, List.dropWhile_append, List.isEmpty_iff, List.reverse_eq_nil_iff]
  split_ifs <;> simp

theorem trimStart_append_cons (hc : Byte.isSpace c = false) (s t : Bytes) :
    trimStart (s ++ c :: t) = trimStart s ++ c :: t := by
  have hstop : trimStart (c :: t) = c :: t := List.dropWhile_cons_of_neg (by simp [hc])
  rw [trimStart_append, hstop]
  split_ifs with h
  · rw [h, List.nil_append]
  · rfl

theorem trimEnd_append_cons (hc : Byte.isSpace c = false) (s t : Bytes) :
    trimEnd (s ++ c :: t) = s ++ c :: trimEnd t := by
  have hstop : trimEnd [c] = [c] := by simp [trimEnd, hc]
  rw [List.append_cons, trimEnd_append]
  split_ifs with h
  · rw [trimEnd_append, hstop, h]
    simp
  · simp

/-- A byte that is not a blank divides what is trimmed. -/
theorem trim_append_cons (hc : Byte.isSpace c = false) (s t : Bytes) :
    trim (s ++ c :: t) = trimStart s ++ c :: trimEnd t := by
  rw [trim, trimStart_append_cons hc, trimEnd_append_cons hc]

/-- A text is all blanks, or there is a first byte that is not. -/
theorem spaces_or_split (s : Bytes) :
    (∀ c ∈ s, Byte.isSpace c) ∨ ∃ b c t, s = b ++ c :: t ∧ (∀ c ∈ b, Byte.isSpace c) ∧ Byte.isSpace c = false := by
  induction s with
  | nil => exact Or.inl (by simp)
  | cons c s ih =>
    by_cases hc : Byte.isSpace c
    · refine ih.imp (fun h => by simpa [hc] using h) ?_
      rintro ⟨b, d, t, rfl, hb, hd⟩
      exact ⟨c :: b, d, t, rfl, by simpa [hc] using hb, hd⟩
    · exact Or.inr ⟨[], c, s, rfl, by simp, by simpa using hc⟩

/-- The two ends can be trimmed in either order. -/
theorem trimStart_trimEnd (s : Bytes) : trimStart (trimEnd s) = trim s := by
  obtain h | ⟨b, c, t, rfl, hb, hc⟩ := spaces_or_split s
  · have hstart : trimStart s = [] := List.dropWhile_eq_nil_iff.mpr h
    have hend : trimEnd s = [] := trimEnd_of_spaces h []
    rw [trim, hstart, hend]
    rfl
  · rw [trim_append_cons hc, trimEnd_append_cons hc, trimStart_append_cons hc]

theorem trim_spaces_append (h : ∀ c ∈ b, Byte.isSpace c) (s : Bytes) : trim (b ++ s) = trim s := by
  rw [trim, trimStart_of_spaces h, trim]

theorem trim_append_spaces (h : ∀ c ∈ b, Byte.isSpace c) (s : Bytes) : trim (s ++ b) = trim s := by
  rw [← trimStart_trimEnd, trimEnd_of_spaces h, trimStart_trimEnd]

theorem trim_trimStart (s : Bytes) : trim (trimStart s) = trim s := by
  rw [trim, trimStart, trimStart, List.dropWhile_idempotent, trim, trimStart]

theorem trim_trimEnd (s : Bytes) : trim (trimEnd s) = trim s := by
  have htwice : trimEnd (trimEnd s) = trimEnd s := by
    rw [trimEnd, trimEnd, List.reverse_reverse, List.dropWhile_idempotent]
  rw [← trimStart_trimEnd, htwice, trimStart_trimEnd]

theorem trimStart_trim (s : Bytes) : trimStart (trim s) = trim s := by
  rw [trim, trimStart_trimEnd, trim_trimStart, trim]

/-- There is nothing to trim where there is no whitespace at the ends. -/
theorem trim_eq_self (hfirst : ∀ c, s.head? = some c → Byte.isSpace c = false)
    (hlast : ∀ c, s.getLast? = some c → Byte.isSpace c = false) : trim s = s := by
  have hstart : trimStart s = s := by
    cases s with
    | nil => rfl
    | cons c s => exact List.dropWhile_cons_of_neg (by simp [hfirst c rfl])
  have hend : trimEnd s = s :=
    List.rdropWhile_eq_self_iff.mpr fun hne => by simp [hlast _ (List.getLast?_eq_some_getLast hne)]
  rw [trim, hstart, hend]

/-- A text is its trimmed form with whitespace around it. -/
theorem exists_eq_trim (s : Bytes) :
    ∃ b b', s = b ++ (trim s ++ b') ∧ (∀ c ∈ b, Byte.isSpace c) ∧ ∀ c ∈ b', Byte.isSpace c := by
  refine ⟨s.takeWhile Byte.isSpace, (trimStart s).rtakeWhile Byte.isSpace, ?_, ?_, ?_⟩
  · have hend : trim s ++ (trimStart s).rtakeWhile Byte.isSpace = trimStart s :=
      List.rdropWhile_append_rtakeWhile
    rw [hend, trimStart, List.takeWhile_append_dropWhile]
  · exact fun c hc => List.mem_takeWhile_imp hc
  · exact fun c hc => List.mem_rtakeWhile_imp hc

theorem head?_trim (h : (trim s).head? = some c) : Byte.isSpace c = false := by
  have hstop := List.head?_dropWhile_not Byte.isSpace (trimEnd s)
  rw [← trimStart, trimStart_trimEnd, h] at hstop
  exact hstop

theorem getLast?_trim (h : (trim s).getLast? = some c) : Byte.isSpace c = false := by
  have hstop := List.head?_dropWhile_not Byte.isSpace (trimStart s).reverse
  rw [trim, trimEnd, List.getLast?_reverse] at h
  rw [h] at hstop
  exact hstop

/-- Space, the two tabulators, the line end, the form feed and the carriage return. -/
def IsBlank (c : UInt8) : Prop :=
  c = Byte.space ∨ c = Byte.tab ∨ c = Byte.lf ∨ c = 0x0b ∨ c = 0x0c ∨ c = Byte.cr

theorem isBlank_iff : IsBlank c ↔ Byte.isSpace c := by
  grind [IsBlank, Byte.isSpace]

/-- `Trimmed s t`: the text `t` is `s` without the whitespace at its ends. -/
structure Trimmed (s t : Bytes) : Prop where
  around : ∃ b b', s = b ++ (t ++ b') ∧ (∀ c ∈ b, IsBlank c) ∧ ∀ c ∈ b', IsBlank c
  first : ∀ c, t.head? = some c → ¬ IsBlank c
  last : ∀ c, t.getLast? = some c → ¬ IsBlank c

theorem trimmed_iff : Trimmed s t ↔ trim s = t := by
  constructor
  · rintro ⟨⟨b, b', rfl, hb, hb'⟩, hfirst, hlast⟩
    simp only [isBlank_iff, Bool.not_eq_true] at hb hb' hfirst hlast
    rw [trim_spaces_append hb, trim_append_spaces hb', trim_eq_self hfirst hlast]
  · rintro rfl
    constructor <;> simp only [isBlank_iff, Bool.not_eq_true]
    · exact exists_eq_trim s
    · exact fun c => head?_trim
    · exact fun c => getLast?_trim

end PartProgram.Text
