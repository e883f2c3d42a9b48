import PartProgram.Proofs.LiteralGrammar
import PartProgram.Proofs.Trimming
import PartProgram.Text.Integer

/-!
# The texts that are integers

An integer is written with at most one sign and then digits, and whitespace may stand around it (`IsInteger`). The texts
that are read as 32-bit integers are these, as far as the integer fits, and those with two signs, a plus and then a
minus: the plus is passed over before the minus is looked for, and what follows it is read as if it stood alone.

Whitespace is taken off first, and nothing that an integer is written with is whitespace, so what counts is the trimmed
text (`spelled_iff`). The rest is a matter of its first one or two bytes (`numeralAfter_dropPlus_iff`,
`minusInteger?_eq_some_iff`).
-/

namespace PartProgram.Text

open Number

variable {s t u lead : Bytes} {i : Int} {n : Nat}

/-! ### Integers in a text -/

/-- The text is the bytes `lead` and then digits, at least one, that write the number. -/
def NumeralAfter (lead t : Bytes) (n : Nat) : Prop :=
  ∃ ds, t = lead ++ ds ∧ ds ≠ [] ∧ IsDigits ds ∧ ofDigits ds = n

/-- The same with whitespace around. -/
def Spelled (lead s : Bytes) (n : Nat) : Prop :=
  ∃ before t after, s = before ++ (t ++ after) ∧ NumeralAfter lead t n ∧ (∀ c ∈ before, Byte.isSpace c) ∧
    ∀ c ∈ after, Byte.isSpace c

/-- The text is the integer: at most one sign and then digits, with whitespace around. -/
inductive IsInteger (s : Bytes) : Int → Prop where
  /-- Without a sign. -/
  | unsigned {n : Nat} : Spelled [] s n → IsInteger s n
  /-- With a plus sign. -/
  | plus {n : Nat} : Spelled [Byte.plus] s n → IsInteger s n
  /-- With a minus sign. -/
  | minus {n : Nat} : Spelled [Byte.minus] s n → IsInteger s (-n)

theorem not_isSpace_of_isDigit {c : UInt8} (h : Byte.isDigit c) : Byte.isSpace c = false := by
  grind [Byte.isDigit, Byte.isSpace]

theorem NumeralAfter.trim (h : NumeralAfter lead t n) (hlead : lead.any Byte.isSpace = false) : trim t = t := by
  obtain ⟨ds, rfl, -, hds, -⟩ := h
  have hsolid : ∀ c ∈ lead ++ ds, Byte.isSpace c = false := by
    intro c hc
    rcases List.mem_append.mp hc with hc | hc
    · exact Bool.eq_false_of_not_eq_true (List.any_eq_false.mp hlead c hc)
    · exact not_isSpace_of_isDigit (hds c hc)
  exact trim_eq_self (fun c hc => hsolid c (List.mem_of_mem_head? hc)) fun c hc => hsolid c (List.mem_of_getLast? hc)

/-- What counts is the trimmed text. -/
theorem spelled_iff (lead : Bytes) (hlead : lead.any Byte.isSpace = false) :
    Spelled lead s n ↔ NumeralAfter lead (trim s) n := by
  constructor
  · rintro ⟨before, t, after, rfl, h, hbefore, hafter⟩
    rwa [trim_spaces_append hbefore, trim_append_spaces hafter, h.trim hlead]
  · intro h
    obtain ⟨before, after, hs, hbefore, hafter⟩ := exists_eq_trim s
    exact ⟨before, Text.trim s, after, hs, h, hbefore, hafter⟩

/-! ### Reading an integer -/

theorem dropPlus_eq_iff (hu : u.head? ≠ some Byte.plus) : dropPlus t = u ↔ t = u ∨ t = Byte.plus :: u := by
  cases t with
  | nil => simp [dropPlus]
  | cons c t =>
    rw [dropPlus]
    split_ifs with hc
    · subst hc
      constructor
      · rintro rfl
        exact Or.inr rfl
      · rintro (rfl | h)
        · exact absurd rfl hu
        · exact (List.cons.inj h).2
    · constructor
      · exact Or.inl
      · rintro (h | h)
        · exact h
        · exact absurd (List.cons.inj h).1 hc

/-- A plus sign in front is passed over. -/
theorem numeralAfter_dropPlus_iff (lead : Bytes) (hlead : Byte.plus ∉ lead) :
    NumeralAfter lead (dropPlus t) n ↔ NumeralAfter lead t n ∨ NumeralAfter (Byte.plus :: lead) t n := by
  -- Neither the bytes before the digits nor the digits have a plus sign in front.
  have hhead : ∀ ds, IsDigits ds → (lead ++ ds).head? ≠ some Byte.plus := by
    intro ds hds h
    rcases List.mem_append.mp (List.mem_of_mem_head? h) with hmem | hmem
    · exact hlead hmem
    · exact absurd (hds _ hmem) (by decide)
  constructor
  · rintro ⟨ds, ht, hne, hds, hn⟩
    rcases (dropPlus_eq_iff (hhead ds hds)).mp ht with rfl | rfl
    · exact Or.inl ⟨ds, rfl, hne, hds, hn⟩
    · exact Or.inr ⟨ds, rfl, hne, hds, hn⟩
  · rintro (⟨ds, ht, hne, hds, hn⟩ | ⟨ds, ht, hne, hds, hn⟩)
    · exact ⟨ds, (dropPlus_eq_iff (hhead ds hds)).mpr (Or.inl ht), hne, hds, hn⟩
    · exact ⟨ds, (dropPlus_eq_iff (hhead ds hds)).mpr (Or.inr ht), hne, hds, hn⟩

/-- After the sign, the whole text is taken if it is digits. -/
theorem minusInteger?_of_takeMinus {negative : Bool} {body : Bytes} (h : takeMinus t = (negative, body)) :
    minusInteger? t = some (i, []) ↔
      FitsInt32 i ∧ body ≠ [] ∧ IsDigits body ∧ i = if negative then -(ofDigits body : Int) else ofDigits body := by
  rw [minusInteger?, h]
  by_cases hds : IsDigits body
  · have htake : body.takeWhile Byte.isDigit = body := List.takeWhile_eq_self_iff.mpr hds
    have hdrop : body.dropWhile Byte.isDigit = [] := List.dropWhile_eq_nil_iff.mpr hds
    simp only [htake, hdrop, Option.ite_none_right_eq_some, Option.some.injEq, Prod.mk.injEq, and_true]
    constructor
    · rintro ⟨⟨hne, hfits⟩, rfl⟩
      exact ⟨hfits, hne, hds, rfl⟩
    · rintro ⟨hfits, hne, -, rfl⟩
      exact ⟨⟨hne, hfits⟩, rfl⟩
  · have hdrop : body.dropWhile Byte.isDigit ≠ [] := fun hnil => hds (List.dropWhile_eq_nil_iff.mp hnil)
    simp [hdrop, hds]

/-- The whole text is taken if it is digits, or a minus sign and digits. -/
theorem minusInteger?_eq_some_iff : minusInteger? t = some (i, []) ↔
    FitsInt32 i ∧ ∃ n : Nat, NumeralAfter [] t n ∧ i = n ∨ NumeralAfter [Byte.minus] t n ∧ i = -n := by
  by_cases ht : ∃ body, t = Byte.minus :: body
  · obtain ⟨body, rfl⟩ := ht
    have htake : takeMinus (Byte.minus :: body) = (true, body) := rfl
    rw [minusInteger?_of_takeMinus htake]
    refine and_congr_right fun _ => ⟨?_, ?_⟩
    · rintro ⟨hne, hds, hi⟩
      exact ⟨_, Or.inr ⟨⟨body, rfl, hne, hds, rfl⟩, hi⟩⟩
    · rintro ⟨n, ⟨⟨ds, rfl, -, hds, -⟩, -⟩ | ⟨⟨ds, heq, hne, hds, hn⟩, hi⟩⟩
      · exact absurd (hds _ List.mem_cons_self) (by decide)
      · obtain rfl := (List.cons.inj heq).2
        exact ⟨hne, hds, hn ▸ hi⟩
  · have htake : takeMinus t = (false, t) := by
      cases t with
      | nil => rfl
      | cons c t => exact if_neg fun hc => ht ⟨t, by rw [hc]⟩
    rw [minusInteger?_of_takeMinus htake]
    refine and_congr_right fun _ => ⟨?_, ?_⟩
    · rintro ⟨hne, hds, hi⟩
      exact ⟨_, Or.inl ⟨⟨t, rfl, hne, hds, rfl⟩, hi⟩⟩
    · rintro ⟨n, ⟨⟨ds, rfl, hne, hds, hn⟩, hi⟩ | ⟨⟨ds, heq, -⟩, -⟩⟩
      · exact ⟨hne, hds, hn ▸ hi⟩
      · exact absurd ⟨ds, heq⟩ ht

theorem int32?_eq_some_iff : int32? s = some i ↔ minusInteger? (dropPlus (trim s)) = some (i, []) := by
  rw [int32?, leadingInt32?, trimStart_trim]
  split
  · next value h => simp [h]
  · next h => exact ⟨fun h' => absurd h' (by simp), fun h' => absurd h' (h i)⟩

/-- The signs before the digits of a text that is read as an integer. -/
theorem int32?_eq_some_iff_spelled : int32? s = some i ↔ FitsInt32 i ∧ ∃ n : Nat,
    (Spelled [] s n ∨ Spelled [Byte.plus] s n) ∧ i = n ∨
      (Spelled [Byte.minus] s n ∨ Spelled [Byte.plus, Byte.minus] s n) ∧ i = -n := by
  rw [int32?_eq_some_iff, minusInteger?_eq_some_iff]
  simp only [numeralAfter_dropPlus_iff [] (by decide), numeralAfter_dropPlus_iff [Byte.minus] (by decide),
    ← spelled_iff [] rfl, ← spelled_iff [Byte.plus] rfl, ← spelled_iff [Byte.minus] rfl,
    ← spelled_iff [Byte.plus, Byte.minus] rfl]

/-- A positive integer has no minus sign, with a plus sign before it or without. -/
theorem int32?_eq_some_iff_of_pos (hi : 0 < i) : int32? s = some i ↔ FitsInt32 i ∧ IsInteger s i := by
  rw [int32?_eq_some_iff_spelled]
  refine and_congr_right fun _ => ⟨?_, ?_⟩
  · rintro ⟨n, ⟨h | h, rfl⟩ | ⟨-, rfl⟩⟩
    · exact .unsigned h
    · exact .plus h
    · omega
  · rintro (h | h | h)
    · exact ⟨_, Or.inl ⟨Or.inl h, rfl⟩⟩
    · exact ⟨_, Or.inl ⟨Or.inr h, rfl⟩⟩
    · omega

/-- Two signs do not make an integer. -/
theorem not_isInteger_of_two_signs (h : Spelled [Byte.plus, Byte.minus] s n) (i : Int) : ¬ IsInteger s i := by
  have hminus : ∀ ds, IsDigits ds → Byte.minus ∉ ds := fun ds hds hmem => absurd (hds _ hmem) (by decide)
  obtain ⟨es, hes, -⟩ := (spelled_iff _ rfl).mp h
  rintro (h | h | h)
  · obtain ⟨ds, hds, -, hdigits, -⟩ := (spelled_iff _ rfl).mp h
    have hall : Byte.plus :: Byte.minus :: es = ds := hes.symm.trans hds
    exact hminus ds hdigits (hall ▸ List.mem_cons_of_mem _ List.mem_cons_self)
  · obtain ⟨ds, hds, -, hdigits, -⟩ := (spelled_iff _ rfl).mp h
    have hrest : Byte.minus :: es = ds := (List.cons.inj (hes.symm.trans hds)).2
    exact hminus ds hdigits (hrest ▸ List.mem_cons_self)
  · obtain ⟨ds, hds, -⟩ := (spelled_iff _ rfl).mp h
    exact absurd (List.cons.inj (hes.symm.trans hds)).1 (by decide)

/-- **The texts that are read as integers.** A text is read as an integer exactly if the integer fits in 32 bits and the
text is the integer with at most one sign or, beyond that, the text has a plus sign and then a minus sign before its
digits. -/
theorem int32_spellings (s : Bytes) (i : Int) : int32? s = some i ↔
    FitsInt32 i ∧ (IsInteger s i ∨ ∃ n : Nat, Spelled [Byte.plus, Byte.minus] s n ∧ i = -n) := by
  rw [int32?_eq_some_iff_spelled]
  refine and_congr_right fun _ => ⟨?_, ?_⟩
  · rintro ⟨n, ⟨h | h, rfl⟩ | ⟨h | h, rfl⟩⟩
    · exact Or.inl (.unsigned h)
    · exact Or.inl (.plus h)
    · exact Or.inl (.minus h)
    · exact Or.inr ⟨n, h, rfl⟩
  · rintro ((h | h | h) | ⟨n, h, rfl⟩)
    · exact ⟨_, Or.inl ⟨Or.inl h, rfl⟩⟩
    · exact ⟨_, Or.inl ⟨Or.inr h, rfl⟩⟩
    · exact ⟨_, Or.inr ⟨Or.inl h, rfl⟩⟩
    · exact ⟨n, Or.inr ⟨Or.inr h, rfl⟩⟩

/-- A text with two signs is read, though it is no integer. -/
theorem int32_two_signs : int32? (ascii "+-5") = some (-5) ∧ ∀ i, ¬ IsInteger (ascii "+-5") i := by
  have hspelled : Spelled [Byte.plus, Byte.minus] (ascii "+-5") 5 :=
    (spelled_iff _ rfl).mpr ⟨ascii "5", by decide, by decide, isDigits_singleton.mpr (by decide), by decide⟩
  exact ⟨by decide, not_isInteger_of_two_signs hspelled⟩

end PartProgram.Text
