import PartProgram.Number.Significand
import Mathlib.Algebra.Order.Ring.Int
import Mathlib.Tactic.Linarith
import Mathlib.Tactic.Ring

/-!
# Scaling is exact

Significands are moved by powers of ten with checks on every intermediate result, and the two
ways of scaling check different ones. This module shows that no check is early or late:
`mulPow10?` gives the product whenever the product is in range, and nothing otherwise.

Two facts carry this. A value that has left the range does not come back when it is multiplied by
ten again (`InRange.not_mul_pow`). And no power of ten is the limit of a width, so a power that is
out of range is out of range with either sign (`Width.not_inRange_neg_pow`).

Digits are then appended to a magnitude with a sign (`Sign.signed`), where the last addition or
subtraction cannot undo an overflow either (`appendDigit?_signed`). That needs the digit to have the sign
of the value: with the other sign it could bring a product back that has just left the range.
-/

namespace PartProgram.Number

/-! ### The range of a width -/

namespace Width

variable {w : Width} {x y : Int}

theorem limit_pos (w : Width) : 0 < w.limit := by
  cases w <;> decide

theorem one_inRange (w : Width) : w.InRange 1 := by
  cases w <;> decide

theorem zero_inRange (w : Width) : w.InRange 0 := by
  cases w <;> decide

theorem fit?_of_inRange (h : w.InRange x) : w.fit? x = some x := if_pos h

theorem fit?_of_not_inRange (h : ¬ w.InRange x) : w.fit? x = none := if_neg h

/-- An integer between zero and one that is in range is in range. -/
theorem InRange.of_between (h : w.InRange y) (hx : (0 ≤ x ∧ x ≤ y) ∨ (y ≤ x ∧ x ≤ 0)) : w.InRange x := by
  have hl := w.limit_pos
  obtain ⟨h1, h2⟩ := h
  constructor <;> omega

/-- A product with a power of ten lies on the same side of zero, and not nearer to it. -/
theorem between_mul_pow (x : Int) (k : Nat) :
    (0 ≤ x ∧ x ≤ x * 10 ^ k) ∨ (x * 10 ^ k ≤ x ∧ x ≤ 0) := by
  have hp : (1 : Int) ≤ 10 ^ k := one_le_pow₀ (by norm_num)
  rcases le_total 0 x with h | h
  · exact Or.inl ⟨h, le_mul_of_one_le_right h hp⟩
  · refine Or.inr ⟨?_, h⟩
    nlinarith

/-- What has left the range stays out of it. -/
theorem InRange.not_mul_pow (h : ¬ w.InRange x) (k : Nat) : ¬ w.InRange (x * 10 ^ k) :=
  fun hk => h (hk.of_between (between_mul_pow x k))

/-- No power of ten is the limit of a width. -/
theorem pow_ne_limit (w : Width) (k : Nat) : (10 : Int) ^ k ≠ w.limit := by
  cases k with
  | zero => cases w <;> decide
  | succ k =>
    rw [pow_succ]
    cases w <;> simp only [limit] <;> omega

/-- A power of ten that is out of range is so with either sign. -/
theorem not_inRange_neg_pow {k : Nat} (h : ¬ w.InRange (10 ^ k)) : ¬ w.InRange (-10 ^ k) := by
  have hp : (0 : Int) < 10 ^ k := by positivity
  have hl := w.limit_pos
  have hne := pow_ne_limit w k
  intro hn
  exact h ⟨by omega, by have := hn.1; omega⟩

/-- A multiple of a power of ten that is out of range is out of range, unless it is zero. -/
theorem not_inRange_mul_of_pow {k : Nat} (hx : x ≠ 0) (h : ¬ w.InRange (10 ^ k)) :
    ¬ w.InRange (x * 10 ^ k) := by
  have hp : (0 : Int) < 10 ^ k := by positivity
  intro hm
  rcases lt_or_gt_of_ne hx with hneg | hpos
  · refine not_inRange_neg_pow h (hm.of_between (Or.inr ⟨?_, by omega⟩))
    nlinarith
  · refine h (hm.of_between (Or.inl ⟨hp.le, ?_⟩))
    nlinarith

/-! ### The two ways of scaling -/

/-- The additions that make ten times a value overflow only if ten times the value does. -/
theorem tenfold?_eq (w : Width) (x : Int) : w.tenfold? x = w.fit? (x * 10) := by
  have h10 : x + x + (x + x) + (x + x + (x + x)) + (x + x) = x * 10 := by ring
  by_cases h : w.InRange (x * 10)
  · have h2 : w.InRange (x + x) := h.of_between (by omega)
    have h4 : w.InRange (x + x + (x + x)) := h.of_between (by omega)
    have h8 : w.InRange (x + x + (x + x) + (x + x + (x + x))) := h.of_between (by omega)
    simp [tenfold?, fit?_of_inRange, h2, h4, h8, h10, h]
  · rw [fit?_of_not_inRange h, Option.eq_none_iff_forall_ne_some]
    intro t ht
    simp only [tenfold?, Option.bind_eq_bind, Option.bind_eq_some_iff, fit?_eq_some_iff] at ht
    obtain ⟨_, ⟨-, rfl⟩, _, ⟨-, rfl⟩, _, ⟨-, rfl⟩, ht, -⟩ := ht
    exact h (h10 ▸ ht)

/-- Multiplying by ten again and again gives the product with the power, if that is in range. -/
theorem iterate?_tenfold (w : Width) (k : Nat) :
    ∀ x, w.InRange x → iterate? (fun p => w.fit? (p * 10)) k x = w.fit? (x * 10 ^ k) := by
  induction k with
  | zero => intro x hx; simp [iterate?, fit?_of_inRange hx]
  | succ k ih =>
    intro x _
    have hk : x * 10 ^ (k + 1) = x * 10 * 10 ^ k := by ring
    rw [iterate?, hk]
    by_cases h : w.InRange (x * 10)
    · simp only [fit?_of_inRange h]
      exact ih _ h
    · simp only [fit?_of_not_inRange h]
      rw [fit?_of_not_inRange (InRange.not_mul_pow h k)]

end Width

/-! ### Scaling and appending -/

namespace Arithmetic

open Width

/-- **Scaling is exact**: either way of scaling gives the product if that is in range, whether or
not the power of ten is. -/
theorem mulPow10?_eq (a : Arithmetic) {x : Int} (hx : a.width.InRange x) (k : Nat) :
    a.mulPow10? x k = a.width.fit? (x * 10 ^ k) := by
  by_cases h0 : x = 0
  · subst h0
    simp [mulPow10?, fit?_of_inRange a.width.zero_inRange]
  · rw [mulPow10?, if_neg h0]
    cases a.scaling with
    | multiply =>
      simp only [iterate?_tenfold a.width k 1 a.width.one_inRange, one_mul]
      by_cases hp : a.width.InRange (10 ^ k)
      · simp only [fit?_of_inRange hp]
      · simp only [fit?_of_not_inRange hp]
        rw [fit?_of_not_inRange (not_inRange_mul_of_pow h0 hp)]
    | shiftAdd =>
      simp only [funext (tenfold?_eq a.width)]
      exact iterate?_tenfold a.width k x hx

end Arithmetic

/-- The integer of a sign and a magnitude. -/
def Sign.signed : Sign → Nat → Int
  | .positive, n => n
  | .negative, n => -n

namespace Sign

@[simp] theorem signed_zero (s : Sign) : s.signed 0 = 0 := by cases s <;> rfl

theorem signed_eq_zero_iff {s : Sign} {n : Nat} : s.signed n = 0 ↔ n = 0 := by
  cases s <;> simp [signed]

theorem signed_mul_pow (s : Sign) (n k : Nat) : s.signed n * 10 ^ k = s.signed (n * 10 ^ k) := by
  cases s <;> simp [signed]

/-- A magnitude that fits leaves room for every smaller one. -/
theorem inRange_signed_of_le {w : Width} {s : Sign} {m n : Nat} (h : w.InRange (s.signed n)) (hmn : m ≤ n) :
    w.InRange (s.signed m) := by
  refine h.of_between ?_
  cases s <;> simp only [signed] <;> omega

end Sign

/-- **Appending a digit is exact**: the magnitude moves left, takes the digit, and the result is
what the significand holds if that is in range. -/
theorem Arithmetic.appendDigit?_signed (a : Arithmetic) {s : Sign} {n : Nat} (h : a.width.InRange (s.signed n))
    (k : Nat) {c : UInt8} (hc : Byte.isDigit c) :
    a.appendDigit? (s.signed n) k c s = a.width.fit? (s.signed (n * 10 ^ k + Byte.digitValue c)) := by
  rw [appendDigit?, if_pos hc, mulPow10?_eq a h, Sign.signed_mul_pow]
  by_cases hm : a.width.InRange (s.signed (n * 10 ^ k))
  · simp only [Width.fit?_of_inRange hm]
    cases s with
    | positive => simp [add?, Sign.signed]
    | negative => simp only [sub?, Sign.signed]; congr 1; push_cast; ring
  · simp only [Width.fit?_of_not_inRange hm]
    have hd : ¬ a.width.InRange (s.signed (n * 10 ^ k + Byte.digitValue c)) := fun hd =>
      hm (Sign.inRange_signed_of_le hd (Nat.le_add_right _ _))
    rw [Width.fit?_of_not_inRange hd]

/-! ### In terms of bits -/

/-- The integers of the width's number of bits in two's complement. -/
def Width.Holds (w : Width) (x : Int) : Prop := -2 ^ (w.bits - 1) ≤ x ∧ x ≤ 2 ^ (w.bits - 1) - 1

theorem Width.inRange_iff_holds {w : Width} {x : Int} : w.InRange x ↔ w.Holds x := by
  cases w <;> simp only [InRange, Holds, limit, bits] <;> omega

theorem Width.fit?_eq_some_iff_holds {w : Width} {x y : Int} : w.fit? x = some y ↔ w.Holds x ∧ y = x := by
  rw [fit?_eq_some_iff, inRange_iff_holds, eq_comm]

/-- The integer is zero or has the sign. -/
def Sign.Suits : Sign → Int → Prop
  | .positive, x => 0 ≤ x
  | .negative, x => x ≤ 0

theorem Sign.Suits.exists_signed {s : Sign} {x : Int} (h : s.Suits x) : ∃ n, s.signed n = x := by
  refine ⟨x.natAbs, ?_⟩
  cases s with
  | positive => exact Int.natAbs_of_nonneg h
  | negative =>
    show -(x.natAbs : Int) = x
    rw [Int.ofNat_natAbs_of_nonpos h, neg_neg]

theorem Sign.signed_add (s : Sign) (m n : Nat) : s.signed (m + n) = s.signed m + s.signed n := by
  cases s with
  | positive => exact Nat.cast_add m n
  | negative => simp only [signed, Nat.cast_add, neg_add]

/-- **Scaling and appending are exact**, for every width and either way of scaling. The product with a power of ten
is given exactly if it can be held, whether or not the power can; and if the value is zero or has the sign, the value
with another digit is given exactly for digits, and if it can be held. -/
theorem Arithmetic.scaling_and_appending_exact (a : Arithmetic) (x : Int) (hx : a.width.Holds x) (k : Nat) :
    (∀ y, a.mulPow10? x k = some y ↔ a.width.Holds (x * 10 ^ k) ∧ y = x * 10 ^ k) ∧
      ∀ (s : Sign) (c : UInt8), s.Suits x → ∀ y, a.appendDigit? x k c s = some y ↔
        Byte.isDigit c ∧ a.width.Holds (x * 10 ^ k + s.signed (Byte.digitValue c)) ∧
          y = x * 10 ^ k + s.signed (Byte.digitValue c) := by
  have hrange : a.width.InRange x := Width.inRange_iff_holds.mpr hx
  constructor
  · intro y
    rw [mulPow10?_eq a hrange, Width.fit?_eq_some_iff_holds]
  · intro s c hs y
    by_cases hc : Byte.isDigit c
    · obtain ⟨n, rfl⟩ := hs.exists_signed
      rw [appendDigit?_signed a hrange k hc, Width.fit?_eq_some_iff_holds, Sign.signed_add, ← Sign.signed_mul_pow]
      exact (and_iff_right hc).symm
    · rw [appendDigit?, if_neg hc]
      exact iff_of_false (by simp) fun h => hc h.1

/-- The least integer of 16 bits is reached by appending, and not overstepped; ten to the fifth is out of range, but
zero times it is not. -/
theorem Arithmetic.scaling_and_appending_exact_least :
    Width.w16.Holds (-3276) ∧ Sign.negative.Suits (-3276) ∧
      Arithmetic.appendDigit? ⟨.w16, .shiftAdd⟩ (-3276) 1 0x38 .negative = some (-32768) ∧
      Arithmetic.appendDigit? ⟨.w16, .shiftAdd⟩ (-3276) 1 0x39 .negative ≠ some (-32769) ∧
      Arithmetic.mulPow10? ⟨.w16, .multiply⟩ 0 5 = some 0 := by
  have hheld : Width.w16.Holds (-3276) := ⟨by decide, by decide⟩
  have hsuits : Sign.negative.Suits (-3276) := (by decide : (-3276 : Int) ≤ 0)
  have happend := (scaling_and_appending_exact ⟨.w16, .shiftAdd⟩ (-3276) hheld 1).2 .negative
  refine ⟨hheld, hsuits, (happend 0x38 hsuits _).mpr ?_, fun h => ?_, ?_⟩
  · exact ⟨by decide, ⟨by decide, by decide⟩, by decide⟩
  · exact absurd ((happend 0x39 hsuits _).mp h).2.1.1 (by decide)
  · have hzero : Width.w16.Holds 0 := ⟨by decide, by decide⟩
    exact ((scaling_and_appending_exact ⟨.w16, .multiply⟩ 0 hzero 5).1 0).mpr ⟨⟨by decide, by decide⟩, by decide⟩

end PartProgram.Number
