import PartProgram.Proofs.NumberText
import Mathlib.Algebra.Order.Field.Rat
import Mathlib.Order.Bounds.Basic
import Mathlib.Tactic.FieldSimp

/-!
# Plain decimal notation

The text of a decimal number is plain notation of it (`Written.Plain`): a sign only if the number is
negative, at least one digit before the point and no zero too many in front, a point only if there are
places, then as many digits as there are places, and all of it denotes the number. What a literal denotes
is a rational number (`Written.amount`), which does not depend on how literals are read.

Read again, the text gives the number with its places cut down as far as the value allows
(`isGreatest_endZeros`). Nothing overflows on the way, also where the significand is at the edge of its
range: what the text begins with has a smaller magnitude and the same sign, and the zeros of a text
whose length can be told are few enough to be counted (`fits_written_of_places`).
-/

namespace PartProgram.Text

open Number

/-- Digits followed by more digits are moved to the left by as many places. -/
theorem ofDigits_append (ds es : Bytes) : ofDigits (ds ++ es) = ofDigits ds * 10 ^ es.length + ofDigits es := by
  induction es using List.reverseRecOn with
  | nil => simp [ofDigits]
  | append_singleton es c ih =>
    rw [← List.append_assoc, ofDigits_append_digit, ofDigits_append_digit, ih, List.length_append,
      List.length_singleton, pow_succ]
    ring

theorem ofDigits_zeros_append (k : Nat) (ds : Bytes) : ofDigits (List.replicate k Byte.zero ++ ds) = ofDigits ds := by
  induction k with
  | zero => rfl
  | succ k ih => exact ih

/-- The numeral of a number other than zero has no zero in front. -/
theorem head?_numeral_ne_zero {n : Nat} (h : 0 < n) : (numeral n).head? ≠ some Byte.zero := by
  induction n using Nat.strong_induction_on with
  | _ n ih =>
    by_cases hn : n < 10
    · rw [numeral_of_lt hn, List.head?_singleton]
      intro hzero
      have hvalue := (digitByte_spec n hn).2
      rw [Option.some.inj hzero] at hvalue
      exact h.ne hvalue
    · rw [numeral_of_le (by omega), List.head?_append_of_ne_nil _ (numeral_ne_nil _)]
      exact ih (n / 10) (by omega) (by omega)

end PartProgram.Text

namespace PartProgram.Number

theorem Sign.signed_one_mul (s : Sign) (n : Nat) : s.signed 1 * n = s.signed n := by
  cases s <;> simp [Sign.signed]

/-! ### What a text denotes -/

/-- The number that a literal denotes. -/
def Written.amount (w : Written) : ℚ :=
  (w.meantSign.signed 1 : ℚ) *
    (Text.ofDigits w.whole + Text.ofDigits w.fractionDigits / 10 ^ w.fractionDigits.length)

/-- The number `significand · 10 ^ (-places)`. -/
def Decimal.amount (d : Decimal) : ℚ := d.significand / 10 ^ d.places

/-- The literal `w` is the number `d` in plain notation. -/
structure Written.Plain (w : Written) (d : Decimal) : Prop where
  sign : w.sign = if d.significand < 0 then some .negative else none
  whole_ne_nil : w.whole ≠ []
  no_leading_zero : w.whole.head? = some Byte.zero → w.whole = [Byte.zero]
  point_iff : w.fraction.isSome ↔ 0 < d.places
  places : w.fractionDigits.length = d.places
  amount : w.amount = d.amount

theorem Written.length_fractionDigits_le (w : Written) : w.fractionDigits.length ≤ w.text.length := by
  rw [text, pointText, fractionDigits]
  cases w.fraction with
  | none => exact Nat.zero_le _
  | some f =>
    simp only [List.length_append, List.length_cons, Option.getD_some]
    omega

namespace Decimal

variable {a : Arithmetic} {d : Decimal} {k : Nat}

/-! ### The text is plain notation -/

theorem no_leading_zero (d : Decimal) (h : d.wholeText.head? = some Byte.zero) : d.wholeText = [Byte.zero] := by
  rw [wholeText] at h ⊢
  split_ifs at h ⊢ with hcount
  · rfl
  · rw [List.head?_take, if_neg hcount, digits] at h
    have hzero : d.significand.natAbs = 0 := by
      by_contra hne
      exact Text.head?_numeral_ne_zero (Nat.pos_of_ne_zero hne) h
    have hdigits : d.digits = [Byte.zero] := by
      rw [digits, hzero]
      exact Text.numeral_of_lt (by decide)
    rw [hdigits]
    exact List.take_of_length_le (Nat.one_le_iff_ne_zero.mpr hcount)

theorem amount_written (d : Decimal) : d.written.amount = d.amount := by
  have hdigits : (Text.ofDigits d.wholeText * 10 ^ d.places + Text.ofDigits d.fractionDigits : ℚ) =
      d.significand.natAbs := by
    have h := d.ofDigits_wholeText_append
    rw [Text.ofDigits_append, length_fractionDigits] at h
    exact_mod_cast h
  have hsign : (d.written.meantSign.signed 1 : ℚ) * d.significand.natAbs = d.significand := by
    rw [← Int.cast_natCast, ← Int.cast_mul, Sign.signed_one_mul, signed_natAbs_written]
  have hwhole : d.written.whole = d.wholeText := rfl
  rw [Written.amount, amount, hwhole, fractionDigits_written, length_fractionDigits, ← hsign, ← hdigits]
  field_simp

theorem plain_written (d : Decimal) : d.written.Plain d where
  sign := rfl
  whole_ne_nil := d.wholeText_ne_nil
  no_leading_zero := d.no_leading_zero
  point_iff := by
    rw [written]
    by_cases h : d.places = 0 <;> simp [h, Nat.pos_iff_ne_zero]
  places := by rw [fractionDigits_written, length_fractionDigits]
  amount := d.amount_written

/-! ### Reading it again -/

theorem pow_endZeros_dvd (d : Decimal) : (10 : Int) ^ endZeros d.fractionDigits ∣ d.significand :=
  ⟨d.written.value.significand, by rw [Int.mul_comm, significand_written]⟩

/-- The zeros at the end of the text are all the places that the number can do without. -/
theorem isGreatest_endZeros (d : Decimal) :
    IsGreatest {k | k ≤ d.places ∧ (10 : Int) ^ k ∣ d.significand} (endZeros d.fractionDigits) := by
  have hplaces := d.places_written
  refine ⟨⟨by omega, d.pow_endZeros_dvd⟩, ?_⟩
  rintro k ⟨hk, hdvd⟩
  by_contra hlt
  -- Otherwise ten divides what is read from the text, and that still has a place.
  have hsucc : (10 : Int) ^ (endZeros d.fractionDigits + 1) ∣ d.significand := (pow_dvd_pow 10 (by omega)).trans hdvd
  rw [← d.significand_written, pow_succ, Int.mul_comm] at hsucc
  have hten := Int.dvd_of_mul_dvd_mul_right (by positivity) hsucc
  obtain hp | hs := canonical_value d.written
  · omega
  · exact hs hten

theorem value_written (d : Decimal) :
    d.written.value = ⟨d.significand / 10 ^ endZeros d.fractionDigits, d.places - endZeros d.fractionDigits⟩ := by
  have hs : d.significand / 10 ^ endZeros d.fractionDigits = d.written.value.significand :=
    Int.ediv_eq_of_eq_mul_left (by positivity) d.significand_written.symm
  have hp : d.places - endZeros d.fractionDigits = d.written.value.places :=
    Nat.sub_eq_of_eq_add d.places_written.symm
  rw [hs, hp]

/-- The text of a number in range fits if its places can be counted. -/
theorem fits_written_of_places (hrange : a.width.InRange d.significand) (hplaces : d.places < Literal.maxPlaces) :
    d.written.Fits a where
  inRange := by
    have hle : d.written.magnitude ≤ d.significand.natAbs := by
      rw [← d.magnitude_written]
      exact Nat.le_mul_of_pos_right _ (by positivity)
    rw [← d.signed_natAbs_written] at hrange
    exact Sign.inRange_signed_of_le hrange hle
  places_le := by
    have := d.places_written
    omega
  no_run := by
    intro hrun
    have hlength := hrun.length_le
    rw [List.length_replicate, fractionDigits_written, length_fractionDigits] at hlength
    omega

theorem places_lt_of_length (h : Width.w32.InRange d.text.length) : d.places < Literal.maxPlaces := by
  have hle := d.written.length_fractionDigits_le
  rw [fractionDigits_written, length_fractionDigits, text_written] at hle
  have hlt : (d.text.length : Int) < 0x80000000 := h.2
  rw [Literal.maxPlaces]
  omega

/-- **The text of a number is plain notation, and reading it undoes the writing.** Into a space of any
size goes what it can hold of the text, and the length of all of it is told. Read with the width of the
number, the text gives the number without the places that its value does not need, so a number that was
itself read comes back unchanged. -/
theorem text_reads_back (a : Arithmetic) (d : Decimal) (hrange : a.width.InRange d.significand)
    (hlength : Width.w32.InRange d.text.length) :
    (∀ size, (d.clip size).length = d.text.length ∧
      (d.clip size).kept = if size = 0 then none else some (d.text.take (min d.text.length (size - 1)))) ∧
    (∃ w : Written, w.text = d.text ∧ w.Plain d) ∧
    (∃ k, IsGreatest {k | k ≤ d.places ∧ (10 : Int) ^ k ∣ d.significand} k ∧
      Block.IsNumber a d.text ⟨d.significand / 10 ^ k, d.places - k⟩) ∧
    ∀ t, Block.IsNumber a t d → Block.IsNumber a d.text d := by
  refine ⟨fun size => ?_, ⟨d.written, d.text_written, d.plain_written⟩, ?_, fun t => isNumber_text⟩
  · rw [clip_eq, Text.clip, List.take_eq_take_min, Nat.min_comm]
    exact ⟨rfl, rfl⟩
  · refine ⟨_, d.isGreatest_endZeros, ?_⟩
    rw [← d.value_written, ← d.text_written]
    have hfit := fits_written_of_places hrange (places_lt_of_length hlength)
    exact isNumber_iff.mpr ⟨d.written, rfl, d.complete_written, hfit, rfl⟩

/-- A significand near the edge of its range; two of the four places can go. -/
theorem text_reads_back_shortened :
    Width.w16.InRange (-32700) ∧ (⟨-32700, 4⟩ : Decimal).text = ascii "-3.2700" ∧
      Block.IsNumber ⟨.w16, .shiftAdd⟩ (ascii "-3.2700") ⟨-327, 2⟩ := by
  have hrange : Width.w16.InRange (-32700) := by decide
  have htext : (⟨-32700, 4⟩ : Decimal).text = ascii "-3.2700" := by decide
  obtain ⟨-, -, ⟨k, ⟨hk, hgreatest⟩, hnumber⟩, -⟩ :=
    text_reads_back ⟨.w16, .shiftAdd⟩ ⟨-32700, 4⟩ hrange (by rw [htext]; decide)
  have htwo : k = 2 := by
    have hle : 2 ≤ k := hgreatest (by decide)
    have hdvd : ∀ k ≤ 4, 2 ≤ k → (10 : Int) ^ k ∣ -32700 → k = 2 := by decide
    exact hdvd k hk.1 hle hk.2
  rw [htwo, htext] at hnumber
  exact ⟨hrange, htext, hnumber⟩

end Decimal

end PartProgram.Number
