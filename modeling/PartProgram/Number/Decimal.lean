import PartProgram.Text.Clip
import PartProgram.Text.Numeral

/-!
# Decimal numbers

A decimal number is an integer with a number of decimal places. Its text is plain
decimal notation: exactly as many digits after the point as there are places, at least
one digit before it, and no point without places.

A number can have far more places than its significand has digits. The zeros that fill them
up are therefore kept apart (`zeros`), and a text that is clipped is written with no more of
them than can be seen; `clip_eq` says that this makes no difference.
-/

namespace PartProgram.Number

/-- The number `significand · 10 ^ (-places)`. -/
structure Decimal where
  /-- The number without its point. -/
  significand : Int := 0
  /-- How many digits stand after the point. -/
  places : Nat := 0
  deriving DecidableEq, Repr, Inhabited

namespace Decimal

/-- The digits of the significand. -/
def digits (d : Decimal) : Bytes := Text.numeral d.significand.natAbs

/-- How many of these stand before the point. -/
def wholeCount (d : Decimal) : Nat := d.digits.length - d.places

/-- How many zeros stand between the point and these digits. -/
def zeros (d : Decimal) : Nat := d.places - d.digits.length

/-- The sign. -/
def signText (d : Decimal) : Bytes := if d.significand < 0 then [Byte.minus] else []

/-- What stands before the point, without the sign. -/
def wholeText (d : Decimal) : Bytes :=
  if d.wholeCount = 0 then [Byte.zero] else d.digits.take d.wholeCount

/-- The point and what stands after it, with the given number of zeros next to the point. -/
def fractionText (d : Decimal) (zeros : Nat) : Bytes :=
  if d.places = 0 then []
  else Byte.point :: (List.replicate zeros Byte.zero ++ d.digits.drop d.wholeCount)

/-- The number in plain decimal notation. -/
def text (d : Decimal) : Bytes := d.signText ++ d.wholeText ++ d.fractionText d.zeros

/-- The number written into a space of `size` bytes. -/
def clip (d : Decimal) (size : Nat) : Text.Clip where
  length := d.signText.length + d.wholeText.length + (d.fractionText 0).length + d.zeros
  kept := if size = 0 then none
    else some ((d.signText ++ d.wholeText ++ d.fractionText (min d.zeros size)).take (size - 1))

/-! ### Clipped texts -/

theorem zeros_eq_zero {d : Decimal} (h : d.places = 0) : d.zeros = 0 := by
  simp [zeros, h]

theorem length_fractionText (d : Decimal) :
    (d.fractionText d.zeros).length = (d.fractionText 0).length + d.zeros := by
  by_cases h : d.places = 0
  · simp [fractionText, h, zeros_eq_zero h]
  · simp [fractionText, h]; omega

/-- Zeros beyond the first `n` bytes cannot be seen in them. -/
theorem take_replicate_append {n k m : Nat} (hk : n ≤ k) (hm : n ≤ m) (c : UInt8)
    (s t : Bytes) :
    (s ++ (List.replicate k c ++ t)).take n = (s ++ (List.replicate m c ++ t)).take n := by
  simp only [List.take_append, List.take_replicate, List.length_replicate]
  congr 2
  · congr 1; omega
  · congr 1; omega

/-- The number written into a limited space is its text cut to that space. -/
theorem clip_eq (d : Decimal) (size : Nat) : d.clip size = Text.clip size d.text := by
  simp only [clip, Text.clip, text, List.length_append, length_fractionText, Text.Clip.mk.injEq]
  refine ⟨by omega, ?_⟩
  by_cases hs : size = 0
  · simp [hs]
  · simp only [hs, if_false, Option.some.injEq]
    by_cases hz : d.zeros ≤ size
    · rw [Nat.min_eq_left hz]
    · by_cases hp : d.places = 0
      · simp [fractionText, hp]
      · simp only [fractionText, hp, if_false, Nat.min_eq_right (Nat.le_of_not_le hz)]
        have h := take_replicate_append (n := size - 1) (k := size) (m := d.zeros) (by omega)
          (by omega) Byte.zero (d.signText ++ d.wholeText ++ [Byte.point])
          (d.digits.drop d.wholeCount)
        simpa only [List.append_assoc, List.singleton_append] using h

end Decimal

end PartProgram.Number
