import PartProgram.Text.Numeral

/-!
# Reading 32-bit integers

An integer setting is read in two steps: whitespace and one plus sign are passed
over, then the longest text of the form *optional minus, digits* is taken. The plus
sign and the minus sign belong to different steps, so `+-5` is an integer too.
-/

namespace PartProgram.Text

/-- Integers that fit in 32 bits. -/
def FitsInt32 (i : Int) : Prop := -0x80000000 ≤ i ∧ i < 0x80000000

instance (i : Int) : Decidable (FitsInt32 i) := inferInstanceAs (Decidable (_ ∧ _))

/-- The text without a plus sign at its start, if it has one. -/
def dropPlus : Bytes → Bytes
  | [] => []
  | c :: cs => if c = Byte.plus then cs else c :: cs

/-- Whether a minus sign is in front, and the text after it. -/
def takeMinus : Bytes → Bool × Bytes
  | [] => (false, [])
  | c :: cs => if c = Byte.minus then (true, cs) else (false, c :: cs)

/-- The integer at the very start of a text, if there is one that fits in 32 bits,
and the text after its last digit. -/
def minusInteger? (s : Bytes) : Option (Int × Bytes) :=
  let (negative, body) := takeMinus s
  let digits := body.takeWhile Byte.isDigit
  let value : Int := if negative then -(ofDigits digits) else ofDigits digits
  if digits ≠ [] ∧ FitsInt32 value then some (value, body.dropWhile Byte.isDigit) else none

/-- The integer that a text starts with, whitespace and one plus sign in front of it
allowed, and the text after its last digit. -/
def leadingInt32? (s : Bytes) : Option (Int × Bytes) :=
  minusInteger? (dropPlus (trimStart s))

/-- The integer that a text consists of, whitespace at either end allowed. -/
def int32? (s : Bytes) : Option Int :=
  match leadingInt32? (trim s) with
  | some (value, []) => some value
  | _ => none

end PartProgram.Text
