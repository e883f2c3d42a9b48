import PartProgram.Text.Byte

/-!
# Numerals

Numbers written in decimal digits, without superfluous leading zeros unless a least
width asks for them, and the number that a sequence of digits denotes.
-/

namespace PartProgram.Text

/-- The decimal numeral of a natural number. -/
def numeral (n : Nat) : Bytes := (Nat.toDigits 10 n).map Char.toUInt8

/-- The decimal numeral of an integer, with a minus sign if it is negative. -/
def intNumeral (i : Int) : Bytes :=
  if i < 0 then Byte.minus :: numeral i.natAbs else numeral i.natAbs

/-- A numeral filled up with leading zeros to at least `width` digits. -/
def paddedNumeral (width n : Nat) : Bytes :=
  List.replicate (width - (numeral n).length) Byte.zero ++ numeral n

/-- An integer's numeral filled up with zeros, after the sign, to at least `width` bytes. -/
def paddedIntNumeral (width : Nat) (i : Int) : Bytes :=
  if i < 0 then Byte.minus :: paddedNumeral (width - 1) i.natAbs else paddedNumeral width i.natAbs

/-- The number that a sequence of digits denotes, the first digit having the greatest weight. -/
def ofDigits (ds : Bytes) : Nat := ds.foldl (fun n c => 10 * n + Byte.digitValue c) 0

/-- The two hexadecimal digits of a byte, in small letters. -/
def hexByte (c : UInt8) : Bytes :=
  [c.toNat / 16, c.toNat % 16].map fun d => (Nat.digitChar d).toUInt8

end PartProgram.Text
