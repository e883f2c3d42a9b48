import PartProgram.Text.Byte

/-!
# Significands

The significand of a decimal number is a signed integer of 16, 32 or 64 bits. It is
kept here as an integer, and every operation says whether its result is in the range
of the width. Of a sum that is not, the lowest bits are left in the place of the result
(`Arithmetic.remnant`); nobody is to use them.

A significand is moved by powers of ten in one of two ways (`Scaling`): the power is
computed first and multiplied in once, or the value is multiplied by ten again and
again with additions only. Both give up as soon as an intermediate result leaves the
range.
-/

namespace PartProgram.Number

/-! ### Widths -/

/-- How many bits a significand has. -/
inductive Width where
  /-- 16 bits. -/
  | w16
  /-- 32 bits. -/
  | w32
  /-- 64 bits. -/
  | w64
  deriving DecidableEq, Repr, Inhabited

namespace Width

/-- The number of bits. -/
def bits : Width → Nat
  | w16 => 16
  | w32 => 32
  | w64 => 64

/-- The width with the given number of bits. -/
def ofBits? (n : Int) : Option Width :=
  if n = 16 then some w16 else if n = 32 then some w32 else if n = 64 then some w64 else none

/-- The least integer above the range of the width: two to the number of bits less one. -/
def limit : Width → Int
  | w16 => 0x8000
  | w32 => 0x80000000
  | w64 => 0x8000000000000000

/-- The integers that a significand of this width can hold. -/
def InRange (w : Width) (x : Int) : Prop := -w.limit ≤ x ∧ x < w.limit

instance (w : Width) (x : Int) : Decidable (w.InRange x) := inferInstanceAs (Decidable (_ ∧ _))

/-- The integer itself if it is in the range of the width. -/
def fit? (w : Width) (x : Int) : Option Int := if w.InRange x then some x else none

theorem fit?_eq_some_iff {w : Width} {x y : Int} : w.fit? x = some y ↔ w.InRange x ∧ x = y := by
  simp only [fit?]; split <;> simp [*]

/-- The integer with the same lowest bits that is in the range of the width. -/
def wrap (w : Width) (x : Int) : Int := x.bmod (2 * w.limit).toNat

end Width

/-! ### Powers of ten -/

/-- How a significand is multiplied by a power of ten. -/
inductive Scaling where
  /-- Compute the power, then multiply once. -/
  | multiply
  /-- Multiply by ten repeatedly, as eight times plus two times the value. -/
  | shiftAdd
  deriving DecidableEq, Repr, Inhabited

/-- The arithmetic that literals are read with. -/
structure Arithmetic where
  /-- The width of significands. -/
  width : Width := .w32
  /-- How they are moved by powers of ten. -/
  scaling : Scaling := .multiply
  deriving DecidableEq, Repr, Inhabited

/-- Apply `f` to a value `n` times, as long as there is a result. -/
def iterate? {α : Type} (f : α → Option α) : Nat → α → Option α
  | 0, a => some a
  | n + 1, a =>
    match f a with
    | none => none
    | some b => iterate? f n b

/-- Ten times a value, by additions in the range of the width. -/
def Width.tenfold? (w : Width) (x : Int) : Option Int := do
  let twice ← w.fit? (x + x)
  let fourfold ← w.fit? (twice + twice)
  let eightfold ← w.fit? (fourfold + fourfold)
  w.fit? (eightfold + twice)

namespace Arithmetic

/-- `x` times ten to the `k`. Zero stays zero, even if the power is out of range. -/
def mulPow10? (a : Arithmetic) (x : Int) (k : Nat) : Option Int :=
  if x = 0 then some 0
  else match a.scaling with
    | .multiply =>
      match iterate? (fun p => a.width.fit? (p * 10)) k 1 with
      | none => none
      | some power => a.width.fit? (x * power)
    | .shiftAdd => iterate? a.width.tenfold? k x

/-- The sum with a natural number. -/
def add? (a : Arithmetic) (x : Int) (n : Nat) : Option Int := a.width.fit? (x + n)

/-- The difference with a natural number. -/
def sub? (a : Arithmetic) (x : Int) (n : Nat) : Option Int := a.width.fit? (x - n)

end Arithmetic

/-! ### Digits -/

/-- The sign of a number. -/
inductive Sign where
  /-- Digits are added. -/
  | positive
  /-- Digits are taken off. -/
  | negative
  deriving DecidableEq, Repr, Inhabited

/-- The significand `x` moved left by `k` decimal places, with the digit `c` in the last
of them. There is no result for a byte that is no digit. -/
def Arithmetic.appendDigit? (a : Arithmetic) (x : Int) (k : Nat) (c : UInt8) (s : Sign) :
    Option Int :=
  if Byte.isDigit c then
    match a.mulPow10? x k with
    | none => none
    | some shifted =>
      match s with
      | .positive => a.add? shifted (Byte.digitValue c)
      | .negative => a.sub? shifted (Byte.digitValue c)
  else none

/-- What is left in the place of the significand `x` where `appendDigit?` has no result for a
digit: the sum with the digit, wrapped, or `x` itself if it could not even be moved. -/
def Arithmetic.remnant (a : Arithmetic) (x : Int) (k : Nat) (c : UInt8) (s : Sign) : Int :=
  match a.mulPow10? x k with
  | none => x
  | some shifted =>
    match s with
    | .positive => a.width.wrap (shifted + Byte.digitValue c)
    | .negative => a.width.wrap (shifted - Byte.digitValue c)

end PartProgram.Number
