import PartProgram.Number.Decimal
import PartProgram.Number.Significand

/-!
# Decimal literals

A decimal literal such as `-12.50` or `.5` is read byte by byte, and nothing of it is
kept but its value so far. Zeros after the point are not multiplied in when they are
read: they are counted, and the next other digit moves the significand past all of them
at once. A literal thus never carries zeros at its end that stand after the point, and
the number it finishes with has the fewest places.

A byte is offered to the literal, which answers with what is wrong with it and becomes another
literal (`offer`). A byte that is not allowed at its place leaves the literal as it was. A digit
that makes the number too large does not: what it leaves is of no use, and the literal has to
be started over.
-/

namespace PartProgram.Number

/-- How far a literal has got. -/
inductive Literal.Phase where
  /-- Nothing has been read. -/
  | start
  /-- Only a sign has been read. -/
  | sign
  /-- The point has been read before any digit. -/
  | leadingPoint
  /-- Digits before the point. -/
  | integer
  /-- After the point, or a digit after a leading point. -/
  | fraction
  deriving DecidableEq, Repr, Inhabited

/-- A literal as far as it has been read. -/
structure Literal where
  /-- How far it has got. -/
  phase : Literal.Phase := .start
  /-- The sign, if one was written. -/
  sign : Option Sign := none
  /-- The significand of the number so far. -/
  significand : Int := 0
  /-- The places of the number so far. -/
  places : Nat := 0
  /-- How far the next digit after the point moves the significand: one more than the
  zeros read since the last other digit. -/
  reach : Nat := 1
  deriving DecidableEq, Repr, Inhabited

namespace Literal

/-- What can be wrong with a literal. -/
inductive Error where
  /-- The number does not fit. -/
  | capacity
  /-- The literal ended before any digit. -/
  | incomplete
  /-- A byte that is not allowed at its place. -/
  | invalidCharacter
  deriving DecidableEq, Repr, Inhabited

/-- The number of an error in reports; `0` stands for none. -/
def Error.code : Error → Int
  | .capacity => 1
  | .incomplete => 2
  | .invalidCharacter => 3

/-- The name of the error with the given number. -/
def errorName (code : Int) : Bytes :=
  if code = 0 then ascii "None"
  else if code = 1 then ascii "Capacity"
  else if code = 2 then ascii "Incomplete"
  else if code = 3 then ascii "InvalidCharacter"
  else ascii "?"

/-- The greatest number of places, and the greatest reach. -/
def maxPlaces : Nat := 0xffffffff

/-- The sign that digits are read with. -/
def effectiveSign (l : Literal) : Sign := l.sign.getD .positive

/-- What came of a byte that was offered to a literal. -/
structure Response where
  /-- What is wrong with the byte, if it is refused. -/
  error : Option Error := none
  /-- The literal that is left. -/
  literal : Literal
  deriving DecidableEq, Repr

/-- The literal after its point, with the given places and reach. -/
def inFraction (l : Literal) (places reach : Nat) : Literal :=
  { l with phase := .fraction, places, reach }

/-- A digit before the point. A zero at the front adds nothing. The significand is the place of
the result, so that a digit too many can spoil it. -/
def integerDigit (a : Arithmetic) (l : Literal) (c : UInt8) : Response :=
  if c = Byte.zero ∧ l.significand = 0 then { literal := { l with phase := .integer } }
  else match a.appendDigit? l.significand 1 c l.effectiveSign with
    | some m => { literal := { l with phase := .integer, significand := m } }
    | none =>
      { error := some .capacity
        literal := { l with significand := a.remnant l.significand 1 c l.effectiveSign } }

/-- A zero after the point. When there are too many, counting starts over from zero. -/
def fractionZero (l : Literal) : Response :=
  if l.reach < maxPlaces then { literal := l.inFraction l.places (l.reach + 1) }
  else { error := some .capacity, literal := { l with reach := 0 } }

/-- Another digit after the point. Here the result has a place of its own. -/
def fractionDigit (a : Arithmetic) (l : Literal) (c : UInt8) : Response :=
  match a.appendDigit? l.significand l.reach c l.effectiveSign with
  | some m =>
    if l.places + l.reach ≤ maxPlaces then
      { literal := { l with significand := m }.inFraction (l.places + l.reach) 1 }
    else { error := some .capacity, literal := l }
  | none => { error := some .capacity, literal := l }

/-- Offer one more byte to the literal. -/
def offer (a : Arithmetic) (l : Literal) (c : UInt8) : Response :=
  match l.phase with
  | .start =>
    if c = Byte.plus then { literal := { l with phase := .sign, sign := some .positive } }
    else if c = Byte.minus then { literal := { l with phase := .sign, sign := some .negative } }
    else if c = Byte.point then { literal := { l with phase := .leadingPoint } }
    else if Byte.isDigit c then l.integerDigit a c
    else { error := some .invalidCharacter, literal := l }
  | .sign =>
    if c = Byte.point then { literal := { l with phase := .leadingPoint } }
    else if Byte.isDigit c then l.integerDigit a c
    else { error := some .invalidCharacter, literal := l }
  | .integer =>
    if c = Byte.point then { literal := { l with phase := .fraction } }
    else if Byte.isDigit c then l.integerDigit a c
    else { error := some .invalidCharacter, literal := l }
  | .leadingPoint | .fraction =>
    if c = Byte.zero then l.fractionZero
    else if Byte.isDigit c then l.fractionDigit a c
    else { error := some .invalidCharacter, literal := l }

/-- The literal after one more byte, for who does not go on with a literal that refused one. -/
def step (a : Arithmetic) (l : Literal) (c : UInt8) : Except Error Literal :=
  match l.offer a c with
  | ⟨none, l'⟩ => .ok l'
  | ⟨some e, _⟩ => .error e

/-- What became of a text offered to a literal. -/
structure Fed where
  /-- The error that ended it, if there was one. -/
  error : Option Error
  /-- How many bytes were taken. -/
  consumed : Nat
  /-- The literal that is left. -/
  literal : Literal
  deriving DecidableEq, Repr

/-- Offer the bytes of a text, up to the first that is refused. -/
def feed (a : Arithmetic) (l : Literal) : Bytes → Fed
  | [] => ⟨none, 0, l⟩
  | c :: cs =>
    match l.offer a c with
    | ⟨some e, l'⟩ => ⟨some e, 0, l'⟩
    | ⟨none, l'⟩ =>
      let rest := feed a l' cs
      { rest with consumed := rest.consumed + 1 }

/-- Offer every byte of a text in turn, also after one that is refused. Gives what was said to
each byte, and the literal that is left. -/
def feedEach (a : Arithmetic) (l : Literal) : Bytes → List (Option Error) × Literal
  | [] => ([], l)
  | c :: cs =>
    let ⟨error, l₁⟩ := l.offer a c
    let (said, l') := feedEach a l₁ cs
    (error :: said, l')

/-- The number that was read, once there is a digit, or a point after one. -/
def finish (l : Literal) : Except Error Decimal :=
  match l.phase with
  | .integer | .fraction => .ok ⟨l.significand, l.places⟩
  | .start | .sign | .leadingPoint => .error .incomplete

/-- Whether only digits have been read so far. -/
def isPlainInteger (l : Literal) : Bool := l.phase == .integer && l.sign.isNone

end Literal

end PartProgram.Number
