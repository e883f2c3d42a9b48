import PartProgram.Number.Literal

/-!
# Faults

A fault is what stops the reader of a part program: its cause, the word it concerns, the
byte that was being read and the place in the text. A `Report` is its flat form, with a
number for the kind of fault, and `Report.text` is the line that goes to the log. Reports
exist for every number, also for those that no fault has.
-/

namespace PartProgram.Block

open Number

/-- Why the reader stopped. -/
inductive Cause where
  /-- A byte that is not allowed at its place. -/
  | invalidCharacter
  /-- A block number that is not the first word of its block. -/
  | misplacedWord
  /-- A comment that is still open at the end of the line. -/
  | unterminatedComment
  /-- The declared checksum is not the computed one. -/
  | checksum
  /-- The number of a word is wrong. -/
  | decimal (error : Literal.Error)
  /-- The builder refused an event. -/
  | builder (code : Int)
  deriving DecidableEq, Repr, Inhabited

/-- A fault and where it was found. -/
structure Fault where
  /-- Why the reader stopped. -/
  cause : Cause
  /-- The address of the word being read, if there was one. -/
  address : Option UInt8
  /-- The byte being read. -/
  character : UInt8
  /-- The line of the fault, counted from one. -/
  line : Nat
  /-- The column of the fault, counted from one. -/
  column : Nat
  deriving DecidableEq, Repr, Inhabited

/-- A fault in flat form; the default is the report of no fault. -/
structure Report where
  /-- The number of the kind of fault, `0` for none. -/
  kind : Int := 0
  /-- The number of the error in a literal, `0` for none. -/
  decimal : Int := 0
  /-- The address of the word being read, NUL for none. -/
  address : UInt8 := Byte.nul
  /-- The byte being read. -/
  character : UInt8 := Byte.nul
  /-- The line of the fault. -/
  line : Nat := 0
  /-- The column of the fault. -/
  column : Nat := 0
  /-- The builder's code, `0` for none. -/
  builder : Int := 0
  deriving DecidableEq, Repr, Inhabited

namespace Cause

/-- The number of a kind of fault in reports. -/
def code : Cause → Int
  | invalidCharacter => 1
  | misplacedWord => 2
  | unterminatedComment => 3
  | checksum => 4
  | decimal _ => 5
  | builder _ => 6

/-- The number of the literal's error that a fault has in reports. -/
def decimalCode : Cause → Int
  | decimal e => e.code
  | _ => 0

/-- The builder's code that a fault has in reports. -/
def builderCode : Cause → Int
  | builder k => k
  | _ => 0

end Cause

/-- The flat form of a fault. -/
def Fault.report (f : Fault) : Report where
  kind := f.cause.code
  decimal := f.cause.decimalCode
  address := f.address.getD Byte.nul
  character := f.character
  line := f.line
  column := f.column
  builder := f.cause.builderCode

/-- The name of the kind of fault with the given number. -/
def kindName (code : Int) : Bytes :=
  if code = 0 then ascii "None"
  else if code = 1 then ascii "InvalidCharacter"
  else if code = 2 then ascii "MisplacedWord"
  else if code = 3 then ascii "UnterminatedComment"
  else if code = 4 then ascii "Checksum"
  else if code = 5 then ascii "Decimal"
  else if code = 6 then ascii "Builder"
  else ascii "?"

/-- A byte as it is shown in a report: line ends, tabulators and all that is not printable
ASCII are written as an escape. -/
def printable (c : UInt8) : Bytes :=
  if c = Byte.lf then ascii "\\n"
  else if c = Byte.cr then ascii "\\r"
  else if c = Byte.tab then ascii "\\t"
  else if c < 0x20 ∨ 0x7f ≤ c then ascii "\\x" ++ Text.hexByte c
  else [c]

namespace Report

/-- The part of the text that tells the error in a literal. -/
def decimalDetail (r : Report) : Bytes :=
  if r.kind = 5 then ascii " (" ++ Literal.errorName r.decimal ++ ascii ")" else []

/-- The part of the text that tells the word. -/
def wordDetail (r : Report) : Bytes :=
  if r.address = Byte.nul then [] else ascii " in word '" ++ [r.address] ++ ascii "'"

/-- The report in one line: place, kind, details, and the byte being read. -/
def text (r : Report) : Bytes :=
  Text.numeral r.line ++ ascii ":" ++ Text.numeral r.column ++ ascii ": " ++ kindName r.kind ++
    r.decimalDetail ++ r.wordDetail ++ ascii " at '" ++ printable r.character ++ ascii "'"

end Report

end PartProgram.Block
