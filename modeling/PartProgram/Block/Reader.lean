import PartProgram.Block.Event
import PartProgram.Block.Fault

/-!
# The reader of part programs

The reader takes a part program byte by byte. Between two bytes it is in one of a few
modes (`Mode`), and it keeps the position of the last byte, whether a program is running,
and, for the block being read, whether it has content and its checksum.

This module has the state of the reader and what can be done to it as a whole:
starting over, giving up a block, and reporting a fault.
-/

namespace PartProgram.Block

open Number

/-- What a part program is read with. -/
structure Rules where
  /-- The arithmetic of numbers. -/
  arithmetic : Arithmetic := {}
  /-- Whether a small letter is taken for the capital one. -/
  acceptLowercase : Bool := true
  /-- Whether a block whose checksum is wrong is a fault. -/
  verifyChecksum : Bool := true
  deriving DecidableEq, Repr, Inhabited

/-- A place between the parts of a block, where blanks and comments may stand. -/
inductive Place where
  /-- Before the first word. -/
  | blockStart
  /-- After a word. -/
  | betweenWords
  /-- After the checksum. -/
  | afterChecksum
  deriving DecidableEq, Repr, Inhabited

/-- The word being read. -/
structure Word where
  /-- Its address, a capital letter or `:`. -/
  address : UInt8
  /-- The column of its address. -/
  column : Nat
  /-- Its index, once that has been read. -/
  index : Option Int := none
  deriving DecidableEq, Repr, Inhabited

namespace Word

/-- Whether a byte is the address of a block number. -/
def isSequence (address : UInt8) : Bool := address == Byte.colon || address == Byte.letterN

/-- Whether words of this address may have an index. -/
def takesIndex (address : UInt8) : Bool :=
  !(isSequence address || address == Byte.letterG || address == Byte.letterM)

/-- The event of the word with its number. -/
def event (w : Word) (number : Decimal) : Event :=
  if isSequence w.address then .sequenceNumber (w.address == Byte.colon) number
  else if w.address = Byte.letterG then .gCode number
  else if w.address = Byte.letterM then .mCode number
  else .data w.address w.index number

end Word

/-- What the reader is in the middle of. -/
inductive Mode where
  /-- Between the parts of a block. -/
  | gap (place : Place)
  /-- After a word's address, or the `=` after its index. -/
  | address (word : Word)
  /-- In a word's number, or its index. -/
  | value (word : Word) (literal : Literal)
  /-- In a comment in parentheses, with the place to go back to. -/
  | comment (place : Place)
  /-- In a comment that reaches to the end of the line. -/
  | lineComment
  /-- After the `*` of a checksum, before its first digit. -/
  | checksumStart
  /-- In the digits of a checksum. -/
  | checksum
  /-- In a line that starts with `%`. -/
  | programMarker
  /-- In a line that is given up. -/
  | skipLine
  /-- Stopped by a fault. -/
  | failed (fault : Fault)
  deriving DecidableEq, Repr, Inhabited

namespace Mode

/-- The start of a block. -/
abbrev blockStart : Mode := gap .blockStart

/-- The address of the word being read. -/
def address? : Mode → Option UInt8
  | address w | value w _ => some w.address
  | _ => none

/-- The fault that stopped the reader. -/
def fault? : Mode → Option Fault
  | failed f => some f
  | _ => none

end Mode

/-- The greatest line and column number; counting stops there. -/
def maxPosition : Nat := 0xffffffff

/-- The next line or column number. -/
def nextPosition (n : Nat) : Nat := if n < maxPosition then n + 1 else n

/-- The reader between two bytes. -/
structure Reader where
  /-- What it is in the middle of. -/
  mode : Mode := .blockStart
  /-- The line of the last byte, zero before the first. -/
  line : Nat := 0
  /-- The column of the last byte. -/
  column : Nat := 0
  /-- Whether the next byte is the first of its line. -/
  atLineStart : Bool := true
  /-- Whether the builder knows of the program being read. -/
  programStarted : Bool := false
  /-- Whether the block has a word, or a mark that it may be skipped. -/
  hasContent : Bool := false
  /-- The exclusive or of the block's bytes up to its checksum, line ends left out. -/
  parity : UInt8 := 0
  /-- The declared checksum as far as it has been read, once its `*` has been read. -/
  declared : Option Nat := none
  deriving DecidableEq, Repr, Inhabited

namespace Reader

/-- The fault that stopped the reader. -/
def fault? (r : Reader) : Option Fault := r.mode.fault?

/-- Whether a fault has stopped the reader. -/
def failed (r : Reader) : Bool := r.fault?.isSome

/-- The report of the fault, or of none. -/
def report (r : Reader) : Report :=
  match r.fault? with
  | none => {}
  | some f => f.report

/-- Stop at the byte `c`. -/
def fail (r : Reader) (cause : Cause) (c : UInt8) : Reader :=
  { r with mode := .failed ⟨cause, r.mode.address?, c, r.line, r.column⟩ }

/-- Go back to the start of a block. -/
def resetBlock (r : Reader) : Reader :=
  { r with mode := .blockStart, hasContent := false, parity := 0, declared := none }

/-- Give up the block, with its fault: what is left of the line is passed over, and the next
line starts a new block of the same program. -/
def skipBlock (r : Reader) : Reader :=
  { r.resetBlock with mode := if r.atLineStart then .blockStart else .skipLine }

/-- Start over, with nothing read. -/
def reset (_ : Reader) : Reader := {}

/-- The reader with another position. -/
def setPosition (r : Reader) (line column : Nat) : Reader := { r with line, column }

/-- The reader's position moved on to the byte `c`, and the byte taken into the checksum if it
counts there. -/
def advance (r : Reader) (c : UInt8) : Reader :=
  { r.setPosition (if r.atLineStart then nextPosition r.line else r.line)
      (nextPosition (if r.atLineStart then 0 else r.column)) with
    atLineStart := c == Byte.lf
    parity := if r.declared.isNone && c != Byte.lf && c != Byte.cr then r.parity ^^^ c
      else r.parity }

end Reader

end PartProgram.Block
