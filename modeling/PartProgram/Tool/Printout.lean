import PartProgram.Block.Event

/-!
# The printout

The tokenizer prints one line for every event, and counts programs, blocks and words. A
number is written into a space of 48 bytes, so that only its first 47 bytes are printed.
-/

namespace PartProgram.Tool

open Number Block

/-- The space for the text of a number. -/
def numberSpace : Nat := 48

/-- A number as it is printed. -/
def numberText (d : Decimal) : Bytes := (d.clip numberSpace).kept.getD []

/-- What is printed before the number of a word. -/
def wordName (address : UInt8) : Option Int → Bytes
  | none => [address]
  | some index => [address] ++ ascii "[" ++ Text.intNumeral index ++ ascii "]"

/-- The line of a word. -/
def wordLine (name : Bytes) (number : Decimal) : Bytes :=
  name ++ ascii " " ++ numberText number ++ [Byte.lf]

/-- The line of an event. -/
def eventLine : Event → Bytes
  | .programStart => ascii "program_start\n"
  | .blockDelete => ascii "block_delete\n"
  | .sequenceNumber alignment number =>
    wordLine [if alignment then Byte.colon else Byte.letterN] number
  | .gCode number => wordLine [Byte.letterG] number
  | .mCode number => wordLine [Byte.letterM] number
  | .data address index number => wordLine (wordName address index) number
  | .endBlock => ascii "end_block\n"

/-- The printout of a run. -/
def printout (events : List Event) : Bytes := events.flatMap eventLine

/-- How much was found in a part program. -/
structure Tally where
  /-- How many programs began. -/
  programs : Nat
  /-- How many blocks ended. -/
  blocks : Nat
  /-- How many words there were. -/
  words : Nat
  deriving DecidableEq, Repr

/-- The tally of a run. -/
def tally (events : List Event) : Tally where
  programs := events.countP (· == .programStart)
  blocks := events.countP (· == .endBlock)
  words := events.countP Event.isWord

end PartProgram.Tool
