import PartProgram.Text.Numeral

/-!
# Messages

A message is put together from fixed text, texts that are filled in, and numbers.
A text that is filled in ends at its first NUL.
-/

namespace PartProgram.Text

/-- A piece of a message. -/
inductive Piece where
  /-- Fixed text. -/
  | fixed (text : String)
  /-- A text that is filled in. -/
  | text (value : Bytes)
  /-- A number that is filled in. -/
  | number (value : Int)

/-- The bytes of one piece. -/
def Piece.render : Piece → Bytes
  | .fixed s => ascii s
  | .text s => untilNul s
  | .number i => intNumeral i

/-- The bytes of a message. -/
def message (pieces : List Piece) : Bytes := pieces.flatMap Piece.render

end PartProgram.Text
