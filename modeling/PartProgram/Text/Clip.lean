import PartProgram.Text.Byte

/-!
# Texts in a limited space

A text written into a space of a given number of bytes keeps one of them for the
terminator. The writer is told how long the full text is, so that it can see a cut.
-/

namespace PartProgram.Text

/-- A text as written into a limited space. -/
structure Clip where
  /-- The length of the full text. -/
  length : Nat
  /-- What the space holds before the terminator, unless there is not even room for that. -/
  kept : Option Bytes
  deriving DecidableEq, Repr

/-- A text written into a space of `size` bytes. -/
def clip (size : Nat) (text : Bytes) : Clip where
  length := text.length
  kept := if size = 0 then none else some (text.take (size - 1))

end PartProgram.Text
