import PartProgram.Text.Byte

/-!
# Lines of configuration text

Configuration text is a sequence of lines. Each is cut at its first `#` or carriage return
and trimmed; what is left is empty, a section heading in brackets, or a name and a value
with `=` between them. Names do not depend on case.
-/

namespace PartProgram.Config

/-- The lines of a text. A line end at the end of the text starts no further line. -/
def lines : Bytes → List Bytes
  | [] => []
  | c :: cs =>
    if c = Byte.lf then [] :: lines cs
    else match lines cs with
      | [] => [[c]]
      | l :: ls => (c :: l) :: ls

/-- What counts of a line: all before a comment or a carriage return, trimmed. -/
def bare (line : Bytes) : Bytes :=
  Text.trim (line.takeWhile fun c => c != Byte.hash && c != Byte.cr)

/-- A name in the form in which names are compared. -/
def canonicalName (s : Bytes) : Bytes := Text.lower (Text.trim s)

/-- What a line says. -/
inductive Line where
  /-- Nothing. -/
  | blank
  /-- The start of a section. -/
  | heading (name : Bytes)
  /-- The start of a section, without the closing bracket. -/
  | brokenHeading
  /-- A value for a name. -/
  | assignment (name value : Bytes)
  /-- None of these. -/
  | malformed
  deriving DecidableEq, Repr, Inhabited

/-- What a line says. -/
def Line.ofBytes (raw : Bytes) : Line :=
  match bare raw with
  | [] => .blank
  | c :: cs =>
    if c = Byte.openBracket then
      if (c :: cs).getLast? = some Byte.closeBracket then .heading (canonicalName cs.dropLast)
      else .brokenHeading
    else if (c :: cs).contains Byte.equals then
      .assignment (canonicalName ((c :: cs).takeWhile (· != Byte.equals)))
        (Text.trim (((c :: cs).dropWhile (· != Byte.equals)).drop 1))
    else .malformed

end PartProgram.Config
