import PartProgram.Text.Byte

/-!
# Paths and locations

A path is how a file or directory is named: components with slashes between them, taken from
the working directory or, after a slash at the front, from the root. Several slashes count as
one, and a slash at the end asks for a directory. A location is a place that paths lead to;
two paths name the same file if they lead to the same location, as `p.g` and `./d/../p.g` do.
-/

namespace PartProgram

/-- A directory that locations are counted from. -/
inductive Anchor where
  /-- The directory so many levels above the working directory, which itself is level zero. -/
  | working (above : Nat)
  /-- The root of all directories. -/
  | root
  deriving DecidableEq, Repr, Inhabited

/-- A place in the tree of directories. -/
structure Location where
  /-- Where the names start. -/
  anchor : Anchor := .working 0
  /-- The names that lead there from the anchor, the last one first. -/
  names : List Bytes := []
  deriving DecidableEq, Repr, Inhabited

namespace Location

/-- The directory that a location lies in; the root lies in itself. -/
def parent : Location → Location
  | ⟨a, _ :: names⟩ => ⟨a, names⟩
  | ⟨.working n, []⟩ => ⟨.working (n + 1), []⟩
  | ⟨.root, []⟩ => ⟨.root, []⟩

/-- Where a component of a path leads. -/
def step (l : Location) (component : Bytes) : Location :=
  if component = ascii "." then l
  else if component = ascii ".." then l.parent
  else { l with names := component :: l.names }

/-- Names with slashes between them. -/
def joined (names : List Bytes) : Bytes := [Byte.slash].intercalate names

/-- The name of a location below the working directory. -/
def localName? (l : Location) : Option Bytes :=
  if l.anchor = .working 0 ∧ l.names ≠ [] then some (joined l.names.reverse) else none

/-- A path to the location. -/
def text (l : Location) : Bytes :=
  match l.localName?, l.anchor with
  | some name, _ => name
  | none, .working 0 => ascii "."
  | none, .working n => joined (List.replicate n (ascii "..") ++ l.names.reverse)
  | none, .root => Byte.slash :: joined l.names.reverse

end Location

/-- A path, taken apart. -/
structure Path where
  /-- Where it starts. -/
  start : Location := {}
  /-- Its components. -/
  components : List Bytes := []
  /-- Whether it ends in a slash. -/
  directory : Bool := false
  deriving DecidableEq, Repr, Inhabited

namespace Path

/-- The parts of a text between slashes. -/
def parts : Bytes → List Bytes
  | [] => [[]]
  | c :: cs =>
    if c = Byte.slash then [] :: parts cs
    else match parts cs with
      | [] => [[c]]
      | p :: ps => (c :: p) :: ps

/-- The path that a text stands for. -/
def ofBytes (s : Bytes) : Path where
  start := if s.head? = some Byte.slash then ⟨.root, []⟩ else {}
  components := (parts s).filter (· ≠ [])
  directory := s.getLast? = some Byte.slash

/-- The location at hand, and those that components lead to from there. -/
def stationsFrom (here : Location) : List Bytes → List Location
  | [] => [here]
  | c :: cs => here :: stationsFrom (here.step c) cs

/-- The locations that a path leads through, its end included. -/
def stations (p : Path) : List Location := stationsFrom p.start p.components

end Path

end PartProgram
