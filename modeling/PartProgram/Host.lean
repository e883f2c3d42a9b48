import PartProgram.Host.Moment
import PartProgram.Host.Path

/-!
# The host

What surrounds the program: the files and directories it can name, the clock, and which of the
places that its output can go to are terminals. What the program writes is kept as a list of writes, from which
the text on standard error, the system log and the content of files are read off. The clock
is a list of the readings to come; the last one stands for all further readings.
-/

namespace PartProgram

/-- One piece of writing. -/
inductive Write where
  /-- Text on standard error. -/
  | standardError (text : Bytes)
  /-- Text at the end of a file. -/
  | file (location : Location) (text : Bytes)
  /-- An entry in the system log, with its priority. -/
  | systemLog (priority : Nat) (message : Bytes)
  deriving DecidableEq, Repr, Inhabited

/-- The surroundings of the program. -/
structure Host where
  /-- The files, each with its location and what it held before anything was written. -/
  files : List (Location × Bytes) := []
  /-- The locations of directories. -/
  directories : List Location := []
  /-- The readings of the clock to come. -/
  clock : List Moment := []
  /-- Whether standard error is a terminal. -/
  terminal : Bool := false
  /-- Whether a terminal is at a location. Where nothing is known of that, standard error decides. -/
  terminalAt : Location → Bool := fun _ => terminal
  /-- What has been written, the latest first. -/
  writes : List Write := []
  deriving Inhabited

namespace Host

/-! ### Writing -/

/-- The host with one more piece of writing. -/
def put (h : Host) (w : Write) : Host := { h with writes := w :: h.writes }

/-- The text on standard error. -/
def standardError (h : Host) : Bytes :=
  h.writes.reverse.flatMap fun
    | .standardError text => text
    | _ => []

/-- The entries of the system log, each with its priority. -/
def systemLog (h : Host) : List (Nat × Bytes) :=
  h.writes.reverse.filterMap fun
    | .systemLog priority message => some (priority, message)
    | _ => none

/-- The text that has been added to the file at a location. -/
def added (h : Host) (l : Location) : Bytes :=
  h.writes.reverse.flatMap fun
    | .file l' text => if l' = l then text else []
    | _ => []

/-! ### Files -/

/-- What there is at a location. -/
inductive Node where
  /-- A directory. -/
  | directory
  /-- A file with its content. -/
  | file (content : Bytes)
  deriving DecidableEq, Repr, Inhabited

/-- Why a file cannot be had. -/
inductive Obstacle where
  /-- There is nothing of that name. -/
  | missing
  /-- The path goes through a file, or wants a file to be a directory. -/
  | notDirectory
  /-- There is a directory, or only a directory could be there. -/
  | isDirectory
  /-- A name, or all of the path, is too long. -/
  | tooLong
  deriving DecidableEq, Repr, Inhabited

/-- An obstacle in messages. -/
def Obstacle.text : Obstacle → String
  | missing => "No such file or directory"
  | notDirectory => "Not a directory"
  | isDirectory => "Is a directory"
  | tooLong => "File name too long"

/-- The longest name of a file or directory. -/
def maxName : Nat := 255

/-- The longest path. -/
def maxPath : Nat := 4095

/-- The device that is always empty, and keeps nothing. -/
def nullDevice : Location := ⟨.root, [ascii "null", ascii "dev"]⟩

/-- The directories that every host has besides the working directory and those above it. -/
def standardDirectories : List Location := [⟨.root, [ascii "dev"]⟩, ⟨.root, [ascii "tmp"]⟩]

/-- Whether there is a directory at a location. -/
def hasDirectory (h : Host) (l : Location) : Bool :=
  l.names.isEmpty || standardDirectories.contains l || h.directories.contains l

/-- What there is at a location. -/
def inspect (h : Host) (l : Location) : Except Obstacle Node :=
  if (l.names.headD []).length > maxName then .error .tooLong
  else if l = nullDevice then .ok (.file [])
  else match h.files.lookup l with
    | some content => .ok (.file (content ++ h.added l))
    | none => if h.hasDirectory l then .ok .directory else .error .missing

/-- Where the components of a path lead from a location. All that they lead through must be
directories; there may be nothing at the last location. -/
def walk (h : Host) (here : Location) : List Bytes → Except Obstacle Location
  | [] => .ok here
  | c :: cs =>
    match h.inspect here with
    | .error e => .error e
    | .ok (.file _) => .error .notDirectory
    | .ok .directory => h.walk (here.step c) cs

/-- Whether a path can be walked at all. -/
def admissible (path : Bytes) : Except Obstacle Unit :=
  if path = [] then .error .missing
  else if path.length > maxPath then .error .tooLong
  else .ok ()

/-- What a path stands for, and where it is. A slash at the end makes the path go on into a
directory. -/
def find (h : Host) (path : Bytes) : Except Obstacle (Location × Node) := do
  admissible path
  let p := Path.ofBytes path
  let l ← h.walk p.start (if p.directory then p.components ++ [ascii "."] else p.components)
  let node ← h.inspect l
  return (l, node)

/-- The content of the file that a path stands for. -/
def read? (h : Host) (path : Bytes) : Option Bytes :=
  match h.find path with
  | .ok (_, .file content) => some content
  | .ok (_, .directory) | .error _ => none

/-- The content of the file at a location, if there is one. -/
def contentAt (h : Host) (l : Location) : Bytes :=
  match h.inspect l with
  | .ok (.file content) => content
  | .ok .directory | .error _ => []

/-- The host with an empty file added. -/
def create (h : Host) (l : Location) : Host := { h with files := h.files ++ [(l, [])] }

/-- The file that text can be added to under a path; it is made if there is none. -/
def openToAppend (h : Host) (path : Bytes) : Except Obstacle (Location × Host) := do
  admissible path
  let p := Path.ofBytes path
  let l ← h.walk p.start p.components
  if p.directory then throw .isDirectory
  match h.inspect l with
  | .ok (.file _) => return (l, h)
  | .ok .directory => throw .isDirectory
  | .error .missing => return (l, h.create l)
  | .error e => throw e

/-- The files with their content. -/
def contents (h : Host) : List (Location × Bytes) :=
  h.files.map fun f => (f.1, f.2 ++ h.added f.1)

/-- The files that `before` does not have with the same content. -/
def changedSince (h before : Host) : List (Location × Bytes) :=
  let old := before.contents
  h.contents.filter fun f => old.lookup f.1 != some f.2

/-! ### The clock -/

/-- Read the clock. -/
def now (h : Host) : Moment × Host :=
  match h.clock with
  | [] => ({}, h)
  | [m] => (m, h)
  | m :: rest => (m, { h with clock := rest })

end Host

end PartProgram
