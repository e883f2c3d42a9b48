import PartProgram.Tool.Run
import Std.Time.DateTime.Timestamp

/-!
# The command line

The program itself: it looks up the files that the command line names, reads standard input
if no file is named, and carries out each stage of a run, with the clock read before it and
its output written after it. What a stage does is said in `PartProgram.Tool.Run`; nothing is
decided here. Entries for the system log are written to standard error, each after its
priority in angle brackets.
-/

namespace PartProgram.Tool

/-- The text of a name or argument. -/
def bytesOfArgument (s : String) : Bytes := s.toUTF8.toList

/-- The name that the host's file functions take. -/
def fileName (name : Bytes) : String := (String.fromUTF8? ⟨name.toArray⟩).getD ""

/-- The bytes to be written. -/
def toOutput (text : Bytes) : ByteArray := ⟨text.toArray⟩

/-- What is found at a location, and whether it is a terminal. -/
def lookUp (l : Location) : IO (Option (Host.Node × Bool)) := do
  try
    let file ← IO.FS.Handle.mk (fileName l.text) .read
    let content ← file.readBinToEnd
    return some (.file content.toList, ← file.isTty)
  catch
    | .noFileOrDirectory .. => return none
    | _ => return some (.directory, false)

/-- The host, as far as the given paths go. -/
def lookAround (paths : List Bytes) : IO Host := do
  let terminal ← (← IO.getStderr).isTty
  let mut terminals : List Location := []
  let mut host : Host := { terminal }
  for l in (paths.flatMap fun path => (Path.ofBytes path).stations).eraseDups do
    match ← lookUp l with
    | some (.file content, isTerminal) =>
      host := { host with files := (l, content) :: host.files }
      if isTerminal then terminals := l :: terminals
    | some (.directory, _) => host := { host with directories := l :: host.directories }
    | none => pure ()
  return { host with terminalAt := terminals.contains }

/-- The host with the clock read again. -/
def withClock (host : Host) : IO Host := do
  let nanos := (← Std.Time.Timestamp.now).toNanosecondsSinceUnixEpoch.val
  let moment : Moment := ⟨nanos.fdiv 1000000000, (nanos.fmod 1000000000).fdiv 1000⟩
  return { host with clock := [moment] }

/-- Carry out one piece of writing. -/
def perform : Write → IO Unit
  | .standardError text => do (← IO.getStderr).write (toOutput text)
  | .systemLog priority message => do
    (← IO.getStderr).write
      (toOutput (ascii "<" ++ Text.numeral priority ++ ascii ">" ++ message ++ [Byte.lf]))
  | .file l text =>
    IO.FS.withFile (fileName l.text) .append fun file => file.write (toOutput text)

/-- Make the files and carry out the writing that `after` has and `before` has not. -/
def publish (before after : Host) : IO Unit := do
  -- A new file may stay empty. Adding nothing to a file that is there does no harm.
  for (l, _) in after.changedSince before do
    perform (.file l [])
  for w in (after.writes.take (after.writes.length - before.writes.length)).reverse do
    perform w

/-- The paths on a command line. -/
def Options.paths (o : Options) : List Bytes := o.config.toList ++ o.logFile.toList ++ o.names

/-- Run the tokenizer on the command line `args`. -/
def execute (args : List Bytes) : IO Status := do
  let (paths, readsInput) := match Options.ofArguments args with
    | .ok o => (o.paths, o.names.isEmpty)
    | .error _ => ([], false)
  let input ← if readsInput then pure (← (← IO.getStdin).readBinToEnd).toList else pure []
  let host ← withClock (← lookAround paths)
  match prepare args input host with
  | .error (status, host') =>
    publish host host'
    return status
  | .ok (job, host₁) =>
    publish host host₁
    let host₁ ← withClock host₁
    let done := job.tokenize host₁
    let ended ← withClock done.session.host
    let outcome := job.conclude { done with session := { done.session with host := ended } }
    let out ← IO.getStdout
    out.write (toOutput outcome.output)
    out.flush
    publish host₁ outcome.host
    return outcome.status

end PartProgram.Tool

/-- The program. -/
def main (args : List String) : IO UInt32 := do
  let status ← PartProgram.Tool.execute (args.map PartProgram.Tool.bytesOfArgument)
  return status.code.toUInt32
