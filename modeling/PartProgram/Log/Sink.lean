import PartProgram.Host
import PartProgram.Log.Record

/-!
# The log

The log goes to one sink at a time: standard error, where it starts, a file, or the system
log. Headers are coloured once a sink has been chosen that is a terminal, and not any more
after one that is not. Choosing a file that cannot be opened leads to the system log, and
leaves the colour as it was. Messages of level debug are dropped unless they are wanted, and never go to the
system log.
-/

namespace PartProgram

namespace Log

/-- Where the log goes. -/
inductive Sink where
  /-- To standard error. -/
  | standardError
  /-- To the end of a file. -/
  | file (location : Location)
  /-- To the system log. -/
  | system
  deriving DecidableEq, Repr, Inhabited

end Log

/-- Whether a sink is a terminal; the system log is none. -/
def Host.isTerminal (h : Host) : Log.Sink → Bool
  | .standardError => h.terminal
  | .file location => h.terminalAt location
  | .system => false

/-- How the program logs. -/
structure Log where
  /-- Where the log goes. -/
  sink : Log.Sink := .standardError
  /-- Whether headers are coloured. -/
  coloured : Bool := false
  /-- Whether messages of level debug are wanted. -/
  debug : Bool := false
  deriving DecidableEq, Repr, Inhabited

namespace Log

/-- The text on standard error when a log file cannot be opened. -/
def cannotOpen (obstacle : Host.Obstacle) : Bytes :=
  ascii "Cannot open logfile: " ++ ascii obstacle.text ++ [Byte.lf]

/-- The log directed to a file; it is made if there is none. -/
def directToFile (l : Log) (path : Bytes) (h : Host) : Log × Host :=
  match h.openToAppend path with
  | .ok (location, h') =>
    ({ l with sink := .file location, coloured := h'.isTerminal (.file location) }, h')
  | .error obstacle => ({ l with sink := .system }, h.put (.standardError (cannotOpen obstacle)))

/-- The log directed to the sink of the given name: `-` is standard error, no name and the empty
name are the system log, and any other name is a file. -/
def direct (l : Log) (name : Option Bytes) (h : Host) : Log × Host :=
  match name.map Text.untilNul with
  | none | some [] => ({ l with sink := .system }, h)
  | some n =>
    if n = ascii "-" then
      ({ l with sink := .standardError, coloured := h.isTerminal .standardError }, h)
    else l.directToFile n h

/-- Whether a message of this level reaches the sink. -/
def passes (l : Log) (level : Level) : Bool :=
  level != .debug || (l.debug && l.sink != .system)

/-- Log a message. -/
def write (l : Log) (level : Level) (message : Bytes) (h : Host) : Host :=
  if l.passes level then
    match l.sink with
    | .system => h.put (.systemLog level.priority (Text.untilNul message))
    | .standardError =>
      let (moment, h') := h.now
      h'.put (.standardError (record l.coloured level moment message))
    | .file location =>
      let (moment, h') := h.now
      h'.put (.file location (record l.coloured level moment message))
  else h

end Log

end PartProgram
