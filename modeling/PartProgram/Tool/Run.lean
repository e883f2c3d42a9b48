import PartProgram.Block.Feed
import PartProgram.Config.Settings
import PartProgram.Tool.Duration
import PartProgram.Tool.Options
import PartProgram.Tool.Printout

/-!
# A run of the tokenizer

A run has three stages. First the command line is read, the log is directed, the
configuration is read and the input is found (`prepare`). Then the input is read
(`tokenize`), and each fault is logged. Last comes the summary (`conclude`). A run can end
after the first stage, with the usage or because a file is not there.

The input can be the very file that the log goes to. What is logged is then read as well,
so reading goes on in rounds until a round finds nothing new. If it goes on after faults,
it finds the records of the faults, which are faults in turn, and there is no end to it.
Reading stops here after sixteen rounds (`Job.maxRounds`), so that every run has an
outcome; that bound is no part of how the tokenizer works.
-/

namespace PartProgram.Tool

open Number Block Config

/-- How a run ends. -/
inductive Status where
  /-- All was read without a fault. -/
  | success
  /-- The command line ended in the usage. -/
  | usage
  /-- The configuration or the input could not be had. -/
  | unprepared
  /-- There was a fault, or reading failed. -/
  | faulty
  deriving DecidableEq, Repr, Inhabited

/-- The number that the program ends with. -/
def Status.code : Status → Nat
  | success => 0
  | usage => 1
  | unprepared => 2
  | faulty => 3

/-- Where a part program comes from. -/
inductive Source where
  /-- From standard input, of which this is the text. -/
  | standardInput (text : Bytes)
  /-- From a file, named by a path. -/
  | file (path : Bytes) (location : Location)
  /-- From a directory, which can be opened but not read. -/
  | directory (path : Bytes)
  deriving DecidableEq, Repr, Inhabited

/-- The name of a source in messages. -/
def Source.name : Source → Bytes
  | standardInput _ => ascii "<stdin>"
  | file path _ | directory path => path

/-- A run that is ready to start. -/
structure Job where
  /-- How to work. -/
  settings : Settings
  /-- Whether to leave the printout away. -/
  quiet : Bool
  /-- The log. -/
  log : Log
  /-- What to read. -/
  source : Source
  deriving DecidableEq, Repr

/-! ### Preparing -/

/-- The settings that the configuration file makes, if one is named. -/
def readConfig (o : Options) (l : Log) (h : Host) : Except Host (Settings × Host) :=
  match o.config with
  | none => .ok ({}, h)
  | some name =>
    match h.read? name with
    | some content =>
      let (clean, settings, h') := ({} : Settings).configure l content h
      if clean then .ok (settings, h')
      else .error (l.write .error (Text.message [
        .fixed "Exiting. Parse error in configuration file '", .text name, .fixed "'"]) h')
    | none =>
      .error (l.write .error (Text.message [
        .fixed "Cannot read config file '", .text name, .fixed "'"]) h)

/-- The settings with what the command line says about them; it wins. -/
def Options.override (o : Options) (t : Settings) : Settings :=
  let t := match o.width with
    | none => t
    | some w => t.withWidth w
  let t := if o.shiftAdd then t.withScaling .shiftAdd else t
  if o.keepGoing then { t with keepGoing := true } else t

/-- The source that the command line names. -/
def findSource (o : Options) (input : Bytes) (l : Log) (h : Host) : Except Host Source :=
  match o.names with
  | [] => .ok (.standardInput input)
  | name :: _ =>
    match h.find name with
    | .ok (location, .file _) => .ok (.file name location)
    | .ok (_, .directory) => .ok (.directory name)
    | .error obstacle =>
      .error (l.write .error (Text.message [
        .fixed "Cannot open ", .text name, .fixed ": ", .fixed obstacle.text]) h)

/-- The log that the command line asks for. -/
def Options.log (o : Options) (h : Host) : Log × Host :=
  let l : Log := { debug := o.verbose }
  match o.logFile with
  | none => (l, h)
  | some name => l.direct (some name) h

/-- Make ready for a run with these options, standard input holding `input`. -/
def Options.prepare (o : Options) (input : Bytes) (h : Host) : Except Host (Job × Host) :=
  let (l, h) := o.log h
  match readConfig o l h with
  | .error h => .error h
  | .ok (t, h) =>
    match findSource o input l h with
    | .error h => .error h
    | .ok source =>
      let h := l.write .debug (Text.message [.fixed "Tokenizing ", .text source.name]) h
      .ok (⟨o.override t, o.quiet, l, source⟩, h)

/-- Make ready for a run with these arguments. -/
def prepare (args : List Bytes) (input : Bytes) (h : Host) : Except (Status × Host) (Job × Host) :=
  match Options.ofArguments args with
  | .error refusal => .error (.usage, h.put (.standardError refusal.text))
  | .ok o =>
    match o.prepare input h with
    | .error h => .error (.unprepared, h)
    | .ok ready => .ok ready

/-! ### Tokenizing -/

/-- What a run has come to. -/
structure Session where
  /-- The events so far, the latest first. -/
  events : List Event := []
  /-- The faults so far, the latest first. -/
  faults : List Fault := []
  /-- The host. -/
  host : Host

/-- The builder that keeps every event. -/
def Session.keep : Builder Session := fun e s => (.accept, { s with events := e :: s.events })

/-- Keep a fault and log it. -/
def Session.logFault (l : Log) (f : Fault) (s : Session) : Session :=
  { s with faults := f :: s.faults, host := l.write .error f.report.text s.host }

namespace Job

/-- Read more text. -/
def readText (job : Job) : Bytes → Reader → Session → Reader × Session :=
  Reader.feedAll job.settings.rules Session.keep (Session.logFault job.log)
    job.settings.keepGoing

/-- Read the end of the input. -/
def readEnd (job : Job) : Reader → Session → Reader × Session :=
  Reader.finishAll job.settings.rules Session.keep (Session.logFault job.log)
    job.settings.keepGoing

/-- How many rounds a file that grows while it is read is followed for. -/
def maxRounds : Nat := 16

/-- Read the file at a location from an offset on, in at most `rounds` rounds, and its end. -/
def readFile (job : Job) (l : Location) : Nat → Nat → Reader → Session → Reader × Session
  | 0, _, r, s => job.readEnd r s
  | rounds + 1, offset, r, s =>
    match (s.host.contentAt l).drop offset with
    | [] => job.readEnd r s
    | c :: cs =>
      let (r', s') := job.readText (c :: cs) r s
      if r'.failed then (r', s')
      else readFile job l rounds (offset + (c :: cs).length) r' s'

/-- Read the source. The Boolean tells whether reading came to the end. -/
def readSource (job : Job) (s : Session) : Bool × Session :=
  match job.source with
  | .standardInput text =>
    let (r, s) := job.readText text {} s
    let (r, s) := if r.failed then (r, s) else job.readEnd r s
    (!r.failed, s)
  | .file _ location =>
    let (r, s) := job.readFile location maxRounds 0 {} s
    (!r.failed, s)
  | .directory _ =>
    (false, { s with
      host := job.log.write .error (ascii "Reading input: Is a directory") s.host })

end Job

/-- What tokenizing has come to. -/
structure Tokenized where
  /-- When it started. -/
  start : Moment
  /-- Whether reading came to the end. -/
  complete : Bool
  /-- What it has come to. -/
  session : Session

/-- Tokenize the source. -/
def Job.tokenize (job : Job) (h : Host) : Tokenized :=
  let (start, h) := h.now
  let (complete, session) := job.readSource { host := h }
  ⟨start, complete, session⟩

/-! ### Concluding -/

/-- What a run leaves behind. -/
structure Outcome where
  /-- How it ended. -/
  status : Status
  /-- What it printed on standard output. -/
  output : Bytes
  /-- The host after it. -/
  host : Host

/-- The last message of a run. -/
def summary (t : Tally) (faults : Nat) (seconds : Rat) : Bytes :=
  Text.message [.number t.programs, .fixed " program(s), ", .number t.blocks, .fixed " blocks, ",
    .number t.words, .fixed " words, ", .number faults, .fixed " errors in ",
    .text (threePlaces seconds), .fixed "s"]

/-- End a run with its summary. -/
def Job.conclude (job : Job) (done : Tokenized) : Outcome :=
  let s := done.session
  let events := s.events.reverse
  let (stop, h) := s.host.now
  { status := if done.complete && s.faults.isEmpty then .success else .faulty
    output := if job.quiet then [] else printout events
    host := job.log.write .info
      (summary (tally events) s.faults.length (duration done.start stop)) h }

/-- Run the tokenizer with these arguments, standard input holding `input`. -/
def run (args : List Bytes) (input : Bytes) (h : Host) : Outcome :=
  match prepare args input h with
  | .error (status, h) => ⟨status, [], h⟩
  | .ok (job, h) => job.conclude (job.tokenize h)

end PartProgram.Tool
