import PartProgram.Number.Significand
import PartProgram.Text.Integer

/-!
# Command-line options

Options are single letters after a dash. Letters may share one dash; the value of an option
that needs one is the rest of its argument or, if nothing is left there, the next argument,
whatever that looks like. Options and the name of the input may come in any order, `--` ends
the options, and a dash alone is a name. Options take effect in order, so the first thing
that is wrong, or a request for help, ends the reading of the command line.
-/

namespace PartProgram.Tool

open Number

/-- An option that needs a value. -/
inductive Valued where
  /-- The number of bits of significands, `-b`. -/
  | width
  /-- The configuration file, `-c`. -/
  | config
  /-- The log file, `-l`. -/
  | logFile
  deriving DecidableEq, Repr, Inhabited

/-- An option that stands alone. -/
inductive Switch where
  /-- Go on after a fault, `-k`. -/
  | keepGoing
  /-- Print only the summary, `-q`. -/
  | quiet
  /-- Scale by shifting and adding, `-S`. -/
  | shiftAdd
  /-- Log messages of level debug too, `-v`. -/
  | verbose
  deriving DecidableEq, Repr, Inhabited

/-- What an option letter means. -/
inductive Letter where
  /-- An option that needs a value. -/
  | valued (v : Valued)
  /-- An option that stands alone. -/
  | switch (s : Switch)
  /-- A request for help, `-h`. -/
  | help
  deriving DecidableEq, Repr, Inhabited

/-- The byte of an option that needs a value. -/
def Valued.byte : Valued → UInt8
  | .width => 0x62
  | .config => 0x63
  | .logFile => 0x6c

/-- The meaning of a byte as an option letter. -/
def Letter.ofByte? (c : UInt8) : Option Letter :=
  if c = Valued.width.byte then some (.valued .width)
  else if c = Valued.config.byte then some (.valued .config)
  else if c = Valued.logFile.byte then some (.valued .logFile)
  else if c = 0x68 then some .help
  else if c = 0x6b then some (.switch .keepGoing)
  else if c = 0x71 then some (.switch .quiet)
  else if c = 0x53 then some (.switch .shiftAdd)
  else if c = 0x76 then some (.switch .verbose)
  else none

/-- What the command line asks for. -/
structure Options where
  /-- The configuration file. -/
  config : Option Bytes := none
  /-- The log file. -/
  logFile : Option Bytes := none
  /-- The width of significands. -/
  width : Option Width := none
  /-- Whether to scale by shifting and adding. -/
  shiftAdd : Bool := false
  /-- Whether to go on after a fault. -/
  keepGoing : Bool := false
  /-- Whether to print only the summary. -/
  quiet : Bool := false
  /-- Whether to log messages of level debug. -/
  verbose : Bool := false
  /-- The names that are no options, of which there may be one. -/
  names : List Bytes := []
  deriving DecidableEq, Repr, Inhabited

/-- Why the program ends with its usage. -/
inductive Refusal where
  /-- There is no such option. -/
  | unknownOption (letter : UInt8)
  /-- An option has not got the value that it needs. -/
  | missingValue (option : Valued)
  /-- The number of bits is none that there are significands of. -/
  | badWidth
  /-- Help was asked for. -/
  | help
  /-- There is more than one input. -/
  | tooManyInputs
  deriving DecidableEq, Repr, Inhabited

namespace Options

/-- The options with a switch set. -/
def set (o : Options) : Switch → Options
  | .keepGoing => { o with keepGoing := true }
  | .quiet => { o with quiet := true }
  | .shiftAdd => { o with shiftAdd := true }
  | .verbose => { o with verbose := true }

/-- The options with the value of an option. -/
def setValue (o : Options) (v : Valued) (value : Bytes) : Except Refusal Options :=
  match v with
  | .config => .ok { o with config := some value }
  | .logFile => .ok { o with logFile := some value }
  | .width =>
    match (Text.int32? value).bind Width.ofBits? with
    | none => .error .badWidth
    | some w => .ok { o with width := some w }

/-- The command line as far as it has been read. -/
structure Scan where
  /-- The options so far. -/
  options : Options := {}
  /-- The option whose value is the next argument. -/
  awaiting : Option Valued := none
  /-- Whether the options have ended. -/
  ended : Bool := false
  deriving DecidableEq, Repr, Inhabited

/-- Read the letters after a dash. -/
def letters (o : Options) : Bytes → Except Refusal Scan
  | [] => .ok { options := o }
  | c :: cs =>
    match Letter.ofByte? c with
    | none => .error (.unknownOption c)
    | some .help => .error .help
    | some (.switch s) => letters (o.set s) cs
    | some (.valued v) =>
      if cs = [] then .ok { options := o, awaiting := some v }
      else (o.setValue v cs).map fun o' => { options := o' }

/-- The options with one more name. -/
def addName (o : Options) (name : Bytes) : Options := { o with names := o.names ++ [name] }

/-- Read one argument. -/
def argument (scan : Scan) (arg : Bytes) : Except Refusal Scan :=
  match scan.awaiting with
  | some v => (scan.options.setValue v arg).map fun o => { options := o }
  | none =>
    if scan.ended then .ok { scan with options := scan.options.addName arg }
    else if arg = ascii "--" then .ok { scan with ended := true }
    else match arg with
      | first :: c :: cs =>
        if first = Byte.minus then letters scan.options (c :: cs)
        else .ok { scan with options := scan.options.addName arg }
      | _ => .ok { scan with options := scan.options.addName arg }

/-- Read the arguments from a point on. -/
def arguments (scan : Scan) : List Bytes → Except Refusal Options
  | [] =>
    match scan.awaiting with
    | some v => .error (.missingValue v)
    | none => .ok scan.options
  | arg :: rest =>
    match argument scan arg with
    | .error e => .error e
    | .ok scan' => arguments scan' rest

/-- Read a command line. An argument ends at its first NUL. -/
def ofArguments (args : List Bytes) : Except Refusal Options :=
  match arguments {} (args.map Text.untilNul) with
  | .error e => .error e
  | .ok o => if o.names.length > 1 then .error .tooManyInputs else .ok o

end Options

/-! ### Usage -/

/-- The name of the program. -/
def programName : String := "gcode-tokenize"

/-- What the program does. -/
def description : Bytes :=
  ascii "Tokenizes G-code and prints one line for each word and block\nthe parser recognizes.\n\n"

/-- How the program is called. -/
def usage : Bytes :=
  ascii "Usage: " ++ ascii programName ++ ascii " [options] [<gcode-file>]\n" ++
  ascii "Reads stdin if no file is given.\n" ++
  ascii "Options:\n" ++
  ascii "\t-c <config>       : Configuration file.\n" ++
  ascii "\t-b <bits>         : Significand bits: 16, 32 or 64 (default 32).\n" ++
  ascii "\t-S                : Use shift-add multiplication strategy.\n" ++
  ascii "\t-k                : Keep going: skip blocks with errors.\n" ++
  ascii "\t-q                : Quiet: only print summary.\n" ++
  ascii "\t-l <logfile>      : Log to file; '-' is stderr (default).\n" ++
  ascii "\t-v                : Verbose: also log debug messages.\n"

/-- What is said before the usage. -/
def Refusal.lead : Refusal → Bytes
  | .unknownOption c =>
    ascii programName ++ ascii ": invalid option -- '" ++ [c] ++ ascii "'\n"
  | .missingValue v =>
    ascii programName ++ ascii ": option requires an argument -- '" ++ [v.byte] ++ ascii "'\n"
  | .badWidth => ascii "-b: expected 16, 32 or 64\n"
  | .help | .tooManyInputs => description

/-- All that is said when the program ends with its usage. -/
def Refusal.text (r : Refusal) : Bytes := r.lead ++ usage

end PartProgram.Tool
