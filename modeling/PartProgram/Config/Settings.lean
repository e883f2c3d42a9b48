import PartProgram.Block.Reader
import PartProgram.Config.Listener
import PartProgram.Config.Value
import PartProgram.Log.Sink

/-!
# Settings of the tokenizer

The tokenizer is set by two sections of configuration text, `gcode-parser` and `tokenize`.
A later assignment wins over an earlier one, and one that cannot be used changes nothing.
-/

namespace PartProgram.Config

open Number

/-- How the tokenizer works. -/
structure Settings where
  /-- What part programs are read with. -/
  rules : Block.Rules := {}
  /-- Whether to go on with the next block after a fault. -/
  keepGoing : Bool := false
  deriving DecidableEq, Repr, Inhabited

/-- Why an assignment cannot be used. -/
inductive Objection where
  /-- The name is not known, or the value has not the right form. -/
  | unusable
  /-- The number of bits is an integer, but none that there are significands of. -/
  | noSuchWidth
  deriving DecidableEq, Repr, Inhabited

/-- The section with the reader's settings. -/
def readerSection : Bytes := ascii "gcode-parser"

/-- The section with the tokenizer's own settings. -/
def tokenizeSection : Bytes := ascii "tokenize"

/-- The way of scaling of the given name. -/
def scaling? (value : Bytes) : Option Scaling :=
  if value = ascii "multiply" then some .multiply
  else if value = ascii "shift-add" then some .shiftAdd
  else none

/-- The width with the given number of bits. -/
def width? (value : Bytes) : Except Objection Width :=
  match int? value with
  | none => .error .unusable
  | some n =>
    match Width.ofBits? n with
    | none => .error .noSuchWidth
    | some w => .ok w

/-- A form that a value must have, or an objection. -/
def required {α : Type} : Option α → Except Objection α
  | none => .error .unusable
  | some a => .ok a

namespace Settings

/-- The settings with the given width. -/
def withWidth (t : Settings) (width : Width) : Settings :=
  { t with rules := { t.rules with arithmetic := { t.rules.arithmetic with width } } }

/-- The settings with the given way of scaling. -/
def withScaling (t : Settings) (scaling : Scaling) : Settings :=
  { t with rules := { t.rules with arithmetic := { t.rules.arithmetic with scaling } } }

/-- The settings after an assignment in one of the two sections. -/
def assign (t : Settings) (current name value : Bytes) : Except Objection Settings :=
  if current = readerSection then
    if name = ascii "accept-lowercase" then
      (required (bool? value)).map fun acceptLowercase =>
        { t with rules := { t.rules with acceptLowercase } }
    else if name = ascii "verify-checksum" then
      (required (bool? value)).map fun verifyChecksum =>
        { t with rules := { t.rules with verifyChecksum } }
    else .error .unusable
  else if current = tokenizeSection then
    if name = ascii "keep-going" then
      (required (bool? value)).map fun keepGoing => { t with keepGoing }
    else if name = ascii "significand-bits" then (width? value).map t.withWidth
    else if name = ascii "mul10-strategy" then (required (scaling? value)).map t.withScaling
    else .error .unusable
  else .error .unusable

/-- The settings in one line, for the log. -/
def summary (t : Settings) : Bytes :=
  Text.message [.fixed "Config: significand ", .number t.rules.arithmetic.width.bits,
    .fixed " bit, ",
    .fixed (if t.rules.arithmetic.scaling = .shiftAdd then "shift-add" else "multiply"),
    .fixed "; lowercase: ", .fixed (if t.rules.acceptLowercase then "yes" else "no"),
    .fixed "; checksum: ", .fixed (if t.rules.verifyChecksum then "verify" else "ignore")]

/-- Settings that are being made. -/
structure Draft where
  /-- The settings so far. -/
  settings : Settings
  /-- The section of the text. -/
  current : Bytes := []
  /-- The host, with what has been logged. -/
  host : Host

/-- The complaint about a number of bits. -/
def noSuchWidthText : Bytes := ascii "significand-bits needs to be 16, 32 or 64"

/-- Log a complaint about a line. -/
def Draft.complain (l : Log) (n : Nat) (complaint : Bytes) (d : Draft) : Draft :=
  { d with host := l.write .error (complaintText n complaint) d.host }

/-- The listener that makes settings, and logs what is wrong. -/
def listener (l : Log) : Listener Draft where
  heading _ name d :=
    (name == readerSection || name == tokenizeSection, { d with current := name })
  assignment n name value d :=
    match d.settings.assign d.current name value with
    | .ok t => (true, { d with settings := t })
    | .error .unusable => (false, d)
    | .error .noSuchWidth => (false, d.complain l n noSuchWidthText)
  report n complaint d := d.complain l n complaint

/-- The settings after configuration text, whether nothing was wrong in it, and the host. -/
def configure (t : Settings) (l : Log) (content : Bytes) (h : Host) : Bool × Settings × Host :=
  let (clean, d) := follow (listener l) content { settings := t, host := h }
  (clean, d.settings, l.write .debug d.settings.summary d.host)

end Settings

end PartProgram.Config
