import PartProgram.Host.Moment

/-!
# Log records

A record in the log is a header with the level and the moment, the message cut to its first
1023 bytes, and a line end unless the message brings one. On a terminal the header stands
out in bold and in the colour of its level.
-/

namespace PartProgram.Log

/-- How important a message is. -/
inductive Level where
  /-- Of interest to somebody looking for a mistake. -/
  | debug
  /-- Worth knowing. -/
  | info
  /-- Something went wrong. -/
  | error
  deriving DecidableEq, Repr, Inhabited

namespace Level

/-- The level's priority in the system log. -/
def priority : Level → Nat
  | debug => 7
  | info => 6
  | error => 3

/-- The level at the front of a record. -/
def title : Level → Bytes
  | debug => ascii "DEBUG "
  | info => ascii "INFO  "
  | error => ascii "ERROR "

/-- What switches a terminal to the level's colour. -/
def colour : Level → Bytes
  | debug => ascii "\x1b[34m"
  | info => []
  | error => ascii "\x1b[31m"

end Level

/-- What switches a terminal to bold. -/
def bold : Bytes := ascii "\x1b[1m"

/-- What switches a terminal back to plain text. -/
def plain : Bytes := ascii "\x1b[0m"

/-- The front of a record. -/
def header (coloured : Bool) (level : Level) (moment : Moment) : Bytes :=
  (if coloured then bold ++ level.colour else []) ++ level.title ++ ascii "[" ++ moment.text ++
    ascii "]" ++ (if coloured then plain else []) ++ ascii " "

/-- The longest message of a record. -/
def maxMessage : Nat := 1023

/-- The message as it stands in a record. -/
def body (message : Bytes) : Bytes := (Text.untilNul message).take maxMessage

/-- A text with a line end, unless it has one already. -/
def terminated (text : Bytes) : Bytes :=
  if text.getLast? = some Byte.lf then text else text ++ [Byte.lf]

/-- The record of a message. -/
def record (coloured : Bool) (level : Level) (moment : Moment) (message : Bytes) : Bytes :=
  header coloured level moment ++ terminated (body message)

end PartProgram.Log
