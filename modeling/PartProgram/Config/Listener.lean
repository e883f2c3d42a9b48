import PartProgram.Config.Line
import PartProgram.Text.Message

/-!
# Listeners

Configuration text is presented to a *listener*, line by line. The listener is told of each
section heading and says whether it takes an interest; it is told of the assignments in
sections that it takes an interest in, and says whether it can use them; and it is told of
whatever is wrong.
-/

namespace PartProgram.Config

/-- Somebody who follows configuration text, with a state of type `σ`. Every call comes with
the number of the line, counted from one. -/
structure Listener (σ : Type) where
  /-- A section of this name starts. Answers whether its assignments are of interest. -/
  heading : Nat → Bytes → σ → Bool × σ
  /-- A name and its value. Answers whether they can be used. -/
  assignment : Nat → Bytes → Bytes → σ → Bool × σ
  /-- Something is wrong. -/
  report : Nat → Bytes → σ → σ

/-- Where in the text the listener is. -/
structure Progress where
  /-- The last section that was started properly. -/
  current : Bytes := []
  /-- Whether the assignments that follow are of interest. -/
  interested : Bool := false
  /-- Whether all has been well so far. -/
  clean : Bool := true
  deriving DecidableEq, Repr, Inhabited

/-- The complaint about a heading without its closing bracket. -/
def brokenHeadingText : Bytes := ascii "Section line does not end in ']'"

/-- The complaint about a line that is neither heading nor assignment. -/
def malformedText : Bytes := ascii "name=value pair expected."

/-- The complaint about an assignment that the listener cannot use. -/
def unusableText (current name value : Bytes) : Bytes :=
  Text.message [.fixed "In section [", .text current, .fixed "]: Couldn't handle '", .text name,
    .fixed " = ", .text value, .fixed "'"]

/-- A complaint as it goes to the log. -/
def complaintText (line : Nat) (complaint : Bytes) : Bytes :=
  Text.message [.fixed "Line ", .number line, .fixed ": ", .text complaint]

variable {σ : Type}

/-- Present the line with number `n`. -/
def present (listener : Listener σ) (n : Nat) (p : Progress) (s : σ) : Line → Progress × σ
  | .blank => (p, s)
  | .heading name =>
    let (interested, s') := listener.heading n name s
    ({ p with current := name, interested }, s')
  | .brokenHeading =>
    ({ p with interested := false, clean := false }, listener.report n brokenHeadingText s)
  | .malformed => ({ p with clean := false }, listener.report n malformedText s)
  | .assignment name value =>
    if p.interested then
      match listener.assignment n name value s with
      | (true, s') => (p, s')
      | (false, s') =>
        ({ p with clean := false }, listener.report n (unusableText p.current name value) s')
    else (p, s)

/-- Present lines, the first of which has number `n`. -/
def presentAll (listener : Listener σ) : Nat → Progress → σ → List Line → Progress × σ
  | _, p, s, [] => (p, s)
  | n, p, s, line :: rest =>
    let (p', s') := present listener n p s line
    presentAll listener (n + 1) p' s' rest

/-- Present configuration text to a listener. Answers whether nothing was wrong. -/
def follow (listener : Listener σ) (content : Bytes) (s : σ) : Bool × σ :=
  let (p, s') := presentAll listener 1 {} s ((lines content).map Line.ofBytes)
  (p.clean, s')

end PartProgram.Config
