import PartProgram.Block.Reader

/-!
# Reading

How the reader takes a byte. A byte goes first to the mode that the reader is in
(`dispatch`); one that ends a word or a checksum ends only that and is looked at again in the
mode that follows (`Verdict.again`). Once is enough: `process` looks at a byte at most twice.

On top of that are the ways to read more than a byte: a whole text that ends at the first
fault (`feedText`), the end of the input (`finish`), and a text in which each fault is
handed to somebody and the reader may go on with the next line (`feedAll`).
-/

namespace PartProgram.Block

open Number

variable {σ : Type}

/-! ### Telling the builder -/

namespace Reader

/-- Tell the builder of an event found at the byte `c`; a refusal is a fault. -/
def tell (b : Builder σ) (e : Event) (c : UInt8) (r : Reader) (s : σ) : Reader × σ :=
  match b e s with
  | (.accept, s') => (r, s')
  | (.refuse code, s') => (r.fail (.builder code) c, s')

/-- Tell the builder that a program begins, unless it knows. -/
def ensureStarted (b : Builder σ) (c : UInt8) (r : Reader) (s : σ) : Reader × σ :=
  if r.programStarted then (r, s)
  else match b .programStart s with
    | (.accept, s') => ({ r with programStarted := true }, s')
    | (.refuse code, s') => (r.fail (.builder code) c, s')

/-- Tell the builder of something that belongs to a program. -/
def announce (b : Builder σ) (e : Event) (c : UInt8) (r : Reader) (s : σ) : Reader × σ :=
  let (r', s') := r.ensureStarted b c s
  if r'.failed then (r', s') else r'.tell b e c s'

/-! ### Blocks -/

/-- Whether the declared checksum is wrong. -/
def checksumWrong (rules : Rules) (r : Reader) : Bool :=
  match r.declared with
  | none => false
  | some n => rules.verifyChecksum && n != r.parity.toNat

/-- End the block at the byte `c`. -/
def endBlock (rules : Rules) (b : Builder σ) (c : UInt8) (r : Reader) (s : σ) : Reader × σ :=
  if r.checksumWrong rules then (r.fail .checksum c, s)
  else if r.hasContent then
    let (r', s') := r.announce b .endBlock c s
    if r'.failed then (r', s') else (r'.resetBlock, s')
  else (r.resetBlock, s)

/-! ### Words -/

/-- The address that a byte stands for: a capital letter, `:`, or a small letter where these
are accepted. -/
def addressOf? (rules : Rules) (c : UInt8) : Option UInt8 :=
  if Byte.isLower c && !rules.acceptLowercase then none
  else
    let letter := Byte.toUpper c
    if letter = Byte.colon ∨ Byte.isUpper letter then some letter else none

/-- Start a word with the byte `c` for its address. -/
def startWord (rules : Rules) (place : Place) (c : UInt8) (r : Reader) : Reader :=
  match addressOf? rules c with
  | none => r.fail .invalidCharacter c
  | some letter =>
    if Word.isSequence letter && place != .blockStart then r.fail .misplacedWord c
    else { r with mode := .address ⟨letter, r.column, none⟩, hasContent := true }

/-- Stop because the literal of a word is not a number; the fault is at the word's address. -/
def failWord (r : Reader) (w : Word) (e : Literal.Error) (c : UInt8) : Reader :=
  { r with mode := .failed ⟨.decimal e, r.mode.address?, c, r.line, w.column⟩ }

/-- What the byte `c` does between the parts of a block. -/
def atGap (rules : Rules) (b : Builder σ) (place : Place) (c : UInt8) (r : Reader) (s : σ) :
    Reader × σ :=
  if c = Byte.space ∨ c = Byte.tab ∨ c = Byte.cr then (r, s)
  else if c = Byte.lf then r.endBlock rules b c s
  else if c = Byte.openParen then ({ r with mode := .comment place }, s)
  else if c = Byte.semicolon then ({ r with mode := .lineComment }, s)
  else if place = .afterChecksum then (r.fail .invalidCharacter c, s)
  else if c = Byte.star then
    -- The star has been counted, and is no part of its own checksum.
    ({ r with mode := .checksumStart, parity := r.parity ^^^ Byte.star, declared := some 0 }, s)
  else if c = Byte.slash then
    if place = .blockStart ∧ ¬ r.hasContent then
      ({ r with hasContent := true } : Reader).announce b .blockDelete c s
    else (r.fail .invalidCharacter c, s)
  else if c = Byte.percent then
    if place = .blockStart ∧ ¬ r.hasContent then
      ({ r with mode := .programMarker, programStarted := false }, s)
    else (r.fail .invalidCharacter c, s)
  else (r.startWord rules place c, s)

end Reader

/-! ### One byte -/

/-- What came of looking at a byte. -/
inductive Verdict (σ : Type) where
  /-- The byte is dealt with. -/
  | settled (reader : Reader) (state : σ)
  /-- The byte ended something and has to be looked at again. -/
  | again (reader : Reader) (state : σ)

/-- A byte that can be part of a literal: a digit, a sign or the point. -/
def isLiteralByte (c : UInt8) : Bool :=
  Byte.isDigit c || c == Byte.plus || c == Byte.minus || c == Byte.point

/-- The greatest declared checksum that is told apart; no block has a checksum that large. -/
def maxDeclared : Nat := 0xffff

/-- The declared checksum with one more digit. -/
def appendDeclared (n : Nat) (c : UInt8) : Nat := min (n * 10 + Byte.digitValue c) maxDeclared

namespace Reader

/-- Finish the word `w` with the literal `l`; the byte `c` ends it. -/
def endWord (b : Builder σ) (w : Word) (l : Literal) (c : UInt8) (r : Reader) (s : σ) :
    Verdict σ :=
  match l.finish with
  | .error e => .settled (r.failWord w e c) s
  | .ok number =>
    let (r', s') := r.announce b (w.event number) c s
    if r'.failed then .settled r' s' else .again { r' with mode := .gap .betweenWords } s'

/-- Take the literal `l` for the index of the word `w`, at its `=`. -/
def endIndex (w : Word) (l : Literal) (r : Reader) : Reader :=
  if Word.takesIndex w.address && w.index.isNone && l.isPlainInteger then
    match l.finish with
    | .error e => r.fail (.decimal e) Byte.equals
    | .ok number => { r with mode := .address { w with index := some number.significand } }
  else r.fail .invalidCharacter Byte.equals

/-- Look at the byte `c` in the mode that the reader is in. -/
def dispatch (rules : Rules) (b : Builder σ) (c : UInt8) (r : Reader) (s : σ) : Verdict σ :=
  match r.mode with
  | .gap place =>
    let (r', s') := r.atGap rules b place c s
    .settled r' s'
  | .address w =>
    if c = Byte.space ∨ c = Byte.tab then .settled r s
    else if isLiteralByte c then .again { r with mode := .value w {} } s
    else r.endWord b w {} c s
  | .value w l =>
    if isLiteralByte c then
      match l.step rules.arithmetic c with
      | .error e => .settled (r.fail (.decimal e) c) s
      | .ok l' => .settled { r with mode := .value w l' } s
    else if c = Byte.equals then .settled (r.endIndex w l) s
    else r.endWord b w l c s
  | .comment place =>
    if c = Byte.closeParen then .settled { r with mode := .gap place } s
    else if c = Byte.lf then .settled (r.fail .unterminatedComment c) s
    else .settled r s
  | .lineComment =>
    if c = Byte.lf then
      let (r', s') := r.endBlock rules b c s
      .settled r' s'
    else .settled r s
  | .checksumStart =>
    if Byte.isDigit c then
      .settled { r with mode := .checksum, declared := r.declared.map (appendDeclared · c) } s
    else .settled (r.fail .invalidCharacter c) s
  | .checksum =>
    if Byte.isDigit c then
      .settled { r with declared := r.declared.map (appendDeclared · c) } s
    else .again { r with mode := .gap .afterChecksum } s
  | .programMarker | .skipLine =>
    if c = Byte.lf then .settled r.resetBlock s else .settled r s
  | .failed _ => .settled r s

/-- Deal with the byte `c`, looking at it again if it ended something. -/
def process (rules : Rules) (b : Builder σ) (c : UInt8) (r : Reader) (s : σ) : Reader × σ :=
  match r.dispatch rules b c s with
  | .settled r' s' => (r', s')
  | .again r' s' =>
    match r'.dispatch rules b c s' with
    | .settled r'' s'' | .again r'' s'' => (r'', s'')

/-- Read the byte `c`. A reader that has stopped stays as it is. -/
def feed (rules : Rules) (b : Builder σ) (c : UInt8) (r : Reader) (s : σ) : Reader × σ :=
  if r.failed then (r, s) else (r.advance c).process rules b c s

/-! ### More than a byte -/

/-- Read a text up to the first fault. The Boolean tells whether all of it was read; of an
empty text that is so even if the reader has stopped. -/
def feedText (rules : Rules) (b : Builder σ) : Bytes → Reader → σ → Bool × Reader × σ
  | [], r, s => (true, r, s)
  | c :: cs, r, s =>
    let (r', s') := r.feed rules b c s
    if r'.failed then (false, r', s') else feedText rules b cs r' s'

/-- The end of the input ends the last line, if anything of it is left open. -/
def finish (rules : Rules) (b : Builder σ) (r : Reader) (s : σ) : Reader × σ :=
  if r.failed then (r, s)
  else if r.mode = .blockStart ∧ ¬ r.hasContent then (r, s)
  else r.feed rules b Byte.lf s

/-- Read a text. Each fault is handed to `onFault`; after that the reader goes on with the next
line if `keepGoing`, and stops otherwise. -/
def feedAll (rules : Rules) (b : Builder σ) (onFault : Fault → σ → σ) (keepGoing : Bool) :
    Bytes → Reader → σ → Reader × σ
  | [], r, s => (r, s)
  | c :: cs, r, s =>
    let (r', s') := r.feed rules b c s
    match r'.fault? with
    | none => feedAll rules b onFault keepGoing cs r' s'
    | some f =>
      if keepGoing then feedAll rules b onFault keepGoing cs r'.skipBlock (onFault f s')
      else (r', onFault f s')

/-- The end of the input, with a fault there treated as in the text. -/
def finishAll (rules : Rules) (b : Builder σ) (onFault : Fault → σ → σ) (keepGoing : Bool)
    (r : Reader) (s : σ) : Reader × σ :=
  let (r', s') := r.finish rules b s
  match r'.fault? with
  | none => (r', s')
  | some f => (if keepGoing then r'.skipBlock else r', onFault f s')

end Reader

end PartProgram.Block
