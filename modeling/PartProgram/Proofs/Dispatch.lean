import PartProgram.Block.Feed
import PartProgram.Proofs.LiteralSteps
import Mathlib.Tactic.SplitIfs

/-!
# What a byte does in each mode

One equation for each thing that `Reader.process` can do, so that nothing else has to look into
the dispatch. A byte that starts a number, ends a word or ends a checksum is looked at a second
time; the equations say so by naming the mode in which it is looked at again
(`process_address_literal`, `process_value_end`, `process_checksum_end`). That second look is
always settled, which is why two are enough.
-/

namespace PartProgram.Block

open Number

variable {σ : Type}

/-- What the reader has come to after one look at a byte. -/
def Verdict.reader : Verdict σ → Reader
  | .settled r _ | .again r _ => r

namespace Reader

variable {rules : Rules} {b : Builder σ} {c : UInt8} {r : Reader} {s : σ}

/-! ### Moving on to a byte -/

@[simp] theorem mode_advance (r : Reader) (c : UInt8) : (r.advance c).mode = r.mode := rfl

@[simp] theorem hasContent_advance (r : Reader) (c : UInt8) : (r.advance c).hasContent = r.hasContent := rfl

@[simp] theorem programStarted_advance (r : Reader) (c : UInt8) :
    (r.advance c).programStarted = r.programStarted := rfl

@[simp] theorem atLineStart_advance (r : Reader) (c : UInt8) : (r.advance c).atLineStart = (c == Byte.lf) := rfl

/-! ### Stopping -/

theorem failed_iff : r.failed = true ↔ ∃ f, r.mode = .failed f := by
  rw [failed, fault?]
  cases r.mode <;> simp [Mode.fault?]

theorem failed_of_mode {m : Mode} (h : r.mode = m) : r.failed = m.fault?.isSome := by
  rw [failed, fault?, h]

@[simp] theorem failed_fail (r : Reader) (cause : Cause) (c : UInt8) : (r.fail cause c).failed = true := rfl

@[simp] theorem failed_failWord (r : Reader) (w : Word) (e : Literal.Error) (c : UInt8) :
    (r.failWord w e c).failed = true := rfl

@[simp] theorem failed_resetBlock (r : Reader) : r.resetBlock.failed = false := rfl

theorem feed_of_failed (h : r.failed = true) : r.feed rules b c s = (r, s) := if_pos h

theorem feed_of_not_failed (h : r.failed = false) : r.feed rules b c s = (r.advance c).process rules b c s := by
  rw [feed, if_neg (by simp [h])]

/-! ### Telling the builder -/

theorem announce_of_started {e : Event} (hr : r.failed = false) (hp : r.programStarted = true) :
    r.announce b e c s = r.tell b e c s := by
  simp [announce, ensureStarted, hp, hr]

theorem announce_of_accept {e : Event} {s' : σ} (hr : r.failed = false) (hp : r.programStarted = false)
    (hb : b .programStart s = (.accept, s')) :
    r.announce b e c s = ({ r with programStarted := true } : Reader).tell b e c s' := by
  have hf : ({ r with programStarted := true } : Reader).failed = false := hr
  simp [announce, ensureStarted, hp, hb, hf]

theorem announce_of_refuse {e : Event} {k : Int} {s' : σ} (hp : r.programStarted = false)
    (hb : b .programStart s = (.refuse k, s')) : r.announce b e c s = (r.fail (.builder k) c, s') := by
  simp [announce, ensureStarted, hp, hb]

/-- What comes of telling the builder depends on the reader only by whether a program is running. -/
theorem announce_accepted_or_refused (b : Builder σ) (e : Event) (started : Bool) (s : σ) :
    (∃ s', ∀ (r : Reader) (c : UInt8), r.failed = false → r.programStarted = started →
      r.announce b e c s = ({ r with programStarted := true }, s')) ∨
    ∃ k running s', ∀ (r : Reader) (c : UInt8), r.failed = false → r.programStarted = started →
      r.announce b e c s = (({ r with programStarted := running } : Reader).fail (.builder k) c, s') := by
  -- The event itself, for a program that is running by now.
  have htell : ∀ s₁, (∃ s', ∀ (r : Reader) (c : UInt8), r.programStarted = true → r.tell b e c s₁ = (r, s')) ∨
      ∃ k s', ∀ (r : Reader) (c : UInt8), r.tell b e c s₁ = (r.fail (.builder k) c, s') := by
    intro s₁
    obtain ⟨a, s', ha⟩ : ∃ a s', b e s₁ = (a, s') := ⟨_, _, rfl⟩
    cases a with
    | accept => exact Or.inl ⟨s', fun r c _ => by simp only [tell, ha]⟩
    | refuse k => exact Or.inr ⟨k, s', fun r c => by simp only [tell, ha]⟩
  cases started with
  | true =>
    obtain ⟨s', h⟩ | ⟨k, s', h⟩ := htell s
    · exact Or.inl ⟨s', fun r c hr hp => by rw [announce_of_started hr hp, h r c hp, ← hp]⟩
    · exact Or.inr ⟨k, true, s', fun r c hr hp => by rw [announce_of_started hr hp, h r c, ← hp]⟩
  | false =>
    obtain ⟨a, s₁, ha⟩ : ∃ a s₁, b .programStart s = (a, s₁) := ⟨_, _, rfl⟩
    cases a with
    | refuse k => exact Or.inr ⟨k, false, s₁, fun r c _ hp => by rw [announce_of_refuse hp ha, ← hp]⟩
    | accept =>
      obtain ⟨s', h⟩ | ⟨k, s', h⟩ := htell s₁
      · exact Or.inl ⟨s', fun r c hr hp => by rw [announce_of_accept hr hp ha, h _ c rfl]⟩
      · exact Or.inr ⟨k, true, s', fun r c hr hp => by rw [announce_of_accept hr hp ha, h]⟩

/-- What comes of the end of a block depends on the reader only by whether its checksum is wrong, whether it has
content and whether a program is running. -/
theorem endBlock_reset_or_fault (rules : Rules) (b : Builder σ) (wrong content started : Bool) (s : σ) :
    (∃ running s', ∀ (r : Reader) (c : UInt8), r.failed = false → r.checksumWrong rules = wrong →
      r.hasContent = content → r.programStarted = started →
      r.endBlock rules b c s = (({ r with programStarted := running } : Reader).resetBlock, s')) ∨
    ∃ cause running s', (cause = .checksum ∨ ∃ k, cause = .builder k) ∧ ∀ (r : Reader) (c : UInt8), r.failed = false →
      r.checksumWrong rules = wrong → r.hasContent = content → r.programStarted = started →
      r.endBlock rules b c s = (({ r with programStarted := running } : Reader).fail cause c, s') := by
  cases wrong with
  | true =>
    refine Or.inr ⟨.checksum, started, s, Or.inl rfl, fun r c _ hw _ hp => ?_⟩
    rw [endBlock, if_pos hw, ← hp]
  | false =>
    cases content with
    | false =>
      refine Or.inl ⟨started, s, fun r c _ hw hc hp => ?_⟩
      rw [endBlock, if_neg (by simp [hw]), if_neg (by simp [hc]), ← hp]
    | true =>
      obtain ⟨s', h⟩ | ⟨k, running, s', h⟩ := announce_accepted_or_refused b .endBlock started s
      · refine Or.inl ⟨true, s', fun r c hr hw hc hp => ?_⟩
        have hf : ({ r with programStarted := true } : Reader).failed = false := hr
        rw [endBlock, if_neg (by simp [hw]), if_pos hc, h r c hr hp]
        simp [hf]
      · refine Or.inr ⟨.builder k, running, s', Or.inr ⟨k, rfl⟩, fun r c hr hw hc hp => ?_⟩
        rw [endBlock, if_neg (by simp [hw]), if_pos hc, h r c hr hp]
        simp

/-! ### Between the parts of a block -/

theorem process_gap {place : Place} (hm : r.mode = .gap place) :
    r.process rules b c s = r.atGap rules b place c s := by
  simp only [process, dispatch, hm]

theorem process_advance_gap {place : Place} (hm : r.mode = .gap place) :
    (r.advance c).process rules b c s = (r.advance c).atGap rules b place c s := process_gap hm

/-- The bytes that mean something by themselves between the parts of a block. -/
def gapBytes : Bytes :=
  [Byte.space, Byte.tab, Byte.cr, Byte.lf, Byte.openParen, Byte.semicolon, Byte.star, Byte.slash, Byte.percent]

/-- A blank, which is passed over between the parts of a block. -/
def IsBlank (c : UInt8) : Prop := c = Byte.space ∨ c = Byte.tab ∨ c = Byte.cr

theorem atGap_blank (place : Place) (hc : IsBlank c) : r.atGap rules b place c s = (r, s) := if_pos hc

theorem atGap_lf (place : Place) : r.atGap rules b place Byte.lf s = r.endBlock rules b Byte.lf s := by
  rw [atGap, if_neg (by decide), if_pos rfl]

theorem atGap_openParen (place : Place) :
    r.atGap rules b place Byte.openParen s = ({ r with mode := .comment place }, s) := by
  rw [atGap, if_neg (by decide), if_neg (by decide), if_pos rfl]

theorem atGap_semicolon (place : Place) :
    r.atGap rules b place Byte.semicolon s = ({ r with mode := .lineComment }, s) := by
  rw [atGap, if_neg (by decide), if_neg (by decide), if_neg (by decide), if_pos rfl]

/-- After the checksum only blanks, comments and the end of the line may stand. -/
theorem atGap_afterChecksum (hb : ¬ IsBlank c) (h1 : c ≠ Byte.lf) (h2 : c ≠ Byte.openParen)
    (h3 : c ≠ Byte.semicolon) :
    r.atGap rules b .afterChecksum c s = (r.fail .invalidCharacter c, s) := by
  rw [IsBlank] at hb
  rw [atGap, if_neg hb, if_neg h1, if_neg h2, if_neg h3, if_pos rfl]

theorem atGap_star {place : Place} (hp : place ≠ .afterChecksum) :
    r.atGap rules b place Byte.star s =
      ({ r with mode := .checksumStart, parity := r.parity ^^^ Byte.star, declared := some 0 }, s) := by
  rw [atGap, if_neg (by decide), if_neg (by decide), if_neg (by decide), if_neg (by decide), if_neg hp,
    if_pos rfl]

theorem atGap_slash {place : Place} (hp : place ≠ .afterChecksum) :
    r.atGap rules b place Byte.slash s =
      if place = .blockStart ∧ ¬ r.hasContent then
        ({ r with hasContent := true } : Reader).announce b .blockDelete Byte.slash s
      else (r.fail .invalidCharacter Byte.slash, s) := by
  rw [atGap, if_neg (by decide), if_neg (by decide), if_neg (by decide), if_neg (by decide), if_neg hp,
    if_neg (by decide), if_pos rfl]

theorem atGap_percent {place : Place} (hp : place ≠ .afterChecksum) :
    r.atGap rules b place Byte.percent s =
      if place = .blockStart ∧ ¬ r.hasContent then
        ({ r with mode := .programMarker, programStarted := false }, s)
      else (r.fail .invalidCharacter Byte.percent, s) := by
  rw [atGap, if_neg (by decide), if_neg (by decide), if_neg (by decide), if_neg (by decide), if_neg hp,
    if_neg (by decide), if_neg (by decide), if_pos rfl]

/-- Any other byte starts a word, or is wrong. -/
theorem atGap_word {place : Place} (hp : place ≠ .afterChecksum) (hc : c ∉ gapBytes) :
    r.atGap rules b place c s = (r.startWord rules place c, s) := by
  simp only [gapBytes, List.mem_cons, List.not_mem_nil, or_false, not_or] at hc
  obtain ⟨h1, h2, h3, h4, h5, h6, h7, h8, h9⟩ := hc
  simp only [atGap, h1, h2, h3, h4, h5, h6, h7, h8, h9, hp, if_false, or_false]

/-- All that a byte can do between the parts of a block. -/
theorem atGap_cases {place : Place} (motive : Reader × σ → Prop) (blank : motive (r, s))
    (lineEnd : c = Byte.lf → motive (r.endBlock rules b c s))
    (comment : motive ({ r with mode := .comment place }, s))
    (lineComment : motive ({ r with mode := .lineComment }, s))
    (checksum : motive ({ r with mode := .checksumStart, parity := r.parity ^^^ Byte.star, declared := some 0 }, s))
    (delete : place = .blockStart ∧ ¬ r.hasContent →
      motive (({ r with hasContent := true } : Reader).announce b .blockDelete c s))
    (marker : c = Byte.percent → place = .blockStart ∧ ¬ r.hasContent →
      motive ({ r with mode := .programMarker, programStarted := false }, s))
    (word : motive (r.startWord rules place c, s)) (invalid : motive (r.fail .invalidCharacter c, s)) :
    motive (r.atGap rules b place c s) := by
  rw [atGap]
  refine iteInduction (fun _ => blank) fun _ => ?_
  refine iteInduction lineEnd fun _ => ?_
  refine iteInduction (fun _ => comment) fun _ => ?_
  refine iteInduction (fun _ => lineComment) fun _ => ?_
  refine iteInduction (fun _ => invalid) fun _ => ?_
  refine iteInduction (fun _ => checksum) fun _ => ?_
  refine iteInduction (fun _ => iteInduction delete fun _ => invalid) fun _ => ?_
  exact iteInduction (fun h => iteInduction (marker h) fun _ => invalid) fun _ => word

/-! ### Words -/

theorem process_address_blank {w : Word} (hm : r.mode = .address w) (hc : c = Byte.space ∨ c = Byte.tab) :
    r.process rules b c s = (r, s) := by
  simp only [process, dispatch, hm, if_pos hc]

/-- The first byte of a number is read as one. -/
theorem process_address_literal {w : Word} (hm : r.mode = .address w) (hc : isLiteralByte c) :
    r.process rules b c s = ({ r with mode := .value w {} } : Reader).process rules b c s := by
  have hb : ¬ (c = Byte.space ∨ c = Byte.tab) := by
    rintro (rfl | rfl) <;> exact absurd hc (by decide)
  simp only [process, dispatch, hm, if_neg hb, if_pos hc]
  cases Literal.step rules.arithmetic {} c <;> rfl

/-- Without a number there is no word. -/
theorem process_address_other {w : Word} (hm : r.mode = .address w) (hb : ¬ (c = Byte.space ∨ c = Byte.tab))
    (hc : isLiteralByte c = false) : r.process rules b c s = (r.failWord w .incomplete c, s) := by
  simp [process, dispatch, hm, hb, hc, endWord, Literal.finish]

theorem process_value_literal {w : Word} {l l' : Literal} (hm : r.mode = .value w l) (hc : isLiteralByte c)
    (hl : l.step rules.arithmetic c = .ok l') : r.process rules b c s = ({ r with mode := .value w l' }, s) := by
  simp only [process, dispatch, hm, if_pos hc, hl]

theorem process_value_error {w : Word} {l : Literal} {e : Literal.Error} (hm : r.mode = .value w l)
    (hc : isLiteralByte c) (hl : l.step rules.arithmetic c = .error e) :
    r.process rules b c s = (r.fail (.decimal e) c, s) := by
  simp only [process, dispatch, hm, if_pos hc, hl]

/-- Where an index is taken, its digits are a number. -/
theorem endIndex_eq (w : Word) (l : Literal) (r : Reader) : r.endIndex w l =
    if Word.takesIndex w.address && w.index.isNone && l.isPlainInteger then
      { r with mode := .address { w with index := some l.significand } }
    else r.fail .invalidCharacter Byte.equals := by
  rw [endIndex]
  split_ifs with h
  · rw [Bool.and_eq_true] at h
    rw [Literal.finish_of_isPlainInteger h.2]
  · rfl

theorem process_value_equals {w : Word} {l : Literal} (hm : r.mode = .value w l) (hc : c = Byte.equals) :
    r.process rules b c s = (r.endIndex w l, s) := by
  subst hc
  have hc : isLiteralByte Byte.equals = false := by decide
  simp [process, dispatch, hm, hc]

theorem process_value_incomplete {w : Word} {l : Literal} {e : Literal.Error} (hm : r.mode = .value w l)
    (hc : isLiteralByte c = false) (hq : c ≠ Byte.equals) (hl : l.finish = .error e) :
    r.process rules b c s = (r.failWord w e c, s) := by
  simp [process, dispatch, hm, hc, hq, endWord, hl]

/-- The byte after a word ends the word, and then does what it does between words. -/
theorem process_value_end {w : Word} {l : Literal} {d : Decimal} (hm : r.mode = .value w l)
    (hc : isLiteralByte c = false) (hq : c ≠ Byte.equals) (hl : l.finish = .ok d) :
    r.process rules b c s =
      if (r.announce b (w.event d) c s).1.failed then r.announce b (w.event d) c s
      else ({ (r.announce b (w.event d) c s).1 with mode := .gap .betweenWords } : Reader).atGap rules b
        .betweenWords c (r.announce b (w.event d) c s).2 := by
  simp only [process, dispatch, hm, hc, if_neg hq, endWord, hl]
  cases (r.announce b (w.event d) c s).1.failed <;> simp

theorem process_value_accepted {w : Word} {l : Literal} {d : Decimal} {r' : Reader} {s' : σ} (hm : r.mode = .value w l)
    (hc : isLiteralByte c = false) (hq : c ≠ Byte.equals) (hl : l.finish = .ok d)
    (ha : r.announce b (w.event d) c s = (r', s')) (hr' : r'.failed = false) :
    r.process rules b c s = ({ r' with mode := .gap .betweenWords } : Reader).atGap rules b .betweenWords c s' := by
  rw [process_value_end hm hc hq hl, ha, if_neg (by simp [hr'])]

theorem process_value_refused {w : Word} {l : Literal} {d : Decimal} {r' : Reader} {s' : σ} (hm : r.mode = .value w l)
    (hc : isLiteralByte c = false) (hq : c ≠ Byte.equals) (hl : l.finish = .ok d)
    (ha : r.announce b (w.event d) c s = (r', s')) (hr' : r'.failed = true) : r.process rules b c s = (r', s') := by
  rw [process_value_end hm hc hq hl, ha, if_pos hr']

/-! ### Comments -/

theorem process_comment_close {place : Place} (hm : r.mode = .comment place) (hc : c = Byte.closeParen) :
    r.process rules b c s = ({ r with mode := .gap place }, s) := by
  simp only [process, dispatch, hm, if_pos hc]

theorem process_comment_lf {place : Place} (hm : r.mode = .comment place) :
    r.process rules b Byte.lf s = (r.fail .unterminatedComment Byte.lf, s) := by
  have hc : Byte.lf ≠ Byte.closeParen := by decide
  simp [process, dispatch, hm, hc]

theorem process_comment_other {place : Place} (hm : r.mode = .comment place) (hc : c ≠ Byte.closeParen)
    (hl : c ≠ Byte.lf) : r.process rules b c s = (r, s) := by
  simp only [process, dispatch, hm, if_neg hc, if_neg hl]

theorem process_lineComment_lf (hm : r.mode = .lineComment) :
    r.process rules b Byte.lf s = r.endBlock rules b Byte.lf s := by
  simp [process, dispatch, hm]

theorem process_lineComment_other (hm : r.mode = .lineComment) (hc : c ≠ Byte.lf) :
    r.process rules b c s = (r, s) := by
  simp only [process, dispatch, hm, if_neg hc]

/-! ### Checksums -/

theorem process_checksumStart_digit (hm : r.mode = .checksumStart) (hc : Byte.isDigit c) :
    r.process rules b c s =
      ({ r with mode := .checksum, declared := r.declared.map (appendDeclared · c) }, s) := by
  simp only [process, dispatch, hm, if_pos hc]

theorem process_checksumStart_other (hm : r.mode = .checksumStart) (hc : Byte.isDigit c = false) :
    r.process rules b c s = (r.fail .invalidCharacter c, s) := by
  simp [process, dispatch, hm, hc]

theorem process_checksum_digit (hm : r.mode = .checksum) (hc : Byte.isDigit c) :
    r.process rules b c s = ({ r with declared := r.declared.map (appendDeclared · c) }, s) := by
  simp only [process, dispatch, hm, if_pos hc]

/-- The byte after the digits of a checksum does what it does after the checksum. -/
theorem process_checksum_end (hm : r.mode = .checksum) (hc : Byte.isDigit c = false) :
    r.process rules b c s =
      ({ r with mode := .gap .afterChecksum } : Reader).atGap rules b .afterChecksum c s := by
  simp [process, dispatch, hm, hc]

/-! ### Lines that are passed over -/

theorem process_passed_lf (hm : r.mode = .programMarker ∨ r.mode = .skipLine) :
    r.process rules b Byte.lf s = (r.resetBlock, s) := by
  rcases hm with hm | hm <;> simp [process, dispatch, hm]

theorem process_passed_other (hm : r.mode = .programMarker ∨ r.mode = .skipLine) (hc : c ≠ Byte.lf) :
    r.process rules b c s = (r, s) := by
  rcases hm with hm | hm <;> simp [process, dispatch, hm, hc]

theorem process_failed {f : Fault} (hm : r.mode = .failed f) : r.process rules b c s = (r, s) := by
  simp only [process, dispatch, hm]

/-! ### The line end

What it does where it does not just end the block. -/

theorem process_address_lf {w : Word} (hm : r.mode = .address w) :
    r.process rules b Byte.lf s = (r.failWord w .incomplete Byte.lf, s) :=
  process_address_other hm (by decide) (by decide)

theorem process_value_lf_incomplete {w : Word} {l : Literal} {e : Literal.Error} (hm : r.mode = .value w l)
    (hl : l.finish = .error e) : r.process rules b Byte.lf s = (r.failWord w e Byte.lf, s) :=
  process_value_incomplete hm (by decide) (by decide) hl

theorem process_value_lf {w : Word} {l : Literal} {d : Decimal} (hm : r.mode = .value w l) (hl : l.finish = .ok d) :
    r.process rules b Byte.lf s =
      if (r.announce b (w.event d) Byte.lf s).1.failed then r.announce b (w.event d) Byte.lf s
      else ({ (r.announce b (w.event d) Byte.lf s).1 with mode := .gap .betweenWords } : Reader).endBlock rules b
        Byte.lf (r.announce b (w.event d) Byte.lf s).2 := by
  rw [process_value_end hm (by decide) (by decide) hl, atGap_lf]

theorem process_checksumStart_lf (hm : r.mode = .checksumStart) :
    r.process rules b Byte.lf s = (r.fail .invalidCharacter Byte.lf, s) :=
  process_checksumStart_other hm (by decide)

theorem process_checksum_lf (hm : r.mode = .checksum) :
    r.process rules b Byte.lf s = ({ r with mode := .gap .afterChecksum } : Reader).endBlock rules b Byte.lf s := by
  rw [process_checksum_end hm (by decide), atGap_lf]

/-! ### Every byte leaves the position alone -/

/-- The two readers have the same position. -/
structure SamePosition (r r' : Reader) : Prop where
  line : r'.line = r.line
  column : r'.column = r.column
  atLineStart : r'.atLineStart = r.atLineStart

theorem SamePosition.refl (r : Reader) : SamePosition r r := ⟨rfl, rfl, rfl⟩

theorem SamePosition.trans {r₁ r₂ r₃ : Reader} (h : SamePosition r₁ r₂) (h' : SamePosition r₂ r₃) :
    SamePosition r₁ r₃ :=
  ⟨h'.line.trans h.line, h'.column.trans h.column, h'.atLineStart.trans h.atLineStart⟩

theorem samePosition_tell (b : Builder σ) (e : Event) (c : UInt8) (r : Reader) (s : σ) :
    SamePosition r (r.tell b e c s).1 := by
  rw [tell]
  split <;> exact ⟨rfl, rfl, rfl⟩

theorem samePosition_ensureStarted (b : Builder σ) (c : UInt8) (r : Reader) (s : σ) :
    SamePosition r (r.ensureStarted b c s).1 := by
  rw [ensureStarted]
  split
  · exact SamePosition.refl r
  · split <;> exact ⟨rfl, rfl, rfl⟩

theorem samePosition_announce (b : Builder σ) (e : Event) (c : UInt8) (r : Reader) (s : σ) :
    SamePosition r (r.announce b e c s).1 := by
  have h := samePosition_ensureStarted b c r s
  rw [announce]
  simp only
  split
  · exact h
  · exact h.trans (samePosition_tell b e c _ _)

theorem samePosition_endBlock (rules : Rules) (b : Builder σ) (c : UInt8) (r : Reader) (s : σ) :
    SamePosition r (r.endBlock rules b c s).1 := by
  have h := samePosition_announce b .endBlock c r s
  rw [endBlock]
  split
  · exact ⟨rfl, rfl, rfl⟩
  · split
    · simp only
      split
      · exact h
      · exact h.trans ⟨rfl, rfl, rfl⟩
    · exact ⟨rfl, rfl, rfl⟩

theorem samePosition_startWord (rules : Rules) (place : Place) (c : UInt8) (r : Reader) :
    SamePosition r (r.startWord rules place c) := by
  rw [startWord]
  split
  · exact ⟨rfl, rfl, rfl⟩
  · split <;> exact ⟨rfl, rfl, rfl⟩

theorem samePosition_atGap (rules : Rules) (b : Builder σ) (place : Place) (c : UInt8) (r : Reader) (s : σ) :
    SamePosition r (r.atGap rules b place c s).1 := by
  apply atGap_cases (fun x => SamePosition r x.1)
  case lineEnd => exact fun _ => samePosition_endBlock rules b c r s
  case delete =>
    intro _
    have h := samePosition_announce b .blockDelete c { r with hasContent := true } s
    exact ⟨h.line, h.column, h.atLineStart⟩
  case word => exact samePosition_startWord rules place c r
  case marker => exact fun _ _ => ⟨rfl, rfl, rfl⟩
  case blank | comment | lineComment | checksum | invalid => exact ⟨rfl, rfl, rfl⟩

theorem samePosition_endWord (b : Builder σ) (w : Word) (l : Literal) (c : UInt8) (r : Reader) (s : σ) :
    SamePosition r (r.endWord b w l c s).reader := by
  rw [endWord]
  split
  · exact ⟨rfl, rfl, rfl⟩
  · next number _ =>
    have h := samePosition_announce b (w.event number) c r s
    simp only
    split
    · exact h
    · exact h.trans ⟨rfl, rfl, rfl⟩

theorem samePosition_endIndex (w : Word) (l : Literal) (r : Reader) : SamePosition r (r.endIndex w l) := by
  rw [endIndex_eq]
  split <;> exact ⟨rfl, rfl, rfl⟩

theorem samePosition_dispatch (rules : Rules) (b : Builder σ) (c : UInt8) (r : Reader) (s : σ) :
    SamePosition r (r.dispatch rules b c s).reader := by
  rw [dispatch]
  split
  case h_1 place _ => exact samePosition_atGap rules b place c r s
  case h_2 w _ =>
    split_ifs
    · exact SamePosition.refl r
    · exact ⟨rfl, rfl, rfl⟩
    · exact samePosition_endWord b w {} c r s
  case h_3 w l _ =>
    split_ifs
    · split <;> exact ⟨rfl, rfl, rfl⟩
    · exact samePosition_endIndex w l r
    · exact samePosition_endWord b w l c r s
  case h_4 => split_ifs <;> exact ⟨rfl, rfl, rfl⟩
  case h_5 =>
    split_ifs
    · exact samePosition_endBlock rules b c r s
    · exact SamePosition.refl r
  case h_6 | h_7 | h_8 | h_9 => split_ifs <;> exact ⟨rfl, rfl, rfl⟩
  case h_10 => exact SamePosition.refl r

/-- A byte moves the position when the reader advances to it, and at no other time. -/
theorem samePosition_process (rules : Rules) (b : Builder σ) (c : UInt8) (r : Reader) (s : σ) :
    SamePosition r (r.process rules b c s).1 := by
  have h := samePosition_dispatch rules b c r s
  rw [process]
  split
  · next hd => rwa [hd] at h
  · next r' s' hd =>
    rw [hd] at h
    have h' := samePosition_dispatch rules b c r' s'
    split
    · next hd' => rw [hd'] at h'; exact h.trans h'
    · next hd' => rw [hd'] at h'; exact h.trans h'

end Reader

end PartProgram.Block
