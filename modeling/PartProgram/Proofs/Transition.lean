import PartProgram.Proofs.Dispatch
import Mathlib.Tactic.Tauto

/-!
# All that a byte can do

The equations of `Dispatch` tell what a byte does in a given mode. This module turns them round: one
relation, `Change`, has a case for each way in which a byte can leave the reader, with what must have
held before. What a reader keeps to while it reads is then proved by going through these cases, and
`change_process` is the only proof that goes through the modes.

A byte that ends a word or a checksum is looked at again between the parts of the block, so it does
there what it would do if it had been met there in the first place. `Mode.AtPlace` says when a byte is
looked at between parts, and the cases do not tell the two ways apart. Where the reader stops, `Mode.Stops`
says what can be the matter other than a number, and `Fault.Raised` what the fault is.

The relation leaves out what the reader knows of the program and of the block's content, which
depend on the builder. For the number of a word there is a relation of its own (`Literal.StepKind`).
-/

namespace PartProgram.Block

open Number Reader

variable {σ : Type} {rules : Rules} {b : Builder σ} {c : UInt8} {r r₁ : Reader} {s : σ} {place : Place}

namespace Mode

/-- The word being read, and its number as far as that has been read. -/
def word? : Mode → Option (Word × Literal)
  | address w => some (w, {})
  | value w l => some (w, l)
  | _ => none

/-- In this mode the byte `c` is looked at between the parts of the block, at the place. -/
inductive AtPlace (c : UInt8) : Mode → Place → Prop where
  /-- The reader is there. -/
  | gap (place : Place) : AtPlace c (.gap place) place
  /-- The byte ends a word. -/
  | word {w : Word} {l : Literal} {d : Decimal} : l.finish = .ok d → isLiteralByte c = false → c ≠ Byte.equals →
      AtPlace c (.value w l) .betweenWords
  /-- The byte ends the digits of a checksum. -/
  | checksum : Byte.isDigit c = false → AtPlace c .checksum .afterChecksum

/-- In this mode the byte `c` is passed over. -/
inductive Passes (c : UInt8) : Mode → Prop where
  /-- A blank before a number. -/
  | address {w : Word} : c = Byte.space ∨ c = Byte.tab → Passes c (.address w)
  /-- A byte of a comment. -/
  | comment {place : Place} : c ≠ Byte.closeParen → c ≠ Byte.lf → Passes c (.comment place)
  /-- A byte of a comment that reaches to the end of the line. -/
  | lineComment : c ≠ Byte.lf → Passes c .lineComment
  /-- A byte of a line that starts with `%`. -/
  | programMarker : c ≠ Byte.lf → Passes c .programMarker
  /-- A byte of a line that is given up. -/
  | skipLine : c ≠ Byte.lf → Passes c .skipLine

/-- In this mode the byte `c` can stop the reader for a cause other than a number, and the fault names the address: that
of the word being read, unless the byte has ended the word. -/
inductive Stops (c : UInt8) (m : Mode) : Cause → Option UInt8 → Prop where
  /-- The byte is not allowed. -/
  | invalidCharacter {address : Option UInt8} : address = none ∨ address = m.address? →
      Stops c m .invalidCharacter address
  /-- The byte starts a block number after another word. -/
  | misplacedWord : Stops c m .misplacedWord none
  /-- The line ends in a comment. -/
  | unterminatedComment : c = Byte.lf → Stops c m .unterminatedComment none
  /-- The block ends, and its checksum is wrong. -/
  | checksum : c = Byte.lf → Stops c m .checksum none
  /-- The builder refuses what the byte ends or marks. -/
  | builder {address : Option UInt8} (k : Int) : address = none ∨ address = m.address? → Stops c m (.builder k) address

theorem Stops.ne_decimal {m : Mode} {cause : Cause} {address : Option UInt8} (h : m.Stops c cause address)
    (e : Literal.Error) : cause ≠ .decimal e := by
  cases h <;> simp

end Mode

/-- The readers have the same of the block's checksum, the computed and the declared one. -/
structure SameSum (r r' : Reader) : Prop where
  parity : r'.parity = r.parity
  declared : r'.declared = r.declared

theorem SameSum.refl (r : Reader) : SameSum r r := ⟨rfl, rfl⟩

/-- A reader `r`, moved on to the byte `c`, can become `r'` by dealing with it. -/
inductive Change (rules : Rules) (c : UInt8) (r r' : Reader) : Prop where
  /-- The byte is passed over. -/
  | passed (h : r.mode.Passes c) (mode : r'.mode = r.mode) (sum : SameSum r r')
  /-- A blank between the parts of the block, or the mark of a block that may be skipped. -/
  | gap {place : Place} (h : r.mode.AtPlace c place) (hc : IsBlank c ∨ c = Byte.slash) (mode : r'.mode = .gap place)
      (sum : SameSum r r')
  /-- A comment begins. -/
  | comment {place : Place} (h : r.mode.AtPlace c place) (hc : c = Byte.openParen) (mode : r'.mode = .comment place)
      (sum : SameSum r r')
  /-- A comment that reaches to the end of the line begins. -/
  | lineComment {place : Place} (h : r.mode.AtPlace c place) (hc : c = Byte.semicolon)
      (mode : r'.mode = .lineComment) (sum : SameSum r r')
  /-- The checksum begins. -/
  | star {place : Place} (h : r.mode.AtPlace c place) (hp : place ≠ .afterChecksum) (hc : c = Byte.star)
      (mode : r'.mode = .checksumStart) (parity : r'.parity = r.parity ^^^ Byte.star) (declared : r'.declared = some 0)
  /-- A program ends or is about to begin. -/
  | marker (h : r.mode = .blockStart) (hc : c = Byte.percent) (mode : r'.mode = .programMarker)
      (sum : SameSum r r')
  /-- A word begins. -/
  | word {place : Place} {letter : UInt8} (h : r.mode.AtPlace c place) (hp : place ≠ .afterChecksum)
      (hc : addressOf? rules c = some letter) (mode : r'.mode = .address ⟨letter, r.column, none⟩) (sum : SameSum r r')
  /-- The number of a word begins or goes on. -/
  | number {w : Word} {l l' : Literal} (h : r.mode.word? = some (w, l)) (hl : l.step rules.arithmetic c = .ok l')
      (mode : r'.mode = .value w l') (sum : SameSum r r')
  /-- The number was an index. -/
  | index {w : Word} {l : Literal} (h : r.mode = .value w l) (hc : c = Byte.equals)
      (mode : r'.mode = .address { w with index := some l.significand }) (sum : SameSum r r')
  /-- A comment ends. -/
  | closeParen {place : Place} (h : r.mode = .comment place) (hc : c = Byte.closeParen) (mode : r'.mode = .gap place)
      (sum : SameSum r r')
  /-- The declared checksum begins or goes on. -/
  | digit (h : r.mode = .checksumStart ∨ r.mode = .checksum) (hc : Byte.isDigit c) (mode : r'.mode = .checksum)
      (parity : r'.parity = r.parity) (declared : r'.declared = r.declared.map (appendDeclared · c))
  /-- The line ends, and with it the block or what was passed over. -/
  | lineEnd (hc : c = Byte.lf) (mode : r'.mode = .blockStart) (parity : r'.parity = 0) (declared : r'.declared = none)
  /-- The byte cannot go on the number. -/
  | unfit {w : Word} {l : Literal} {e : Literal.Error} (h : r.mode.word? = some (w, l))
      (hl : l.step rules.arithmetic c = .error e)
      (mode : r'.mode = .failed ⟨.decimal e, some w.address, c, r.line, r.column⟩)
  /-- The byte ends the word too early. -/
  | unfinished {w : Word} {l : Literal} {e : Literal.Error} (h : r.mode.word? = some (w, l))
      (hc : isLiteralByte c = false) (hl : l.finish = .error e)
      (mode : r'.mode = .failed ⟨.decimal e, some w.address, c, r.line, w.column⟩)
  /-- Something else is wrong, or the builder refuses. -/
  | fault {cause : Cause} {address : Option UInt8} (h : r.mode.Stops c cause address)
      (mode : r'.mode = .failed ⟨cause, address, c, r.line, r.column⟩)

/-- A reader `r`, moved on to the byte `c`, can stop there with the fault. -/
inductive Fault.Raised (rules : Rules) (c : UInt8) (r : Reader) : Fault → Prop where
  /-- The byte cannot go on the number. -/
  | unfit {w : Word} {l : Literal} {e : Literal.Error} (h : r.mode.word? = some (w, l))
      (hl : l.step rules.arithmetic c = .error e) :
      Raised rules c r ⟨.decimal e, some w.address, c, r.line, r.column⟩
  /-- The byte ends the word too early. -/
  | unfinished {w : Word} {l : Literal} {e : Literal.Error} (h : r.mode.word? = some (w, l))
      (hc : isLiteralByte c = false) (hl : l.finish = .error e) :
      Raised rules c r ⟨.decimal e, some w.address, c, r.line, w.column⟩
  /-- Something else is wrong, or the builder refuses. -/
  | stopped {cause : Cause} {address : Option UInt8} (h : r.mode.Stops c cause address) :
      Raised rules c r ⟨cause, address, c, r.line, r.column⟩

/-- The fault after a byte is one that the byte raises. -/
theorem Change.raised {r' : Reader} {f : Fault} (h : Change rules c r r') (hr : r.failed = false)
    (hf : r'.fault? = some f) : f.Raised rules c r := by
  rw [fault?] at hf
  cases h with
  | unfit h hl mode =>
    rw [mode] at hf
    cases hf
    exact .unfit h hl
  | unfinished h hc hl mode =>
    rw [mode] at hf
    cases hf
    exact .unfinished h hc hl
  | fault h mode =>
    rw [mode] at hf
    cases hf
    exact .stopped h
  | passed _ mode _ =>
    rw [failed, fault?, ← mode, hf] at hr
    cases hr
  | gap _ _ mode _ | comment _ _ mode _ | lineComment _ _ mode _ | star _ _ _ mode _ _ | marker _ _ mode _
  | word _ _ _ mode _ | number _ _ mode _ | index _ _ mode _ | closeParen _ _ mode _ | digit _ _ mode _ _
  | lineEnd _ mode _ _ =>
    rw [mode] at hf
    cases hf

/-! ### Telling the builder -/

/-- Telling the builder leaves the reader as it was, in a program, or the builder refuses. -/
theorem announce_refused_or_eq (b : Builder σ) (e : Event) (c : UInt8) (s : σ) (hr : r.failed = false) :
    (∃ k, (r.announce b e c s).1.mode = .failed ⟨.builder k, r.mode.address?, c, r.line, r.column⟩) ∨
      (r.announce b e c s).1 = { r with programStarted := true } := by
  obtain ⟨s', h⟩ | ⟨k, running, s', h⟩ := announce_accepted_or_refused b e r.programStarted s
  · exact Or.inr (by rw [h r c hr rfl])
  · exact Or.inl ⟨k, by rw [h r c hr rfl]; rfl⟩

/-- The end of a block resets the reader, or it is a fault: a wrong checksum or a refusal. -/
theorem endBlock_fault_or_reset (rules : Rules) (b : Builder σ) (c : UInt8) (s : σ) (hr : r.failed = false) :
    (∃ cause, (cause = .checksum ∨ ∃ k, cause = .builder k) ∧
        (r.endBlock rules b c s).1.mode = .failed ⟨cause, r.mode.address?, c, r.line, r.column⟩) ∨
      ∃ r₀ : Reader, (r.endBlock rules b c s).1 = r₀.resetBlock := by
  obtain ⟨running, s', h⟩ | ⟨cause, running, s', hcause, h⟩ :=
    endBlock_reset_or_fault rules b (r.checksumWrong rules) r.hasContent r.programStarted s
  · exact Or.inr ⟨_, by rw [h r c hr rfl rfl rfl]⟩
  · exact Or.inl ⟨cause, hcause, by rw [h r c hr rfl rfl rfl]; rfl⟩

/-! ### One byte -/

/-- A fault of its own, of a reader `r` that has got to be `r₁` without moving. -/
theorem change_fail {cause : Cause} (h : r.mode.Stops c cause r₁.mode.address?) (hpos : SamePosition r r₁) :
    Change rules c r (r₁.fail cause c) :=
  Change.fault h (by rw [fail, hpos.line, hpos.column])

/-- A refusal, after which the reader is `r'`. -/
theorem change_refused {k : Int} {address : Option UInt8} {r' : Reader}
    (haddress : address = none ∨ address = r.mode.address?) (hpos : SamePosition r r₁)
    (hm : r'.mode = .failed ⟨.builder k, address, c, r₁.line, r₁.column⟩) : Change rules c r r' := by
  rw [hpos.line, hpos.column] at hm
  exact Change.fault (.builder k haddress) hm

/-- The end of the block by the byte `c`, for a reader `r` that has got to be `r₁` without moving. -/
theorem change_endBlock (hr : r₁.failed = false) (hplain : r₁.mode.address? = none) (hc : c = Byte.lf)
    (hpos : SamePosition r r₁) (s : σ) : Change rules c r (r₁.endBlock rules b c s).1 := by
  obtain ⟨cause, hcause, hm⟩ | ⟨r₀, h⟩ := endBlock_fault_or_reset rules b c s hr
  · rw [hplain, hpos.line, hpos.column] at hm
    obtain rfl | ⟨k, rfl⟩ := hcause
    · exact Change.fault (.checksum hc) hm
    · exact Change.fault (.builder k (Or.inl rfl)) hm
  · rw [h]
    exact Change.lineEnd hc rfl rfl rfl

theorem change_startWord (hplain : r₁.mode.address? = none) (hplace : r.mode.AtPlace c place)
    (hp : place ≠ .afterChecksum) (hpos : SamePosition r r₁) (hsum : SameSum r r₁) :
    Change rules c r (r₁.startWord rules place c) := by
  rw [startWord]
  split
  · exact change_fail (.invalidCharacter (Or.inl hplain)) hpos
  · next letter hletter =>
    split_ifs
    · exact change_fail (hplain ▸ .misplacedWord) hpos
    · exact Change.word hplace hp hletter (by rw [hpos.column]) ⟨hsum.parity, hsum.declared⟩

/-- A byte between the parts of the block, for a reader `r` that has got to be `r₁` without moving. -/
theorem change_atGap (r₁ : Reader) (hm : r₁.mode = .gap place) (hplace : r.mode.AtPlace c place)
    (hstart : place = .blockStart → r.mode = .blockStart) (hpos : SamePosition r r₁) (hsum : SameSum r r₁) (s : σ) :
    Change rules c r (r₁.atGap rules b place c s).1 := by
  have hr : r₁.failed = false := failed_of_mode hm
  have hplain : r₁.mode.address? = none := by rw [hm]; rfl
  have hinvalid : Change rules c r (r₁.fail .invalidCharacter c) :=
    change_fail (.invalidCharacter (Or.inl hplain)) hpos
  by_cases hblank : IsBlank c
  · rw [atGap_blank place hblank]
    exact Change.gap hplace (Or.inl hblank) hm hsum
  by_cases hlf : c = Byte.lf
  · subst hlf
    rw [atGap_lf]
    exact change_endBlock hr hplain rfl hpos s
  by_cases hopen : c = Byte.openParen
  · subst hopen
    rw [atGap_openParen]
    exact Change.comment hplace rfl rfl ⟨hsum.parity, hsum.declared⟩
  by_cases hsemi : c = Byte.semicolon
  · subst hsemi
    rw [atGap_semicolon]
    exact Change.lineComment hplace rfl rfl ⟨hsum.parity, hsum.declared⟩
  by_cases hp : place = .afterChecksum
  · subst hp
    rw [atGap_afterChecksum hblank hlf hopen hsemi]
    exact hinvalid
  by_cases hstar : c = Byte.star
  · subst hstar
    rw [atGap_star hp]
    exact Change.star hplace hp rfl rfl (by rw [hsum.parity]) rfl
  by_cases hslash : c = Byte.slash
  · subst hslash
    rw [atGap_slash hp]
    split_ifs
    · obtain ⟨k, hk⟩ | heq :=
          announce_refused_or_eq b .blockDelete Byte.slash s (r := { r₁ with hasContent := true }) hr
      · exact change_refused (Or.inl hplain) hpos hk
      · rw [heq]
        exact Change.gap hplace (Or.inr rfl) hm ⟨hsum.parity, hsum.declared⟩
    · exact hinvalid
  by_cases hpercent : c = Byte.percent
  · subst hpercent
    rw [atGap_percent hp]
    split_ifs with hmarker
    · exact Change.marker (hstart hmarker.1) rfl rfl ⟨hsum.parity, hsum.declared⟩
    · exact hinvalid
  have hc : c ∉ gapBytes := by
    rw [IsBlank] at hblank
    simp only [gapBytes, List.mem_cons, List.not_mem_nil, or_false]
    tauto
  rw [atGap_word hp hc]
  exact change_startWord hplain hplace hp hpos hsum

/-- A byte in the number of a word, also the first byte of the number. -/
theorem change_process_value (r₁ : Reader) {w : Word} {l : Literal} (hword : r.mode.word? = some (w, l))
    (hm : r₁.mode = .value w l) (hmode : isLiteralByte c = true ∨ r.mode = r₁.mode) (hpos : SamePosition r r₁)
    (hsum : SameSum r r₁) (s : σ) : Change rules c r (r₁.process rules b c s).1 := by
  have hr : r₁.failed = false := failed_of_mode hm
  have haddress : r₁.mode.address? = some w.address := by rw [hm]; rfl
  cases hc : isLiteralByte c with
  | true =>
    cases hl : l.step rules.arithmetic c with
    | ok l' =>
      rw [process_value_literal hm hc hl]
      exact Change.number hword hl rfl ⟨hsum.parity, hsum.declared⟩
    | error e =>
      rw [process_value_error hm hc hl]
      exact Change.unfit hword hl (by rw [fail, haddress, hpos.line, hpos.column])
  | false =>
    have hvalue : r.mode = .value w l := by
      rw [← hm]
      exact hmode.resolve_left (by simp [hc])
    have hsame : r₁.mode.address? = r.mode.address? := by rw [hm, hvalue]
    by_cases hq : c = Byte.equals
    · rw [process_value_equals hm hq, endIndex_eq]
      split_ifs
      · exact Change.index hvalue hq rfl ⟨hsum.parity, hsum.declared⟩
      · exact hq ▸ change_fail (.invalidCharacter (Or.inr hsame)) hpos
    · cases hl : l.finish with
      | error e =>
        rw [process_value_incomplete hm hc hq hl]
        exact Change.unfinished hword hc hl (by rw [failWord, haddress, hpos.line])
      | ok d =>
        rw [process_value_end hm hc hq hl]
        obtain ⟨k, hk⟩ | heq := announce_refused_or_eq b (w.event d) c s hr
        · have hf : (r₁.announce b (w.event d) c s).1.failed = true := failed_of_mode hk
          rw [if_pos hf]
          exact change_refused (Or.inr hsame) hpos hk
        · have hf : (r₁.announce b (w.event d) c s).1.failed = false := by
            rw [heq]
            exact hr
          rw [if_neg (by simp [hf]), heq]
          have hplace : r.mode.AtPlace c .betweenWords := hvalue ▸ Mode.AtPlace.word hl hc hq
          exact change_atGap { r₁ with mode := .gap .betweenWords, programStarted := true } rfl hplace (by simp)
            ⟨hpos.line, hpos.column, hpos.atLineStart⟩ ⟨hsum.parity, hsum.declared⟩ _

/-- **All that a byte can do** to a reader that has not stopped. -/
theorem change_process (rules : Rules) (b : Builder σ) (c : UInt8) (s : σ) (hr : r.failed = false) :
    Change rules c r (r.process rules b c s).1 := by
  have hpos := SamePosition.refl r
  have hsum := SameSum.refl r
  cases hm : r.mode with
  | gap place =>
    rw [process_gap hm]
    exact change_atGap r hm (hm ▸ Mode.AtPlace.gap place) (fun hp => by rw [hm, hp]) hpos hsum s
  | address w =>
    by_cases hb : c = Byte.space ∨ c = Byte.tab
    · rw [process_address_blank hm hb]
      exact Change.passed (hm ▸ Mode.Passes.address hb) rfl hsum
    · have hword : r.mode.word? = some (w, {}) := by rw [hm]; rfl
      cases hc : isLiteralByte c with
      | true =>
        rw [process_address_literal hm hc]
        exact change_process_value { r with mode := .value w {} } hword rfl (Or.inl hc) ⟨rfl, rfl, rfl⟩
          ⟨rfl, rfl⟩ s
      | false =>
        rw [process_address_other hm hb hc]
        have haddress : r.mode.address? = some w.address := by rw [hm]; rfl
        exact Change.unfinished hword hc rfl (by rw [failWord, haddress])
  | value w l =>
    have hword : r.mode.word? = some (w, l) := by rw [hm]; rfl
    exact change_process_value r hword hm (Or.inr rfl) hpos hsum s
  | comment place =>
    by_cases hclose : c = Byte.closeParen
    · rw [process_comment_close hm hclose]
      exact Change.closeParen hm hclose rfl ⟨rfl, rfl⟩
    · by_cases hlf : c = Byte.lf
      · subst hlf
        rw [process_comment_lf hm]
        have hplain : r.mode.address? = none := by rw [hm]; rfl
        exact change_fail (hplain ▸ .unterminatedComment rfl) hpos
      · rw [process_comment_other hm hclose hlf]
        exact Change.passed (hm ▸ Mode.Passes.comment hclose hlf) rfl hsum
  | lineComment =>
    by_cases hlf : c = Byte.lf
    · subst hlf
      rw [process_lineComment_lf hm]
      exact change_endBlock hr (by rw [hm]; rfl) rfl hpos s
    · rw [process_lineComment_other hm hlf]
      exact Change.passed (hm ▸ Mode.Passes.lineComment hlf) rfl hsum
  | checksumStart =>
    cases hc : Byte.isDigit c with
    | true =>
      rw [process_checksumStart_digit hm hc]
      exact Change.digit (Or.inl hm) hc rfl rfl rfl
    | false =>
      rw [process_checksumStart_other hm hc]
      exact change_fail (.invalidCharacter (Or.inr rfl)) hpos
  | checksum =>
    cases hc : Byte.isDigit c with
    | true =>
      rw [process_checksum_digit hm hc]
      exact Change.digit (Or.inr hm) hc hm rfl rfl
    | false =>
      rw [process_checksum_end hm hc]
      have hplace : r.mode.AtPlace c .afterChecksum := hm ▸ Mode.AtPlace.checksum hc
      exact change_atGap { r with mode := .gap .afterChecksum } rfl hplace (by simp) ⟨rfl, rfl, rfl⟩
        ⟨rfl, rfl⟩ s
  | programMarker =>
    by_cases hlf : c = Byte.lf
    · subst hlf
      rw [process_passed_lf (Or.inl hm)]
      exact Change.lineEnd rfl rfl rfl rfl
    · rw [process_passed_other (Or.inl hm) hlf]
      exact Change.passed (hm ▸ Mode.Passes.programMarker hlf) rfl hsum
  | skipLine =>
    by_cases hlf : c = Byte.lf
    · subst hlf
      rw [process_passed_lf (Or.inr hm)]
      exact Change.lineEnd rfl rfl rfl rfl
    · rw [process_passed_other (Or.inr hm) hlf]
      exact Change.passed (hm ▸ Mode.Passes.skipLine hlf) rfl hsum
  | failed f =>
    rw [failed_of_mode hm] at hr
    contradiction

/-- All that reading a byte can do to a reader that has not stopped. -/
theorem change_feed (rules : Rules) (b : Builder σ) (c : UInt8) (s : σ) (hr : r.failed = false) :
    Change rules c (r.advance c) (r.feed rules b c s).1 := by
  rw [feed_of_not_failed hr]
  exact change_process rules b c s hr

/-! ### Where the rules matter -/

theorem process_value_congr {rules' : Rules} {w : Word} {l : Literal} (hm : r.mode = .value w l)
    (hgap : ∀ (r₁ : Reader) (place : Place) (s₁ : σ), r₁.atGap rules' b place c s₁ = r₁.atGap rules b place c s₁)
    (hstep : l.step rules'.arithmetic c = l.step rules.arithmetic c) :
    r.process rules' b c s = r.process rules b c s := by
  cases hc : isLiteralByte c with
  | true =>
    cases hl : l.step rules.arithmetic c with
    | ok l' => rw [process_value_literal hm hc hl, process_value_literal hm hc (hstep.trans hl)]
    | error e => rw [process_value_error hm hc hl, process_value_error hm hc (hstep.trans hl)]
  | false =>
    by_cases hq : c = Byte.equals
    · rw [process_value_equals hm hq, process_value_equals hm hq]
    · cases hl : l.finish with
      | ok d => rw [process_value_end hm hc hq hl, process_value_end hm hc hq hl, hgap]
      | error e => rw [process_value_incomplete hm hc hq hl, process_value_incomplete hm hc hq hl]

/-- Other rules make no difference for a byte if they make none between the parts of a block and none to
the number being read. -/
theorem process_congr_rules {rules' : Rules}
    (hgap : ∀ (r₁ : Reader) (place : Place) (s₁ : σ), r₁.atGap rules' b place c s₁ = r₁.atGap rules b place c s₁)
    (hstep : ∀ w l, r.mode.word? = some (w, l) → l.step rules'.arithmetic c = l.step rules.arithmetic c) :
    r.process rules' b c s = r.process rules b c s := by
  cases hm : r.mode with
  | gap place => rw [process_gap hm, process_gap hm, hgap]
  | address w =>
    by_cases hb : c = Byte.space ∨ c = Byte.tab
    · rw [process_address_blank hm hb, process_address_blank hm hb]
    · cases hc : isLiteralByte c with
      | true =>
        rw [process_address_literal hm hc, process_address_literal hm hc]
        exact process_value_congr rfl hgap (hstep w {} (by rw [hm]; rfl))
      | false => rw [process_address_other hm hb hc, process_address_other hm hb hc]
  | value w l => exact process_value_congr hm hgap (hstep w l (by rw [hm]; rfl))
  | lineComment =>
    by_cases hlf : c = Byte.lf
    · subst hlf
      rw [process_lineComment_lf hm, process_lineComment_lf hm, ← atGap_lf .blockStart, hgap, atGap_lf]
    · rw [process_lineComment_other hm hlf, process_lineComment_other hm hlf]
  | checksum =>
    cases hc : Byte.isDigit c with
    | true => rw [process_checksum_digit hm hc, process_checksum_digit hm hc]
    | false => rw [process_checksum_end hm hc, process_checksum_end hm hc, hgap]
  | comment place =>
    by_cases hclose : c = Byte.closeParen
    · rw [process_comment_close hm hclose, process_comment_close hm hclose]
    · by_cases hlf : c = Byte.lf
      · subst hlf
        rw [process_comment_lf hm, process_comment_lf hm]
      · rw [process_comment_other hm hclose hlf, process_comment_other hm hclose hlf]
  | checksumStart =>
    cases hc : Byte.isDigit c with
    | true => rw [process_checksumStart_digit hm hc, process_checksumStart_digit hm hc]
    | false => rw [process_checksumStart_other hm hc, process_checksumStart_other hm hc]
  | programMarker | skipLine =>
    by_cases hlf : c = Byte.lf
    · subst hlf
      rw [process_passed_lf (by simp [hm]), process_passed_lf (by simp [hm])]
    · rw [process_passed_other (by simp [hm]) hlf, process_passed_other (by simp [hm]) hlf]
  | failed f => rw [process_failed hm, process_failed hm]

theorem feed_congr_rules {rules' : Rules}
    (hgap : ∀ (r₁ : Reader) (place : Place) (s₁ : σ), r₁.atGap rules' b place c s₁ = r₁.atGap rules b place c s₁)
    (hstep : ∀ w l, r.mode.word? = some (w, l) → l.step rules'.arithmetic c = l.step rules.arithmetic c) :
    r.feed rules' b c s = r.feed rules b c s := by
  have h : (r.advance c).process rules' b c s = (r.advance c).process rules b c s := process_congr_rules hgap hstep
  rw [feed, feed, h]

end PartProgram.Block
