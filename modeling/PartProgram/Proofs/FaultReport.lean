import PartProgram.Proofs.Calls
import PartProgram.Proofs.Findings
import PartProgram.Proofs.Position

/-!
# The report of a fault hangs together

A reader that has stopped keeps what it knows of the fault, and a report tells it in one record with a field for
everything, used or not. For every reader that calls can lead to, the fields agree with each other and with the reader
(`Report.Consistent`).

A fault names the word being read if the byte is looked at there, which its cause decides in part (`Fault.Sound`).
Its place is in the reader's line and not behind the reader: that is plain where it points at the byte being read, and
where it points at the address of a word, the word must have begun in the same line. Counting stops at the greatest
number, but it never goes back within a line (`Measured`).
-/

namespace PartProgram.Block

open Number Reader

variable {σ : Type} {rules : Rules} {b : Builder σ} {c : UInt8} {r r' : Reader} {s : σ}

/-! ### What a fault names -/

/-- A byte that can be the address of a word. -/
def IsAddress (a : UInt8) : Prop := a = Byte.colon ∨ Byte.isUpper a

theorem IsAddress.ne_nul {a : UInt8} (h : IsAddress a) : a ≠ Byte.nul := by
  rintro rfl
  rcases h with h | h <;> contradiction

/-- What a fault names agrees with its cause. -/
structure Fault.Sound (f : Fault) : Prop where
  address : ∀ a, f.address = some a → IsAddress a
  named : ∀ e, f.cause = .decimal e → f.address ≠ none
  unnamed : f.cause = .misplacedWord ∨ f.cause = .unterminatedComment ∨ f.cause = .checksum → f.address = none
  atLineEnd : f.cause = .unterminatedComment ∨ f.cause = .checksum → f.character = Byte.lf

theorem Mode.exists_word_of_address? {m : Mode} {a : UInt8} (h : m.address? = some a) :
    ∃ w l, m.word? = some (w, l) ∧ w.address = a := by
  cases m with
  | address w => exact ⟨w, {}, rfl, Option.some.inj h⟩
  | value w l => exact ⟨w, l, rfl, Option.some.inj h⟩
  | _ => cases h

theorem Reachable.isAddress (h : Reachable rules r) {a : UInt8} (ha : r.mode.address? = some a) : IsAddress a := by
  obtain ⟨w, l, hword, rfl⟩ := Mode.exists_word_of_address? ha
  exact (h.word hword).1

/-- The number of a word is wrong. -/
theorem sound_decimal {e : Literal.Error} {a : UInt8} (ha : IsAddress a) (c : UInt8) (line column : Nat) :
    Fault.Sound ⟨.decimal e, some a, c, line, column⟩ where
  address := by
    rintro a' ⟨⟩
    exact ha
  named := by simp
  unnamed := by simp
  atLineEnd := by simp

/-- Something else is wrong. -/
theorem Mode.Stops.sound {m : Mode} {cause : Cause} {address : Option UInt8} (h : m.Stops c cause address)
    (ha : ∀ a, m.address? = some a → IsAddress a) (line column : Nat) :
    Fault.Sound ⟨cause, address, c, line, column⟩ where
  address := by
    intro a haddress
    cases h with
    | invalidCharacter h | builder _ h =>
      rcases h with rfl | rfl
      · cases haddress
      · exact ha a haddress
    | _ => cases haddress
  named e he := absurd he (h.ne_decimal e)
  unnamed hcause := by
    cases h with
    | invalidCharacter | builder => simp at hcause
    | _ => rfl
  atLineEnd hcause := by
    cases h with
    | unterminatedComment hc | checksum hc => exact hc
    | _ => simp at hcause

/-- The fault of a reachable reader is sound. -/
theorem Reachable.sound (h : Reachable rules r) {f : Fault} (hf : r.fault? = some f) : f.Sound := by
  induction h with
  | new => cases hf
  | skipBlock _ _ =>
    rw [Reader.skipBlock, fault?] at hf
    split at hf <;> cases hf
  | @feed σ r b c s h ih =>
    cases hr : r.failed with
    | true =>
      rw [feed_of_failed hr] at hf
      exact ih hf
    | false =>
      cases (change_feed rules b c s hr).raised hr hf with
      | unfit hword _ | unfinished hword _ _ => exact sound_decimal (h.word hword).1 c _ _
      | stopped hstops => exact hstops.sound (fun a ha => h.isAddress ha) _ _

/-! ### Where a fault is -/

/-- Line and column can be told, and the word being read or the fault is in the line, not behind the reader. -/
structure Measured (r : Reader) : Prop where
  line_le : r.line ≤ maxPosition
  column_le : r.column ≤ maxPosition
  word : ∀ {w : Word} {l : Literal}, r.mode.word? = some (w, l) → 1 ≤ w.column ∧ w.column ≤ r.column
  fault : ∀ {f : Fault}, r.fault? = some f → f.line = r.line ∧ 1 ≤ f.column ∧ f.column ≤ r.column

theorem nextPosition_le {n : Nat} (h : n ≤ maxPosition) : nextPosition n ≤ maxPosition := by
  rw [nextPosition]
  split_ifs <;> omega

theorem le_nextPosition (n : Nat) : n ≤ nextPosition n := by
  rw [nextPosition]
  split_ifs <;> omega

theorem nextPosition_pos (n : Nat) : 1 ≤ nextPosition n := by
  rw [nextPosition, maxPosition]
  split_ifs <;> omega

/-- A reader in a word is within its line. -/
theorem Reachable.atLineStart_of_word (h : Reachable rules r) {x : Word × Literal} (hx : r.mode.word? = some x) :
    r.atLineStart = false := by
  by_contra hstart
  have hr : r.failed = false := by
    rw [failed, fault?]
    cases hm : r.mode <;> simp [hm, Mode.word?, Mode.fault?] at hx ⊢
  have hmode : r.mode = .blockStart := congrArg Reader.mode (h.atLine hr (by simpa using hstart))
  rw [hmode] at hx
  cases hx

/-- Moving on to a byte keeps the word where it was. -/
theorem Measured.word_advance (h : Measured r) (hreach : Reachable rules r) (c : UInt8) {w : Word} {l : Literal}
    (hword : r.mode.word? = some (w, l)) : 1 ≤ w.column ∧ w.column ≤ (r.advance c).column := by
  obtain ⟨hpos, hle⟩ := h.word hword
  refine ⟨hpos, hle.trans ?_⟩
  rw [advance, hreach.atLineStart_of_word hword]
  exact le_nextPosition r.column

theorem Measured.feed (h : Measured r) (hreach : Reachable rules r) (hr : r.failed = false) (b : Builder σ) (c : UInt8)
    (s : σ) : Measured (r.feed rules b c s).1 := by
  have hsame := samePosition_feed rules b c s hr
  have hchange := change_feed rules b c s hr
  have hcolumn : 1 ≤ (r.advance c).column := nextPosition_pos _
  constructor
  case line_le =>
    rw [hsame.line]
    show (if r.atLineStart then nextPosition r.line else r.line) ≤ maxPosition
    split_ifs
    · exact nextPosition_le h.line_le
    · exact h.line_le
  case column_le =>
    rw [hsame.column]
    refine nextPosition_le ?_
    split_ifs
    · exact Nat.zero_le _
    · exact h.column_le
  case word =>
    intro w l hword
    rw [hsame.column]
    cases hchange with
    | passed _ mode _ =>
      rw [mode] at hword
      exact h.word_advance hreach c hword
    | word _ _ _ mode _ =>
      rw [mode] at hword
      cases hword
      exact ⟨hcolumn, le_rfl⟩
    | number hbefore _ mode _ =>
      rw [mode] at hword
      cases hword
      exact h.word_advance hreach c hbefore
    | @index w₀ l₀ hbefore _ mode _ =>
      -- The index belongs to the word, which stays where it is.
      have hvalue : r.mode.word? = some (w₀, l₀) := congrArg Mode.word? hbefore
      rw [mode] at hword
      cases hword
      exact (h.word_advance hreach c hvalue :)
    | _ => simp_all [Mode.word?]
  case fault =>
    intro f hf
    rw [hsame.line, hsame.column]
    -- Only a number that is not finished is told at the address of its word.
    cases hchange.raised hr hf with
    | unfit _ _ | stopped _ => exact ⟨rfl, hcolumn, le_rfl⟩
    | unfinished hword _ _ => exact ⟨rfl, h.word_advance hreach c hword⟩

theorem Reachable.measured (h : Reachable rules r) : Measured r := by
  induction h with
  | new => exact ⟨Nat.zero_le _, Nat.zero_le _, (by cases ·), (by cases ·)⟩
  | @feed σ r b c s h ih =>
    cases hr : r.failed with
    | true => rwa [feed_of_failed hr]
    | false => exact ih.feed h hr b c s
  | @skipBlock r _ ih =>
    have hmode : r.skipBlock.mode = .blockStart ∨ r.skipBlock.mode = .skipLine := by
      rw [Reader.skipBlock]
      split_ifs <;> simp
    refine ⟨ih.line_le, ih.column_le, fun hword => ?_, fun hf => ?_⟩
    · rcases hmode with hmode | hmode <;> rw [hmode] at hword <;> cases hword
    · rw [fault?] at hf
      rcases hmode with hmode | hmode <;> rw [hmode] at hf <;> cases hf

/-! ### Reports -/

/-- The fields of the report agree with each other and with the reader. -/
structure Report.Consistent (x : Report) (r : Reader) : Prop where
  failed_iff : r.failed = true ↔ x.kind ≠ 0
  default : r.failed = false → x = {}
  decimal_iff : ∀ e, x.kind = (Cause.decimal e).code ↔ x.decimal ≠ 0
  builder : x.builder ≠ 0 → ∃ k, x.kind = (Cause.builder k).code
  address : x.address = Byte.nul ∨ IsAddress x.address
  named : ∀ e, x.kind = (Cause.decimal e).code → x.address ≠ Byte.nul
  unnamed : x.kind = Cause.misplacedWord.code ∨ x.kind = Cause.unterminatedComment.code ∨
    x.kind = Cause.checksum.code → x.address = Byte.nul
  atLineEnd : x.kind = Cause.unterminatedComment.code ∨ x.kind = Cause.checksum.code → x.character = Byte.lf
  position : r.failed = true → x.line = r.line ∧ 1 ≤ x.column ∧ x.column ≤ r.column

theorem report_of_none (h : r.fault? = none) : r.report = {} := by
  rw [report, h]

theorem report_of_some {f : Fault} (h : r.fault? = some f) : r.report = f.report := by
  rw [report, h]

theorem failed_of_some {f : Fault} (h : r.fault? = some f) : r.failed = true := by
  rw [failed, h]
  rfl

theorem Fault.Sound.report_address {f : Fault} (h : f.Sound) :
    f.report.address = Byte.nul ∨ IsAddress f.report.address := by
  rw [Fault.report]
  cases haddress : f.address with
  | none => exact Or.inl rfl
  | some a => exact Or.inr (h.address a haddress)

theorem consistent_of_none (h : r.fault? = none) : r.report.Consistent r := by
  have hr : r.failed = false := fault?_eq_none_iff.mp h
  rw [report_of_none h]
  refine ⟨by simp [hr], fun _ => rfl, by simp [Cause.code], by simp, Or.inl rfl, by simp [Cause.code],
    by simp [Cause.code], by simp [Cause.code], by simp [hr]⟩

theorem consistent_of_some {f : Fault} (h : r.fault? = some f) (hsound : f.Sound) (hmeasured : Measured r) :
    r.report.Consistent r := by
  have hr : r.failed = true := failed_of_some h
  rw [report_of_some h]
  obtain ⟨cause, address, character, line, column⟩ := f
  constructor
  case failed_iff => cases cause <;> simp [Fault.report, Cause.code, hr]
  case default => simp [hr]
  case decimal_iff =>
    intro e
    cases cause with
    | decimal e' => cases e' <;> simp [Fault.report, Cause.code, Cause.decimalCode, Literal.Error.code]
    | _ => simp [Fault.report, Cause.code, Cause.decimalCode]
  case builder => cases cause <;> simp [Fault.report, Cause.code, Cause.builderCode]
  case address => exact hsound.report_address
  case named =>
    intro e hkind
    cases cause with
    | decimal e' =>
      cases address with
      | none => exact absurd rfl (hsound.named e' rfl)
      | some a => exact (hsound.address a rfl).ne_nul
    | _ => cases hkind
  case unnamed =>
    intro hkind
    have haddress : address = none := hsound.unnamed (by cases cause <;> simp_all [Fault.report, Cause.code])
    rw [haddress]
    rfl
  case atLineEnd =>
    intro hkind
    exact hsound.atLineEnd (by cases cause <;> simp_all [Fault.report, Cause.code])
  case position => exact fun _ => hmeasured.fault h

/-- **Every report hangs together.** Whatever is called on a new reader, and whatever the builder answers: there is a
fault in the report exactly if the reader has stopped, and otherwise nothing. An error in a number is told exactly with
the faults that are about one, and a builder's code only with a refusal. The address is that of a word or none: always
one with a wrong number, and never with a misplaced word, an open comment or a wrong checksum, of which the last two
are found at a line end. The place is in the reader's line, not behind the reader. -/
theorem reports_consistent (rules : Rules) (b : Builder σ) (calls : List Call) (s : σ) :
    (run rules b calls s).1.report.Consistent (run rules b calls s).1 := by
  have h := reachable_run rules b calls s
  cases hf : (run rules b calls s).1.fault? with
  | none => exact consistent_of_none hf
  | some f => exact consistent_of_some hf (h.sound hf) h.measured

end PartProgram.Block
