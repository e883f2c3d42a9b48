import PartProgram.Proofs.FinalLineEnd
import PartProgram.Proofs.Findings
import PartProgram.Proofs.LineReading
import PartProgram.Proofs.RefusedBytes

/-!
# What holds between two bytes

A byte that ends something is looked at again, by a reader that has come out of what was ended. How often that can
happen is not plain from the loop itself (`Looks`): it ends because a byte that is looked at again is at the start
of a number, which takes it, or between the parts of the block, where every byte is dealt with (`dispatch_again_cases`).

What else the reader relies on is true of every reader that calls can lead to (`Reader.Sound`). After an address, or
the mark of an index, nothing of a number has been read, so that the number is what a new literal makes of it
(`AwaitsNumber`); in a number at least one byte has been read; an index that is only digits is a number, and not
negative; a block with content is in a program when it ends, so that no program starts there; and a checksum is
pending only after its star.
-/

namespace PartProgram.Block

open Number Reader

variable {σ : Type} {rules : Rules} {b : Builder σ} {c : UInt8} {r r₁ : Reader} {s s₁ : σ} {w : Word} {l : Literal}
  {n : Nat}

/-! ### Looking again -/

/-- The byte `c`, which the reader `r` has come to, has been looked at `n` times and is still not settled; the next to
look at it is the reader `r₁`. -/
inductive Looks (rules : Rules) (b : Builder σ) (c : UInt8) (r : Reader) (s : σ) : Nat → Reader → σ → Prop where
  /-- The first look. -/
  | first : Looks rules b c r s 0 r s
  /-- Another look, after one that has not settled the byte. -/
  | again {n : Nat} {r₁ r₂ : Reader} {s₁ s₂ : σ} : Looks rules b c r s n r₁ s₁ →
      r₁.dispatch rules b c s₁ = .again r₂ s₂ → Looks rules b c r s (n + 1) r₂ s₂

theorem endWord_again (h : r.endWord b w l c s = .again r₁ s₁) (hr : r.failed = false) :
    r₁ = { r with mode := .gap .betweenWords, programStarted := true } := by
  rw [endWord] at h
  split at h
  · cases h
  · next d _ =>
    simp only at h
    split_ifs at h with hf
    cases h
    obtain ⟨k, hrefused⟩ | haccepted := announce_refused_or_eq b (w.event d) c s hr
    · exact absurd (failed_iff.mpr ⟨_, hrefused⟩) hf
    · rw [haccepted]

/-- A reader that is going to look at a byte again is at the start of a number or between the parts of the block. If
it comes there from a word, a program is running. -/
theorem dispatch_again_cases (h : r.dispatch rules b c s = .again r₁ s₁) :
    (∃ w, r.mode = .address w ∧ isLiteralByte c ∧ r₁ = { r with mode := .value w {} }) ∨
      (∃ w l, r.mode = .value w l ∧ r₁ = { r with mode := .gap .betweenWords, programStarted := true }) ∨
      r.mode = .checksum ∧ r₁ = { r with mode := .gap .afterChecksum } := by
  cases hm : r.mode with
  | gap place => simp [dispatch, hm] at h
  | address w =>
    simp only [dispatch, hm] at h
    split_ifs at h with hb hc
    · cases h
      exact Or.inl ⟨w, rfl, hc, rfl⟩
    · cases h
  | value w l =>
    simp only [dispatch, hm] at h
    split_ifs at h
    · split at h <;> cases h
    · exact Or.inr (Or.inl ⟨w, l, rfl, endWord_again h (failed_of_mode hm)⟩)
  | checksum =>
    simp only [dispatch, hm] at h
    split_ifs at h
    cases h
    exact Or.inr (Or.inr ⟨rfl, rfl⟩)
  | comment | lineComment | checksumStart | programMarker | skipLine | failed =>
    simp only [dispatch, hm] at h
    repeat' split at h
    all_goals cases h

/-- The second look settles the byte. -/
theorem dispatch_settled_of_again (h : r.dispatch rules b c s = .again r₁ s₁) :
    ∃ r₂ s₂, r₁.dispatch rules b c s₁ = .settled r₂ s₂ := by
  obtain ⟨w, -, hc, rfl⟩ | ⟨w, l, -, rfl⟩ | ⟨-, rfl⟩ := dispatch_again_cases h
  · simp only [dispatch, if_pos hc]
    split <;> exact ⟨_, _, rfl⟩
  · exact ⟨_, _, rfl⟩
  · exact ⟨_, _, rfl⟩

/-- There is one look, or a second one. -/
theorem Looks.first_or_second (h : Looks rules b c r s n r₁ s₁) :
    n = 0 ∧ r₁ = r ∧ s₁ = s ∨ n = 1 ∧ r.dispatch rules b c s = .again r₁ s₁ := by
  cases h with
  | first => exact Or.inl ⟨rfl, rfl, rfl⟩
  | again hlooks hagain =>
    cases hlooks with
    | first => exact Or.inr ⟨rfl, hagain⟩
    | again _ hbefore =>
      obtain ⟨r₂, s₂, hsettled⟩ := dispatch_settled_of_again hbefore
      rw [hsettled] at hagain
      cases hagain

/-- What the reader comes to is what the last look settles. -/
theorem exists_looks_settled (rules : Rules) (b : Builder σ) (c : UInt8) (r : Reader) (s : σ) :
    ∃ n r₁ s₁, Looks rules b c r s n r₁ s₁ ∧
      r₁.dispatch rules b c s₁ = .settled (r.process rules b c s).1 (r.process rules b c s).2 := by
  cases hfirst : r.dispatch rules b c s with
  | settled r' s' =>
    refine ⟨0, r, s, .first, ?_⟩
    rw [process, hfirst]
  | again r₁ s₁ =>
    obtain ⟨r₂, s₂, hsecond⟩ := dispatch_settled_of_again hfirst
    refine ⟨1, r₁, s₁, .again .first hfirst, ?_⟩
    simp only [process, hfirst, hsecond]

/-! ### Before a number -/

/-- Nothing of the number of the word `w` has been read. After spaces the reader makes of a number what a new literal
makes of it, whatever was read before, and it misses the number if something else comes. The builder is told nothing. -/
structure Reader.AwaitsNumber (rules : Rules) (w : Word) (r : Reader) : Prop where
  taken : ∀ {τ : Type} (b : Builder τ) (t : τ) {sp p : Bytes} {l : Literal}, Spaces sp → p ≠ [] →
    Reached rules.arithmetic p l → ∃ r', feedText rules b (sp ++ p) r t = (true, r', t) ∧ r'.mode = .value w l
  refused : ∀ {τ : Type} (b : Builder τ) (t : τ) {sp p : Bytes} {c : UInt8} {l : Literal} {e : Literal.Error},
    Spaces sp → Reached rules.arithmetic p l → isLiteralByte c → l.step rules.arithmetic c = .error e →
    ∃ r', feedText rules b (sp ++ p ++ [c]) r t = (false, r', t) ∧
      r'.mode = .failed ⟨.decimal e, some w.address, c, r'.line, r'.column⟩
  missing : ∀ {τ : Type} (b : Builder τ) (t : τ) {sp : Bytes} {c : UInt8}, Spaces sp →
    ¬ (c = Byte.space ∨ c = Byte.tab) → isLiteralByte c = false →
    ∃ r', feedText rules b (sp ++ [c]) r t = (false, r', t) ∧
      r'.mode = .failed ⟨.decimal .incomplete, some w.address, c, r'.line, w.column⟩

theorem feedText_spaces (rules : Rules) (b : Builder σ) {sp : Bytes} (hsp : Spaces sp) (hm : r.mode = .address w)
    (s : σ) : ∃ r', feedText rules b sp r s = (true, r', s) ∧ r'.mode = .address w := by
  induction sp generalizing r with
  | nil => exact ⟨r, rfl, hm⟩
  | cons c sp ih =>
    have hfeed : r.feed rules b c s = (r.advance c, s) := by
      rw [feed_of_not_failed (failed_of_mode hm)]
      exact process_address_blank hm (hsp c (by simp))
    have hadv : (r.advance c).mode = .address w := hm
    rw [feedText_cons_of_feed hfeed (failed_of_mode hadv)]
    exact ih (fun d hd => hsp d (List.mem_cons_of_mem _ hd)) hadv

/-- A number after an address is read from its start. -/
theorem feedText_address (hm : r.mode = .address w) (hc : isLiteralByte c) (p : Bytes) (s : σ) :
    feedText rules b (c :: p) r s = feedText rules b (c :: p) { r with mode := .value w {} } s := by
  have hprocess : (r.advance c).process rules b c s =
      (({ r with mode := .value w {} } : Reader).advance c).process rules b c s :=
    process_address_literal hm hc
  rw [feedText, feedText, feed_of_not_failed (failed_of_mode hm), feed_of_not_failed rfl, hprocess]

/-- A number that goes on is read as the literal reads it. -/
theorem feedText_value (b : Builder σ) {p : Bytes} (hp : (l.feed rules.arithmetic p).error = none)
    (hm : r.mode = .value w l) (s : σ) :
    ∃ r', feedText rules b p r s = (true, r', s) ∧ r'.mode = .value w (l.feed rules.arithmetic p).literal := by
  induction p generalizing r l with
  | nil => exact ⟨r, rfl, hm⟩
  | cons c p ih =>
    obtain ⟨l', hc, hrest, hliteral⟩ := Literal.exists_step_of_feed_cons hp
    have hfeed : r.feed rules b c s = ({ r.advance c with mode := .value w l' }, s) := by
      rw [feed_of_not_failed (failed_of_mode hm)]
      exact process_value_literal hm (isLiteralByte_of_step hc) hc
    rw [feedText_cons_of_feed hfeed rfl, hliteral]
    exact ih hrest rfl

/-- A byte that the literal refuses is a fault in the number. -/
theorem feedText_unfit (b : Builder σ) {e : Literal.Error} (hc : isLiteralByte c)
    (hl : l.step rules.arithmetic c = .error e) (hm : r.mode = .value w l) (s : σ) :
    ∃ r', feedText rules b [c] r s = (false, r', s) ∧
      r'.mode = .failed ⟨.decimal e, some w.address, c, r'.line, r'.column⟩ := by
  have hfeed : r.feed rules b c s = ((r.advance c).fail (.decimal e) c, s) := by
    rw [feed_of_not_failed (failed_of_mode hm)]
    exact process_value_error hm hc hl
  refine ⟨(r.advance c).fail (.decimal e) c, ?_, ?_⟩
  · rw [feedText_singleton, hfeed]
    rfl
  · rw [fail, mode_advance, hm]
    rfl

/-- After an address nothing of the number has been read. -/
theorem awaitsNumber_of_address (rules : Rules) (hm : r.mode = .address w) : r.AwaitsNumber rules w := by
  have htaken : ∀ {τ : Type} (b : Builder τ) (t : τ) {sp p : Bytes} {l : Literal}, Spaces sp → p ≠ [] →
      Reached rules.arithmetic p l → ∃ r', feedText rules b (sp ++ p) r t = (true, r', t) ∧ r'.mode = .value w l := by
    intro τ b t sp p l hsp hp ⟨herror, hliteral⟩
    obtain ⟨r₁, hr₁, hm₁⟩ := feedText_spaces rules b hsp hm t
    obtain ⟨c, p, rfl⟩ := List.exists_cons_of_ne_nil hp
    obtain ⟨l', hstep, -⟩ := Literal.exists_step_of_feed_cons herror
    have hc : isLiteralByte c := isLiteralByte_of_step hstep
    obtain ⟨r', hr', hm'⟩ := feedText_value (r := { r₁ with mode := .value w {} }) b herror rfl t
    refine ⟨r', ?_, hliteral ▸ hm'⟩
    rw [feedText_append_of_true hr₁, feedText_address hm₁ hc, hr']
  constructor
  case taken => exact htaken
  case refused =>
    intro τ b t sp p c l e hsp hreached hc hl
    by_cases hp : p = []
    · -- The first byte of the number is refused, by a new literal.
      subst hp
      obtain rfl : {} = l := hreached.2
      obtain ⟨r₁, hr₁, hm₁⟩ := feedText_spaces rules b hsp hm t
      rw [List.append_nil, feedText_append_of_true hr₁, feedText_address hm₁ hc]
      exact feedText_unfit b hc hl rfl t
    · obtain ⟨r₁, hr₁, hm₁⟩ := htaken b t hsp hp hreached
      rw [feedText_append_of_true hr₁]
      exact feedText_unfit b hc hl hm₁ t
  case missing =>
    intro τ b t sp c hsp hc hliteral
    obtain ⟨r₁, hr₁, hm₁⟩ := feedText_spaces rules b hsp hm t
    have hfeed : r₁.feed rules b c t = ((r₁.advance c).failWord w .incomplete c, t) := by
      rw [feed_of_not_failed (failed_of_mode hm₁)]
      exact process_address_other hm₁ hc hliteral
    refine ⟨(r₁.advance c).failWord w .incomplete c, ?_, ?_⟩
    · rw [feedText_append_of_true hr₁, feedText_singleton, hfeed]
      rfl
    · rw [failWord, mode_advance, hm₁]
      rfl

/-! ### In a number -/

/-- A reachable reader in a number has read some of it. -/
theorem Reachable.exists_taken (h : Reachable rules r) (hm : r.mode = .value w l) :
    ∃ p, p ≠ [] ∧ Reached rules.arithmetic p l := by
  induction h with
  | new => cases hm
  | skipBlock _ _ =>
    rw [Reader.skipBlock] at hm
    split at hm <;> cases hm
  | @feed σ r b c s h ih =>
    cases hr : r.failed with
    | true =>
      rw [feed_of_failed hr] at hm
      exact ih hm
    | false =>
      cases change_feed rules b c s hr with
      | passed _ mode _ => exact ih (mode ▸ hm)
      | number hword hl mode _ =>
        rw [mode] at hm
        cases hm
        obtain ⟨-, p, hp⟩ := h.word hword
        exact ⟨p ++ [c], by simp, hp.append hl⟩
      | _ => simp_all

/-- Digits alone make a number, which is not negative and has no places. -/
theorem exists_finish_of_isPlainInteger {a : Arithmetic} {p : Bytes} (h : Reached a p l)
    (hl : l.isPlainInteger = true) : ∃ i : Nat, l.significand = i ∧ l.finish = .ok ⟨i, 0⟩ := by
  obtain ⟨-, hdigits⟩ := h.isPlainInteger_iff.mp hl
  have hsignificand := (h.significand_of_isDigits hdigits).1
  have hplaces : l.places = 0 := by
    obtain ⟨v, rfl, rfl, -⟩ := h.written
    rw [Written.text_injective (Written.text_ofDigits hdigits).symm]
    rfl
  refine ⟨Text.ofDigits p, hsignificand, ?_⟩
  rw [Literal.finish_of_isPlainInteger hl, hsignificand, hplaces]

theorem feed_equals (b : Builder σ) (hm : r.mode = .value w l) (s : σ) :
    r.feed rules b Byte.equals s = ((r.advance Byte.equals).endIndex w l, s) := by
  rw [feed_of_not_failed (failed_of_mode hm)]
  exact process_value_equals hm rfl

/-! ### At the end of a block -/

/-- The reader ends the block when it looks at the byte. -/
def Reader.EndsBlockAt (c : UInt8) (r : Reader) : Prop :=
  c = Byte.lf ∧ ((∃ place, r.mode = .gap place) ∨ r.mode = .lineComment)

theorem dispatch_of_endsBlockAt (rules : Rules) (b : Builder σ) (h : r.EndsBlockAt c) (s : σ) :
    r.dispatch rules b c s = .settled (r.endBlock rules b c s).1 (r.endBlock rules b c s).2 := by
  obtain ⟨rfl, ⟨place, hm⟩ | hm⟩ := h
  · simp only [dispatch, hm, atGap_lf]
  · simp only [dispatch, hm, if_true]

/-- Where a block can end, or its checksum, a block with content is in a program. -/
theorem InStep.programStarted {entries : List Entry} (h : InStep r entries)
    (hm : (∃ place, r.mode = .gap place) ∨ r.mode = .lineComment ∨ r.mode = .checksum) (hc : r.hasContent = true) :
    r.programStarted = true := by
  have hphase := h.phase
  rw [Phase] at hphase
  obtain ⟨place, hm⟩ | hm | hm := hm <;> rw [hm] at hphase
  · exact hphase.1.2 hc
  · exact hphase.2 hc
  · exact hphase.2 hc

/-- The same for the reader that looks at a byte again. -/
theorem InStep.programStarted_of_looks {entries : List Entry} (h : InStep r entries)
    (hlooks : Looks rules b c (r.advance c) s n r₁ s₁) (hend : r₁.EndsBlockAt c) (hc : r₁.hasContent = true) :
    r₁.programStarted = true := by
  obtain ⟨-, rfl, -⟩ | ⟨-, hagain⟩ := hlooks.first_or_second
  · exact h.programStarted (hend.2.imp id Or.inl) hc
  · obtain ⟨w, -, -, rfl⟩ | ⟨w, l, -, rfl⟩ | ⟨hm, rfl⟩ := dispatch_again_cases hagain
    · obtain ⟨-, ⟨place, hgap⟩ | hcomment⟩ := hend
      · cases hgap
      · cases hcomment
    · rfl
    · exact h.programStarted (Or.inr (Or.inr hm)) hc

/-- The end of a block does not come right after the start of a program. -/
theorem InStep.ne_start_endBlock {entries : List Entry} (h : InStep r entries) (before : List Entry) (a a' : Answer)
    (after : List Entry) : entries ≠ before ++ .told .programStart a :: .told .endBlock a' :: after := by
  intro heq
  cases a with
  | accept =>
    obtain ⟨e, _, _, hafter, he⟩ := h.starts before _ heq
    cases hafter
    exact he.ne_endBlock rfl
  | refuse k =>
    rw [List.append_cons] at heq
    exact (h.orderly _ _ _ _ heq).not_refused k (refused_snoc.mpr (Or.inl ⟨_, rfl⟩))

/-! ### All of it -/

/-- What a reader keeps to between two bytes. -/
structure Reader.Sound (rules : Rules) (r : Reader) : Prop where
  /-- The next byte is looked at again at most once. -/
  looks : ∀ {τ : Type} (b : Builder τ) (c : UInt8) (t : τ) {n : Nat} {r₁ : Reader} {t₁ : τ},
    Looks rules b c (r.advance c) t n r₁ t₁ → n ≤ 1
  /-- It is settled by the last look. -/
  settles : ∀ {τ : Type} (b : Builder τ) (c : UInt8) (t : τ), ∃ n r₁ t₁, Looks rules b c (r.advance c) t n r₁ t₁ ∧
    r₁.dispatch rules b c t₁ = .settled ((r.advance c).process rules b c t).1 ((r.advance c).process rules b c t).2
  /-- After an address nothing of the number has been read. -/
  address : ∀ {w : Word}, r.mode = .address w → r.AwaitsNumber rules w
  /-- In a number some of it has been read. -/
  value : ∀ {w : Word} {l : Literal}, r.mode = .value w l → ∃ p, p ≠ [] ∧ Reached rules.arithmetic p l
  /-- Where an index is taken, it is a number, and not negative. Elsewhere the mark of an index is not allowed. -/
  index : ∀ {w : Word} {l : Literal}, r.mode = .value w l → ∀ {τ : Type} (b : Builder τ) (t : τ),
    if Word.takesIndex w.address ∧ w.index = none ∧ l.isPlainInteger then
      ∃ i : Nat, l.finish = .ok ⟨i, 0⟩ ∧ r.feed rules b Byte.equals t =
        ({ r.advance Byte.equals with mode := .address { w with index := some i } }, t)
    else r.feed rules b Byte.equals t = ((r.advance Byte.equals).fail .invalidCharacter Byte.equals, t)
  /-- A block with content is in a program when it ends, and only its end is told. -/
  endBlock : ∀ {τ : Type} (b : Builder τ) (c : UInt8) (t : τ) {n : Nat} {r₁ : Reader} {t₁ : τ},
    Looks rules b c (r.advance c) t n r₁ t₁ → r₁.EndsBlockAt c →
    r₁.dispatch rules b c t₁ = .settled (r₁.endBlock rules b c t₁).1 (r₁.endBlock rules b c t₁).2 ∧
      (r₁.hasContent = true → r₁.programStarted = true ∧ r₁.announce b .endBlock c t₁ = r₁.tell b .endBlock c t₁)
  /-- A checksum is pending only after its star. -/
  declared : r.declared ≠ none → r.mode.PastStar

theorem Reachable.index (h : Reachable rules r) (hm : r.mode = .value w l) (b : Builder σ) (s : σ) :
    if Word.takesIndex w.address ∧ w.index = none ∧ l.isPlainInteger then
      ∃ i : Nat, l.finish = .ok ⟨i, 0⟩ ∧ r.feed rules b Byte.equals s =
        ({ r.advance Byte.equals with mode := .address { w with index := some i } }, s)
    else r.feed rules b Byte.equals s = ((r.advance Byte.equals).fail .invalidCharacter Byte.equals, s) := by
  have hcond : (Word.takesIndex w.address && w.index.isNone && l.isPlainInteger) = true ↔
      Word.takesIndex w.address ∧ w.index = none ∧ l.isPlainInteger := by
    simp only [Bool.and_eq_true, Option.isNone_iff_eq_none, and_assoc]
  rw [feed_equals b hm, endIndex_eq]
  split_ifs with hindex htaken hnot
  · obtain ⟨p, -, hp⟩ := h.exists_taken hm
    obtain ⟨i, hsignificand, hfinish⟩ := exists_finish_of_isPlainInteger hp hindex.2.2
    exact ⟨i, hfinish, by rw [hsignificand]⟩
  · exact absurd (hcond.mpr hindex) htaken
  · exact absurd (hcond.mp hnot) hindex
  · rfl

/-- **What the reader relies on is so.** Whatever is called on a new reader, and whatever the builder answers, the
reader is sound afterwards: it looks at a byte twice at most; a number starts afresh after an address, and has a byte
once it has started; a taken index is a number and not negative; a block with content that ends is in a program; and
a checksum is pending only after its star. So the builder is never told of the end of a block right after the start
of a program. -/
theorem between_bytes_sound (rules : Rules) (b : Builder σ) (calls : List Call) (s : σ) :
    (run rules b calls s).1.Sound rules ∧
      ∀ before a a' after, (session rules b calls s).2.2 ≠
        before ++ .told .programStart a :: .told .endBlock a' :: after := by
  have hstep := inStep_session rules b calls s
  have hreach := reachable_run rules b calls s
  refine ⟨?_, hstep.ne_start_endBlock⟩
  have hrun : (session rules b calls s).1 = (run rules b calls s).1 :=
    congrArg Prod.fst (session_eq_run rules b calls s)
  rw [hrun] at hstep
  constructor
  case looks =>
    intro τ b c t n r₁ t₁ hlooks
    obtain ⟨rfl, -⟩ | ⟨rfl, -⟩ := hlooks.first_or_second <;> decide
  case settles => exact fun b c t => exists_looks_settled rules b c _ t
  case address => exact awaitsNumber_of_address rules
  case value => exact hreach.exists_taken
  case index => exact fun hm => hreach.index hm
  case endBlock =>
    intro τ b c t n r₁ t₁ hlooks hend
    refine ⟨dispatch_of_endsBlockAt rules b hend t₁, fun hc => ?_⟩
    have hstarted := hstep.programStarted_of_looks hlooks hend hc
    have hr₁ : r₁.failed = false := by
      obtain ⟨-, ⟨place, hm⟩ | hm⟩ := hend <;> exact failed_of_mode hm
    exact ⟨hstarted, announce_of_started hr₁ hstarted⟩
  case declared => exact not_imp_comm.mp hreach.declared

end PartProgram.Block
