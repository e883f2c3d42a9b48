import PartProgram.Proofs.Calls
import PartProgram.Proofs.Scaling
import PartProgram.Proofs.Transition

/-!
# The arithmetic does not show

Readers that differ in the width of their significands, or in the way these are scaled, do the same
as long as no number is too large for the narrower one. The two ways of scaling give up at different
intermediate results, and a wider significand gives up later; but a result that is given at all is
the exact one (`Scaling`), so it is the result of the other reader too.

The argument needs of the number being read only that its significand is in range, which is so in
every reader that calls can lead to (`Reachable.inRange`). What a byte does then differs at most
where it makes the number too large (`Literal.step_wider`), and from bytes this carries over to texts,
calls and sessions (`AgreeBut`).
-/

namespace PartProgram.Number

/-! ### Widths -/

namespace Width

variable {w w' : Width} {x y : Int}

theorem limit_le_limit (h : w.bits ≤ w'.bits) : w.limit ≤ w'.limit := by
  revert h
  cases w <;> cases w' <;> decide

theorem InRange.mono (h : w.bits ≤ w'.bits) (hx : w.InRange x) : w'.InRange x := by
  have hl := limit_le_limit h
  obtain ⟨h1, h2⟩ := hx
  exact ⟨by omega, by omega⟩

theorem fit?_mono (h : w.bits ≤ w'.bits) (hx : w.fit? x = some y) : w'.fit? x = some y := by
  rw [fit?_eq_some_iff] at hx ⊢
  exact ⟨hx.1.mono h, hx.2⟩

end Width

/-! ### Digits -/

section

variable {a a' : Arithmetic} {x m : Int} {k : Nat} {c : UInt8} {sign : Sign}

theorem Arithmetic.inRange_of_appendDigit? (h : a.appendDigit? x k c sign = some m) : a.width.InRange m := by
  rw [appendDigit?] at h
  split_ifs at h
  cases hs : a.mulPow10? x k with
  | none => simp [hs] at h
  | some y =>
    rw [hs] at h
    cases sign <;> (obtain ⟨hr, rfl⟩ := Width.fit?_eq_some_iff.mp h; exact hr)

/-- A digit that can be appended can be appended in a wider significand, with the same result,
however significands are scaled. -/
theorem Arithmetic.appendDigit?_wider (hw : a.width.bits ≤ a'.width.bits) (hx : a.width.InRange x)
    (h : a.appendDigit? x k c sign = some m) : a'.appendDigit? x k c sign = some m := by
  rw [appendDigit?] at h ⊢
  split_ifs at h with hc
  rw [if_pos hc, mulPow10?_eq a' (hx.mono hw)]
  rw [mulPow10?_eq a hx] at h
  cases hs : a.width.fit? (x * 10 ^ k) with
  | none => simp [hs] at h
  | some y =>
    rw [hs] at h
    rw [Width.fit?_mono hw hs]
    cases sign <;> exact Width.fit?_mono hw h

end

/-! ### Literals -/

namespace Literal

variable {a a' : Arithmetic} {l l' : Literal} {c : UInt8}

theorem integerDigit_wider (hw : a.width.bits ≤ a'.width.bits) (hl : a.width.InRange l.significand) (c : UInt8) :
    (l.integerDigit a c).error = some .capacity ∨ l.integerDigit a' c = l.integerDigit a c := by
  rw [integerDigit, integerDigit]
  split_ifs
  · exact Or.inr rfl
  · cases h : a.appendDigit? l.significand 1 c l.effectiveSign with
    | none => exact Or.inl rfl
    | some m => rw [Arithmetic.appendDigit?_wider hw hl h]; exact Or.inr rfl

theorem fractionDigit_wider (hw : a.width.bits ≤ a'.width.bits) (hl : a.width.InRange l.significand) (c : UInt8) :
    (l.fractionDigit a c).error = some .capacity ∨ l.fractionDigit a' c = l.fractionDigit a c := by
  rw [fractionDigit, fractionDigit]
  cases h : a.appendDigit? l.significand l.reach c l.effectiveSign with
  | none => exact Or.inl rfl
  | some m => rw [Arithmetic.appendDigit?_wider hw hl h]; exact Or.inr rfl

/-- A byte does the same to a literal in a wider significand, unless it makes the number too large. -/
theorem offer_wider (hw : a.width.bits ≤ a'.width.bits) (hl : a.width.InRange l.significand) (c : UInt8) :
    (l.offer a c).error = some .capacity ∨ l.offer a' c = l.offer a c := by
  cases stepKind l c with
  | mark l' h _ => exact Or.inr (by rw [h, h])
  | integerDigit _ h =>
    rw [h, h]
    exact integerDigit_wider hw hl c
  | fractionZero _ h => exact Or.inr (by rw [h, h])
  | fractionDigit _ h =>
    rw [h, h]
    exact fractionDigit_wider hw hl c
  | invalid h => exact Or.inr (by rw [h, h])

theorem step_wider (hw : a.width.bits ≤ a'.width.bits) (hl : a.width.InRange l.significand) (c : UInt8) :
    l.step a c = .error .capacity ∨ l.step a' c = l.step a c := by
  refine (offer_wider hw hl c).imp step_eq_error_iff.mpr fun h => ?_
  rw [step, step, h]

/-- How significands are scaled does not show in a literal. -/
theorem step_eq_of_width (hw : a.width = a'.width) (hl : a.width.InRange l.significand) (c : UInt8) :
    l.step a' c = l.step a c := by
  obtain h | h := step_wider (show a.width.bits ≤ a'.width.bits by rw [hw]) hl c
  · -- A number that is too large for one is too large for the other.
    obtain h' | h' := step_wider (show a'.width.bits ≤ a.width.bits by rw [hw]) (hw ▸ hl) c
    · rw [h, h']
    · exact h'.symm
  · exact h

theorem inRange_of_integerDigit (hl : a.width.InRange l.significand) (h : l.integerDigit a c = ⟨none, l'⟩) :
    a.width.InRange l'.significand := by
  rw [integerDigit] at h
  split_ifs at h
  · cases h
    exact hl
  · cases hm : a.appendDigit? l.significand 1 c l.effectiveSign with
    | none => simp [hm] at h
    | some m =>
      rw [hm] at h
      cases h
      exact Arithmetic.inRange_of_appendDigit? hm

theorem inRange_of_fractionZero (hl : a.width.InRange l.significand) (h : l.fractionZero = ⟨none, l'⟩) :
    a.width.InRange l'.significand := by
  rw [fractionZero] at h
  split_ifs at h
  · cases h
    exact hl
  · cases h

theorem inRange_of_fractionDigit (h : l.fractionDigit a c = ⟨none, l'⟩) : a.width.InRange l'.significand := by
  rw [fractionDigit] at h
  cases hm : a.appendDigit? l.significand l.reach c l.effectiveSign with
  | none => simp [hm] at h
  | some m =>
    simp only [hm] at h
    split_ifs at h
    · cases h
      exact Arithmetic.inRange_of_appendDigit? hm
    · cases h

/-- A literal that is taken stays in range. -/
theorem inRange_of_step (hl : a.width.InRange l.significand) (h : l.step a c = .ok l') :
    a.width.InRange l'.significand := by
  rw [step_eq_ok_iff] at h
  cases stepKind l c with
  | mark l₁ hoffer hl₁ =>
    rw [hoffer] at h
    cases h
    rwa [hl₁]
  | integerDigit _ hoffer => exact inRange_of_integerDigit hl (hoffer a ▸ h)
  | fractionZero _ hoffer => exact inRange_of_fractionZero hl (hoffer a ▸ h)
  | fractionDigit _ hoffer => exact inRange_of_fractionDigit (hoffer a ▸ h)
  | invalid hoffer =>
    rw [hoffer] at h
    cases h

/-- Only a digit makes a number too large. -/
theorem isDigit_of_capacity (h : l.step a c = .error .capacity) : Byte.isDigit c = true := by
  obtain ⟨hc, -⟩ | ⟨hinvalid, -⟩ := step_error_cases h
  · exact hc
  · cases hinvalid

end Literal

end PartProgram.Number

namespace PartProgram.Block

open Number Reader

variable {σ : Type} {rules rules' : Rules} {b : Builder σ} {c : UInt8} {r : Reader} {s : σ} {a : Arithmetic}
  {p : Fault → Prop}

/-! ### One byte -/

/-- The number being read is in range. -/
theorem Reachable.inRange (h : Reachable rules r) :
    ∀ {w : Word} {l : Literal}, r.mode.word? = some (w, l) → rules.arithmetic.width.InRange l.significand := by
  have hzero := rules.arithmetic.width.zero_inRange
  intro w l hword
  refine h.word_induction (P := fun _ l => rules.arithmetic.width.InRange l.significand) ?_ ?_ ?_ hword
  · exact fun _ _ => hzero
  · exact fun hl hstep => Literal.inRange_of_step hl hstep
  · exact fun _ => hzero

/-- A byte that makes the number too large is a fault. -/
theorem feed_capacity {w : Word} {l : Literal} (hword : r.mode.word? = some (w, l))
    (hl : l.step rules.arithmetic c = .error .capacity) (b : Builder σ) (s : σ) :
    ∃ f, (r.feed rules b c s).1.fault? = some f ∧ f.cause = .decimal .capacity := by
  have hc : isLiteralByte c = true := by simp [isLiteralByte, Literal.isDigit_of_capacity hl]
  cases hm : r.mode with
  | address w' =>
    obtain ⟨rfl, rfl⟩ : w' = w ∧ {} = l := by simpa [hm, Mode.word?] using hword
    rw [feed_of_not_failed (failed_of_mode hm), process_address_literal (r := r.advance c) hm hc,
      process_value_error rfl hc hl]
    exact ⟨_, rfl, rfl⟩
  | value w' l' =>
    obtain ⟨rfl, rfl⟩ : w' = w ∧ l' = l := by simpa [hm, Mode.word?] using hword
    rw [feed_of_not_failed (failed_of_mode hm), process_value_error (r := r.advance c) hm hc hl]
    exact ⟨_, rfl, rfl⟩
  | _ => simp [hm, Mode.word?] at hword

/-! ### From bytes to sessions -/

/-- A byte does the same to a reader under both rules, except that under the first there may be a
fault of this kind. -/
def AgreeBut (p : Fault → Prop) (rules rules' : Rules) : Prop :=
  ∀ (σ : Type) (b : Builder σ) (c : UInt8) (r : Reader) (s : σ), Reachable rules r →
    (∃ f, (r.feed rules b c s).1.fault? = some f ∧ p f) ∨ r.feed rules' b c s = r.feed rules b c s

/-- Under wider arithmetic a byte does the same, unless a number is too large. -/
theorem agreeBut_capacity (hw : rules.arithmetic.width.bits ≤ a.width.bits) :
    AgreeBut (·.cause = .decimal .capacity) rules { rules with arithmetic := a } := by
  intro σ b c r s hreach
  by_cases h : ∃ w l, r.mode.word? = some (w, l) ∧ l.step rules.arithmetic c = .error .capacity
  · obtain ⟨w, l, hword, hl⟩ := h
    exact Or.inl (feed_capacity hword hl b s)
  · refine Or.inr (feed_congr_rules (fun _ _ _ => rfl) fun w l hword => ?_)
    exact (Literal.step_wider hw (hreach.inRange hword) c).resolve_left fun hl => h ⟨w, l, hword, hl⟩

/-- Under arithmetic of the same width a byte does the same. -/
theorem agreeBut_nothing (hw : rules.arithmetic.width = a.width) :
    AgreeBut (fun _ => False) rules { rules with arithmetic := a } := by
  intro σ b c r s hreach
  refine Or.inr (feed_congr_rules (fun _ _ _ => rfl) fun w l hword => ?_)
  exact Literal.step_eq_of_width hw (hreach.inRange hword) c

namespace AgreeBut

theorem feedText (h : AgreeBut p rules rules') (b : Builder σ) (t : Bytes) : ∀ (r : Reader) (s : σ),
    Reachable rules r → (∃ f, (feedText rules b t r s).2.1.fault? = some f ∧ p f) ∨
      Reader.feedText rules' b t r s = Reader.feedText rules b t r s := by
  induction t with
  | nil => intro r s _; exact Or.inr rfl
  | cons c t ih =>
    intro r s hreach
    rw [Reader.feedText, Reader.feedText]
    obtain ⟨f, hf, hp⟩ | heq := h σ b c r s hreach
    · have hfailed : (r.feed rules b c s).1.failed = true := by rw [Reader.failed, hf]; rfl
      simp only [hfailed, if_true]
      exact Or.inl ⟨f, hf, hp⟩
    · rw [heq]
      simp only
      split_ifs
      · exact Or.inr rfl
      · exact ih _ _ (hreach.feed b c s)

theorem perform (h : AgreeBut p rules rules') (b : Builder σ) (call : Call) (s : σ) (hreach : Reachable rules r) :
    (∃ f, (perform rules b call r s).1.fault? = some f ∧ p f) ∨
      Block.perform rules' b call r s = Block.perform rules b call r s ∧
        answer rules' b call r s = answer rules b call r s := by
  cases call with
  | byte c =>
    obtain hf | heq := h σ b c r s hreach
    · exact Or.inl hf
    · have hperform : Block.perform rules' b (.byte c) r s = Block.perform rules b (.byte c) r s := heq
      exact Or.inr ⟨hperform, by rw [answer, answer, hperform]⟩
  | text t =>
    obtain hf | heq := h.feedText b t r s hreach
    · exact Or.inl hf
    · refine Or.inr ⟨?_, ?_⟩
      · rw [Block.perform, Block.perform, heq]
      · rw [answer, answer, heq]
  | finish =>
    obtain hf | heq : (∃ f, (r.finish rules b s).1.fault? = some f ∧ p f) ∨
        r.finish rules' b s = r.finish rules b s := by
      rw [Reader.finish, Reader.finish]
      split_ifs
      · exact Or.inr rfl
      · exact Or.inr rfl
      · exact h σ b Byte.lf r s hreach
    · exact Or.inl hf
    · have hperform : Block.perform rules' b .finish r s = Block.perform rules b .finish r s := heq
      exact Or.inr ⟨hperform, by rw [answer, answer, hperform]⟩
  | skipBlock => exact Or.inr ⟨rfl, rfl⟩
  | reset => exact Or.inr ⟨rfl, rfl⟩

theorem reply (h : AgreeBut p rules rules') (b : Builder σ) (call : Call) (s : σ) (hreach : Reachable rules r)
    (hno : ∀ f ∈ (reply rules b call r s).fault, ¬ p f) :
    Block.perform rules' b call r s = Block.perform rules b call r s ∧
      Block.reply rules' b call r s = Block.reply rules b call r s := by
  have hrecord : Block.perform rules b call r s =
      Prod.map id Prod.fst (Block.perform rules (record Prod.mk b) call r (s, [])) :=
    (refines_record Prod.mk b).perform call r (s, [])
  have hperform := (h.perform b call s hreach).resolve_left (by
    rintro ⟨f, hf, hp⟩
    rw [hrecord] at hf
    exact hno f hf hp)
  have hnoted := (h.perform (record Prod.mk b) call (s, []) hreach).resolve_left
    (fun ⟨f, hf, hp⟩ => hno f hf hp)
  refine ⟨hperform.1, ?_⟩
  rw [Block.reply, Block.reply, hnoted.1, hperform.2]

/-- Under both rules the same calls get the same replies, as long as there is no fault of this kind. -/
theorem replies (h : AgreeBut p rules rules') (b : Builder σ) (calls : List Call) : ∀ (r : Reader) (s : σ),
    Reachable rules r → (∀ o ∈ replies rules b calls r s, ∀ f ∈ o.fault, ¬ p f) →
      Block.replies rules' b calls r s = Block.replies rules b calls r s ∧
        calls.foldl (fun (r, s) call => Block.perform rules' b call r s) (r, s) =
          calls.foldl (fun (r, s) call => Block.perform rules b call r s) (r, s) := by
  induction calls with
  | nil => intro r s _ _; exact ⟨rfl, rfl⟩
  | cons call calls ih =>
    intro r s hreach hno
    rw [replies_cons, List.forall_mem_cons] at hno
    obtain ⟨hperform, hreply⟩ := h.reply b call s hreach hno.1
    obtain ⟨hreplies, hrun⟩ := ih _ _ (hreach.perform b call s) hno.2
    rw [replies_cons, replies_cons, hperform, hreply, hreplies, List.foldl_cons, List.foldl_cons]
    refine ⟨rfl, ?_⟩
    simp only [hperform]
    exact hrun

end AgreeBut

/-- **The arithmetic does not show.** As long as no number is too large for the narrower significand,
a reader with a wider one gives the same replies to the same calls, however the two scale, and comes
to the same state; and with significands of the same width the way of scaling never shows. -/
theorem replies_independent_of_arithmetic (rules : Rules) (a : Arithmetic) (b : Builder σ) (calls : List Call)
    (s : σ) :
    let other := { rules with arithmetic := a }
    (rules.arithmetic.width.bits ≤ a.width.bits →
      (∀ o ∈ replies rules b calls {} s, ∀ f ∈ o.fault, f.cause ≠ .decimal .capacity) →
        replies other b calls {} s = replies rules b calls {} s ∧ run other b calls s = run rules b calls s) ∧
    (rules.arithmetic.width = a.width →
      replies other b calls {} s = replies rules b calls {} s ∧ run other b calls s = run rules b calls s) := by
  intro other
  constructor
  · intro hw hno
    exact (agreeBut_capacity hw).replies b calls {} s Reachable.new hno
  · intro hw
    exact (agreeBut_nothing hw).replies b calls {} s Reachable.new (by simp)

/-- A caller that is refused a word and goes on sees the same in 16 bits, where the power of ten is
computed first, and in 64 bits, where it is not. -/
theorem replies_independent_of_arithmetic_refused :
    let narrow : Rules := { arithmetic := ⟨.w16, .multiply⟩ }
    let calls := [.text (ascii "N10 R3=.00001 X2\n"), .skipBlock, .text (ascii "Y-32768"), .finish]
    (∀ o ∈ replies narrow (refusing 0x58) calls {} (), ∀ f ∈ o.fault, f.cause ≠ .decimal .capacity) ∧
      replies { narrow with arithmetic := ⟨.w64, .shiftAdd⟩ } (refusing 0x58) calls {} () =
        replies narrow (refusing 0x58) calls {} () := by
  intro narrow calls
  have hno : ∀ o ∈ replies narrow (refusing 0x58) calls {} (), ∀ f ∈ o.fault, f.cause ≠ .decimal .capacity := by
    decide
  exact ⟨hno, ((replies_independent_of_arithmetic narrow ⟨.w64, .shiftAdd⟩ (refusing 0x58) calls ()).1 (by decide)
    hno).1⟩

end PartProgram.Block
