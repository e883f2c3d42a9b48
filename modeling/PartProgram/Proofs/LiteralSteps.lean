import PartProgram.Number.Literal
import Mathlib.Tactic.Common
import Mathlib.Tactic.SplitIfs

/-!
# All that a byte can do to a literal

A byte that is offered to a literal is a sign or the point, a digit on one side of the point or the other, or not
allowed there, and which of these it is does not depend on the arithmetic (`StepKind`). What can go wrong is known from
that: only digits make a number too large, and a byte that is not allowed changes nothing (`step_error_cases`).

A text is read byte by byte, and `feed_cons_of_ok` and `feed_cons_of_error` say what its first byte does.
-/

namespace PartProgram.Number.Literal

variable {a : Arithmetic} {l l' : Literal} {c : UInt8} {e : Error}

/-! ### The literal, or what is wrong -/

theorem step_eq_ok_iff : l.step a c = .ok l' ↔ l.offer a c = ⟨none, l'⟩ := by
  rw [step]
  obtain ⟨error, literal⟩ := l.offer a c
  cases error <;> simp

theorem step_eq_error_iff : l.step a c = .error e ↔ (l.offer a c).error = some e := by
  rw [step]
  obtain ⟨error, literal⟩ := l.offer a c
  cases error <;> simp

theorem feed_cons_of_ok (h : l.step a c = .ok l') (s : Bytes) :
    l.feed a (c :: s) = { l'.feed a s with consumed := (l'.feed a s).consumed + 1 } := by
  rw [feed, step_eq_ok_iff.mp h]

theorem feed_cons_of_error (h : l.step a c = .error e) (s : Bytes) :
    l.feed a (c :: s) = ⟨some e, 0, (l.offer a c).literal⟩ := by
  rw [step_eq_error_iff] at h
  rw [feed]
  cases hoffer : l.offer a c with
  | mk error literal =>
    rw [hoffer] at h
    obtain rfl : error = some e := h
    rfl

/-- A text that is taken starts with a byte that is. -/
theorem exists_step_of_feed_cons {s : Bytes} (h : (l.feed a (c :: s)).error = none) :
    ∃ l', l.step a c = .ok l' ∧ (l'.feed a s).error = none ∧ (l.feed a (c :: s)).literal = (l'.feed a s).literal := by
  cases hc : l.step a c with
  | error e =>
    rw [feed_cons_of_error hc] at h
    cases h
  | ok l' =>
    rw [feed_cons_of_ok hc] at h ⊢
    exact ⟨l', rfl, h, rfl⟩

/-- Digits alone are a number. -/
theorem finish_of_isPlainInteger (h : l.isPlainInteger = true) : l.finish = .ok ⟨l.significand, l.places⟩ := by
  rw [isPlainInteger, Bool.and_eq_true, beq_iff_eq] at h
  rw [finish, h.1]

/-! ### Kinds of bytes -/

/-- What the byte `c` does to a literal, with any arithmetic. -/
inductive StepKind (l : Literal) (c : UInt8) : Prop where
  /-- A sign, or the point. -/
  | mark (l' : Literal) (h : ∀ a, l.offer a c = ⟨none, l'⟩) (hl : l'.significand = l.significand)
  /-- A digit before the point. -/
  | integerDigit (hc : Byte.isDigit c) (h : ∀ a, l.offer a c = l.integerDigit a c)
  /-- A zero after the point. -/
  | fractionZero (hc : Byte.isDigit c) (h : ∀ a, l.offer a c = l.fractionZero)
  /-- Another digit after the point. -/
  | fractionDigit (hc : Byte.isDigit c) (h : ∀ a, l.offer a c = l.fractionDigit a c)
  /-- A byte that is not allowed there. -/
  | invalid (h : ∀ a, l.offer a c = ⟨some .invalidCharacter, l⟩)

theorem stepKind_whole (l₁ : Literal) (hl : l₁.significand = l.significand)
    (hoffer : ∀ a, l.offer a c = if c = Byte.point then ⟨none, l₁⟩
      else if Byte.isDigit c then l.integerDigit a c else ⟨some .invalidCharacter, l⟩) : StepKind l c := by
  split_ifs at hoffer with hpoint hd
  · exact StepKind.mark l₁ hoffer hl
  · exact StepKind.integerDigit hd hoffer
  · exact StepKind.invalid hoffer

theorem stepKind_fraction (hp : l.phase = .leadingPoint ∨ l.phase = .fraction) (c : UInt8) : StepKind l c := by
  have hoffer : ∀ a, l.offer a c = if c = Byte.zero then l.fractionZero
      else if Byte.isDigit c then l.fractionDigit a c else ⟨some .invalidCharacter, l⟩ := by
    intro a
    obtain hp | hp := hp <;> rw [offer, hp]
  split_ifs at hoffer with hz hd
  · exact StepKind.fractionZero (by rw [hz]; decide) hoffer
  · exact StepKind.fractionDigit hd hoffer
  · exact StepKind.invalid hoffer

/-- **All that a byte can do** to a literal. -/
theorem stepKind (l : Literal) (c : UInt8) : StepKind l c := by
  cases hp : l.phase with
  | start =>
    by_cases hplus : c = Byte.plus
    · exact StepKind.mark { l with phase := .sign, sign := some .positive }
        (fun a => by simp only [offer, hp, if_pos hplus]) rfl
    by_cases hminus : c = Byte.minus
    · exact StepKind.mark { l with phase := .sign, sign := some .negative }
        (fun a => by simp only [offer, hp, if_neg hplus, if_pos hminus]) rfl
    · exact stepKind_whole { l with phase := .leadingPoint } rfl
        (fun a => by simp only [offer, hp, if_neg hplus, if_neg hminus])
  | sign => exact stepKind_whole { l with phase := .leadingPoint } rfl (fun a => by rw [offer, hp])
  | integer => exact stepKind_whole { l with phase := .fraction } rfl (fun a => by rw [offer, hp])
  | leadingPoint => exact stepKind_fraction (Or.inl hp) c
  | fraction => exact stepKind_fraction (Or.inr hp) c

/-! ### What can go wrong -/

/-- A digit before the point goes on the significand, or is too much for it. -/
theorem integerDigit_cases (a : Arithmetic) (l : Literal) (c : UInt8) :
    (l.integerDigit a c).error = none ∨ (l.integerDigit a c).error = some .capacity := by
  rw [integerDigit]
  split_ifs
  · exact Or.inl rfl
  · cases a.appendDigit? l.significand 1 c l.effectiveSign with
    | some m => exact Or.inl rfl
    | none => exact Or.inr rfl

theorem fractionZero_cases (l : Literal) : l.fractionZero.error = none ∨ l.fractionZero.error = some .capacity := by
  rw [fractionZero]
  split_ifs
  · exact Or.inl rfl
  · exact Or.inr rfl

theorem fractionDigit_cases (a : Arithmetic) (l : Literal) (c : UInt8) :
    (l.fractionDigit a c).error = none ∨ (l.fractionDigit a c).error = some .capacity := by
  rw [fractionDigit]
  cases a.appendDigit? l.significand l.reach c l.effectiveSign with
  | some m =>
    simp only
    split_ifs
    · exact Or.inl rfl
    · exact Or.inr rfl
  | none => exact Or.inr rfl

/-- A byte is taken, or it is a digit too many, or it is not allowed and the literal is as it was. -/
theorem offer_cases (a : Arithmetic) (l : Literal) (c : UInt8) :
    (l.offer a c).error = none ∨ Byte.isDigit c ∧ (l.offer a c).error = some .capacity ∨
      l.offer a c = ⟨some .invalidCharacter, l⟩ := by
  cases stepKind l c with
  | mark l' h _ => exact Or.inl (by rw [h])
  | integerDigit hc h =>
    rw [h]
    exact (integerDigit_cases a l c).imp id fun he => Or.inl ⟨hc, he⟩
  | fractionZero hc h =>
    rw [h]
    exact (fractionZero_cases l).imp id fun he => Or.inl ⟨hc, he⟩
  | fractionDigit hc h =>
    rw [h]
    exact (fractionDigit_cases a l c).imp id fun he => Or.inl ⟨hc, he⟩
  | invalid h => exact Or.inr (Or.inr (h a))

/-- **What is wrong with a byte that is refused.** It is a digit too many, or it is not allowed, and then it changes
nothing. -/
theorem step_error_cases (h : l.step a c = .error e) :
    Byte.isDigit c ∧ e = .capacity ∨ e = .invalidCharacter ∧ (l.offer a c).literal = l := by
  rw [step_eq_error_iff] at h
  obtain hnone | ⟨hc, hcapacity⟩ | hinvalid := offer_cases a l c
  · cases hnone.symm.trans h
  · exact Or.inl ⟨hc, Option.some.inj (h.symm.trans hcapacity)⟩
  · rw [hinvalid] at h ⊢
    exact Or.inr ⟨(Option.some.inj h).symm, rfl⟩

end PartProgram.Number.Literal
