import PartProgram.Proofs.LiteralReading

/-!
# Refused bytes leave no trace

A byte that is not allowed at its place is refused, and leaves the literal what it was before
(`Literal.step_error_cases`). Here that is carried over to whole texts, and to texts that are offered
one after the other (`Offered`): however they are divided, and whatever was refused on the way, the literal is the one
that the bytes taken lead to by themselves (`Offered.feed_eq`). So nothing that is done with it later can tell what was
refused, and only digits have been read exactly if only digits were taken.

A number that does not fit is another matter: it spoils the literal, which is not to be used any more.
-/

namespace PartProgram.Number

namespace Literal

variable {a : Arithmetic} {l l' : Literal} {c : UInt8} {s t : Bytes} {e : Error} {k : Nat}

/-! ### A text and what is taken of it -/

/-- What refuses a byte, other than a number that does not fit, is as it was. -/
theorem literal_offer_of_error (h : l.step a c = .error e) (he : e ≠ .capacity) : (l.offer a c).literal = l := by
  obtain ⟨-, hcapacity⟩ | ⟨-, hsame⟩ := step_error_cases h
  · exact absurd hcapacity he
  · exact hsame

/-- A text that is taken can be read together with what follows it. -/
theorem feed_append (h : l.feed a s = ⟨none, k, l'⟩) (t : Bytes) :
    l.feed a (s ++ t) = { l'.feed a t with consumed := k + (l'.feed a t).consumed } := by
  induction s generalizing l k with
  | nil =>
    obtain ⟨rfl, rfl⟩ : 0 = k ∧ l = l' := by simpa [feed] using h
    rw [List.nil_append, Nat.zero_add]
  | cons c s ih =>
    cases hc : l.step a c with
    | error e => simp [feed_cons_of_error hc] at h
    | ok l₁ =>
      rw [feed_cons_of_ok hc, Fed.mk.injEq] at h
      obtain ⟨herror, rfl, hliteral⟩ := h
      have hs : l₁.feed a s = ⟨none, (l₁.feed a s).consumed, l'⟩ := by
        rw [← herror, ← hliteral]
      rw [List.cons_append, feed_cons_of_ok hc, ih hs]
      simp only [Fed.mk.injEq, true_and, and_true]
      omega

/-- The bytes that are taken of a text lead to the same literal by themselves, unless a number does not fit. -/
theorem feed_take_consumed (l : Literal) (s : Bytes) (hs : (l.feed a s).error ≠ some .capacity) :
    l.feed a (s.take (l.feed a s).consumed) = ⟨none, (l.feed a s).consumed, (l.feed a s).literal⟩ := by
  induction s generalizing l with
  | nil => rfl
  | cons c s ih =>
    cases hc : l.step a c with
    | error e =>
      rw [feed_cons_of_error hc] at hs ⊢
      rw [literal_offer_of_error hc fun he => hs (congrArg some he), List.take_zero]
      rfl
    | ok l₁ =>
      rw [feed_cons_of_ok hc] at hs ⊢
      rw [List.take_succ_cons, feed_cons_of_ok hc, ih l₁ hs]

theorem consumed_le (l : Literal) (s : Bytes) : (l.feed a s).consumed ≤ s.length := by
  induction s generalizing l with
  | nil => exact Nat.zero_le _
  | cons c s ih =>
    cases hc : l.step a c with
    | error e =>
      rw [feed_cons_of_error hc]
      exact Nat.zero_le _
    | ok l₁ =>
      rw [feed_cons_of_ok hc]
      exact Nat.succ_le_succ (ih l₁)

/-! ### Every byte by itself -/

/-- The bytes of a text that are taken when each is offered by itself: those against which nothing is said. -/
def taken (a : Arithmetic) (l : Literal) (s : Bytes) : Bytes :=
  ((s.zip (l.feedEach a s).1).filter fun x => x.2.isNone).map Prod.fst

theorem feedEach_cons (a : Arithmetic) (l : Literal) (c : UInt8) (s : Bytes) : l.feedEach a (c :: s) =
    ((l.offer a c).error :: ((l.offer a c).literal.feedEach a s).1, ((l.offer a c).literal.feedEach a s).2) := rfl

theorem taken_cons_of_ok (h : l.step a c = .ok l') (s : Bytes) : taken a l (c :: s) = c :: taken a l' s := by
  simp [taken, feedEach_cons, step_eq_ok_iff.mp h]

theorem taken_cons_of_error (h : l.step a c = .error e) (s : Bytes) :
    taken a l (c :: s) = taken a (l.offer a c).literal s := by
  simp [taken, feedEach_cons, step_eq_error_iff.mp h]

/-- A byte is taken by a literal that goes on to another, or it is passed over by one that stays as it is. -/
theorem feedEach_cons_cases (hs : some .capacity ∉ (l.feedEach a (c :: s)).1) :
    ∃ l', some .capacity ∉ (l'.feedEach a s).1 ∧ (l.feedEach a (c :: s)).2 = (l'.feedEach a s).2 ∧
      (l.step a c = .ok l' ∧ taken a l (c :: s) = c :: taken a l' s ∨ l' = l ∧ taken a l (c :: s) = taken a l s) := by
  rw [feedEach_cons, List.mem_cons, not_or] at hs
  refine ⟨(l.offer a c).literal, hs.2, rfl, ?_⟩
  cases hc : l.step a c with
  | ok l' =>
    rw [step_eq_ok_iff.mp hc]
    exact Or.inl ⟨rfl, taken_cons_of_ok hc s⟩
  | error e =>
    have hsame : (l.offer a c).literal = l :=
      literal_offer_of_error hc fun he => hs.1 (by rw [step_eq_error_iff.mp hc, he])
    exact Or.inr ⟨hsame, (taken_cons_of_error hc s).trans (by rw [hsame])⟩

/-- The bytes that are taken lead to the same literal by themselves. -/
theorem feed_taken (l : Literal) (s : Bytes) (hs : some .capacity ∉ (l.feedEach a s).1) :
    l.feed a (taken a l s) = ⟨none, (taken a l s).length, (l.feedEach a s).2⟩ := by
  induction s generalizing l with
  | nil => rfl
  | cons c s ih =>
    obtain ⟨l', hs', hleft, ⟨hc, htaken⟩ | ⟨rfl, htaken⟩⟩ := feedEach_cons_cases hs
    · rw [htaken, feed_cons_of_ok hc, ih l' hs', hleft, List.length_cons]
    · rw [htaken, ih l' hs', hleft]

end Literal

/-! ### Texts one after the other -/

/-- `Offered a p l`: texts have been offered to a new literal, or single bytes, which are texts too. All numbers fitted.
The bytes `p` were taken, and the literal has become `l`. -/
inductive Offered (a : Arithmetic) : Bytes → Literal → Prop where
  /-- Nothing has been offered. -/
  | new : Offered a [] {}
  /-- A text is offered, and taken up to the first byte that is refused. -/
  | text {p : Bytes} {l : Literal} (s : Bytes) : Offered a p l → (l.feed a s).error ≠ some .capacity →
      Offered a (p ++ s.take (l.feed a s).consumed) (l.feed a s).literal

section

variable {a : Arithmetic} {p s : Bytes} {l : Literal}

open Literal

/-- The bytes taken lead to the literal by themselves. -/
theorem Offered.feed_eq (h : Offered a p l) : Literal.feed a {} p = ⟨none, p.length, l⟩ := by
  induction h with
  | new => rfl
  | @text p l s _ hs ih =>
    rw [feed_append ih, feed_take_consumed l s hs, List.length_append,
      List.length_take_of_le (consumed_le l s)]

theorem Offered.byte_ok {c : UInt8} {l' : Literal} (h : Offered a p l) (hc : l.step a c = .ok l') :
    Offered a (p ++ [c]) l' := by
  have hfeed : l.feed a [c] = ⟨none, 1, l'⟩ := feed_cons_of_ok hc []
  have h' := h.text [c] (by simp [hfeed])
  rwa [hfeed] at h'

/-- Each byte of a text is offered by itself. -/
theorem Offered.each (h : Offered a p l) (s : Bytes) (hs : some .capacity ∉ (l.feedEach a s).1) :
    Offered a (p ++ taken a l s) (l.feedEach a s).2 := by
  induction s generalizing p l with
  | nil => simpa [taken, feedEach] using h
  | cons c s ih =>
    obtain ⟨l', hs', hleft, ⟨hc, htaken⟩ | ⟨rfl, htaken⟩⟩ := feedEach_cons_cases hs
    · rw [htaken, List.append_cons, hleft]
      exact ih (h.byte_ok hc) hs'
    · rw [htaken, hleft]
      exact ih h hs'

theorem Offered.isPlainInteger_iff (h : Offered a p l) : l.isPlainInteger ↔ p ≠ [] ∧ IsDigits p := by
  have hreached : Reached a p l := by
    rw [Reached, h.feed_eq]
    exact ⟨rfl, rfl⟩
  exact hreached.isPlainInteger_iff

/-- **Refused bytes leave no trace.** Let texts have been offered to a new literal. The literal is the one that the
bytes taken lead to by themselves. If another text is refused at a byte, the literal is the one after the bytes before
it, and goes on from there as if there had been nothing else. If the bytes of a text are offered one by one and those
that are not allowed are passed over, the literal is the one after the bytes that were taken. And only digits have been
read exactly if the bytes taken are digits, one or more. -/
theorem refused_bytes_leave_no_trace (a : Arithmetic) (h : Offered a p l) :
    Literal.feed a {} p = ⟨none, p.length, l⟩ ∧
    (∀ s k l', l.feed a s = ⟨some .invalidCharacter, k, l'⟩ →
      l.feed a (s.take k) = ⟨none, k, l'⟩ ∧
        ∀ t, l.feed a (s.take k ++ t) = { l'.feed a t with consumed := k + (l'.feed a t).consumed }) ∧
    (∀ s, some .capacity ∉ (l.feedEach a s).1 →
      l.feed a (taken a l s) = ⟨none, (taken a l s).length, (l.feedEach a s).2⟩ ∧
        Offered a (p ++ taken a l s) (l.feedEach a s).2) ∧
    (l.isPlainInteger ↔ p ≠ [] ∧ IsDigits p) := by
  refine ⟨h.feed_eq, ?_, fun s hs => ⟨feed_taken l s hs, h.each s hs⟩, h.isPlainInteger_iff⟩
  intro s k l' hfed
  have htake : l.feed a (s.take k) = ⟨none, k, l'⟩ := by
    have := feed_take_consumed (a := a) l s (by simp [hfed])
    rwa [hfed] at this
  exact ⟨htake, feed_append htake⟩

/-- A sign is refused after two digits. Offered again with more bytes, of which some are refused too, it still
does not show. -/
theorem refused_bytes_leave_no_trace_index :
    Literal.feed {} {} (ascii "12-3") = ⟨some .invalidCharacter, 2, ⟨.integer, none, 12, 0, 1⟩⟩ ∧
    Offered {} (ascii "12") ⟨.integer, none, 12, 0, 1⟩ ∧
    (⟨.integer, none, 12, 0, 1⟩ : Literal).isPlainInteger ∧
    Literal.feed {} ⟨.integer, none, 12, 0, 1⟩ (ascii "4.5") = ⟨none, 3, ⟨.fraction, none, 1245, 1, 1⟩⟩ ∧
    taken {} ⟨.integer, none, 12, 0, 1⟩ (ascii "-4x.+5") = ascii "4.5" := by
  have hfirst : Literal.feed {} {} (ascii "12-3") = ⟨some .invalidCharacter, 2, ⟨.integer, none, 12, 0, 1⟩⟩ := by
    decide
  have hoffered : Offered {} (ascii "12") ⟨.integer, none, 12, 0, 1⟩ := by
    have := Offered.new.text (a := {}) (ascii "12-3") (by rw [hfirst]; simp)
    rwa [hfirst] at this
  have hdigits : IsDigits (ascii "12") := List.all_eq_true.mp (by decide)
  have htaken : taken {} ⟨.integer, none, 12, 0, 1⟩ (ascii "-4x.+5") = ascii "4.5" := by decide
  obtain ⟨-, -, heach, hplain⟩ := refused_bytes_leave_no_trace {} hoffered
  have hread := (heach (ascii "-4x.+5") (by decide)).1
  rw [htaken] at hread
  refine ⟨hfirst, hoffered, hplain.mpr ⟨by decide, hdigits⟩, hread.trans ?_, htaken⟩
  decide

-- The greatest significand of 16 bits is 32767. A digit too many makes a negative number of it.
example : Literal.feed ⟨.w16, .multiply⟩ {} (ascii "32768") = ⟨some .capacity, 4, ⟨.integer, none, -32768, 0, 1⟩⟩ := by
  decide

end

end PartProgram.Number
