import PartProgram.Proofs.Dispatch

/-!
# Builders that keep a record

A builder is a parameter of the reader, and the reader learns no more of it than its answers. So a
builder `b'` that answers as `b` does, with more in its state, takes the reader through the same
steps (`Refines`). The builder that does what `b` does and writes down each event with its answer
(`record`) is such a one, and what it wrote is what `b` was told.
-/

namespace PartProgram.Block

open Number

variable {σ τ : Type}

/-! ### More in the state -/

/-- The builder `b'` does on its state what `b` does on the part `π` of it. -/
def Refines (π : τ → σ) (b' : Builder τ) (b : Builder σ) : Prop := ∀ e t, b e (π t) = Prod.map id π (b' e t)

/-- What came of looking at a byte, with another state of the builder. -/
def Verdict.map (π : τ → σ) : Verdict τ → Verdict σ
  | .settled r t => .settled r (π t)
  | .again r t => .again r (π t)

namespace Refines

variable {π : τ → σ} {b' : Builder τ} {b : Builder σ} {rules : Rules}

theorem tell (h : Refines π b' b) (e : Event) (c : UInt8) (r : Reader) (t : τ) :
    r.tell b e c (π t) = Prod.map id π (r.tell b' e c t) := by
  rw [Reader.tell, Reader.tell, h e t]
  obtain ⟨a, t'⟩ := b' e t
  cases a <;> rfl

theorem ensureStarted (h : Refines π b' b) (c : UInt8) (r : Reader) (t : τ) :
    r.ensureStarted b c (π t) = Prod.map id π (r.ensureStarted b' c t) := by
  rw [Reader.ensureStarted, Reader.ensureStarted]
  split
  · rfl
  · rw [h .programStart t]
    obtain ⟨a, t'⟩ := b' .programStart t
    cases a <;> rfl

theorem announce (h : Refines π b' b) (e : Event) (c : UInt8) (r : Reader) (t : τ) :
    r.announce b e c (π t) = Prod.map id π (r.announce b' e c t) := by
  rw [Reader.announce, Reader.announce, h.ensureStarted]
  simp only [Prod.map_fst, Prod.map_snd, id_eq, h.tell]
  split <;> rfl

theorem endBlock (h : Refines π b' b) (c : UInt8) (r : Reader) (t : τ) :
    r.endBlock rules b c (π t) = Prod.map id π (r.endBlock rules b' c t) := by
  rw [Reader.endBlock, Reader.endBlock, h.announce]
  simp only [Prod.map_fst, Prod.map_snd, id_eq]
  split
  · rfl
  · split
    · split <;> rfl
    · rfl

theorem atGap (h : Refines π b' b) (place : Place) (c : UInt8) (r : Reader) (t : τ) :
    r.atGap rules b place c (π t) = Prod.map id π (r.atGap rules b' place c t) := by
  rw [Reader.atGap, Reader.atGap, h.endBlock, h.announce]
  simp only [apply_ite (Prod.map id π)]
  rfl

theorem endWord (h : Refines π b' b) (w : Word) (l : Literal) (c : UInt8) (r : Reader) (t : τ) :
    r.endWord b w l c (π t) = (r.endWord b' w l c t).map π := by
  rw [Reader.endWord, Reader.endWord]
  split
  · rfl
  · simp only [h.announce, Prod.map_fst, Prod.map_snd, id_eq]
    split <;> rfl

theorem dispatch (h : Refines π b' b) (c : UInt8) (r : Reader) (t : τ) :
    r.dispatch rules b c (π t) = (r.dispatch rules b' c t).map π := by
  rw [Reader.dispatch, Reader.dispatch]
  simp only [h.atGap, h.endWord, h.endBlock, Prod.map_fst, Prod.map_snd, id_eq]
  split
  case h_3 =>
    split_ifs
    · split <;> rfl
    · rfl
    · rfl
  case h_1 | h_10 => rfl
  case h_2 | h_4 | h_5 | h_6 | h_7 | h_8 | h_9 => split_ifs <;> rfl

theorem process (h : Refines π b' b) (c : UInt8) (r : Reader) (t : τ) :
    r.process rules b c (π t) = Prod.map id π (r.process rules b' c t) := by
  rw [Reader.process, Reader.process, h.dispatch]
  cases r.dispatch rules b' c t with
  | settled r' t' => rfl
  | again r' t' =>
    simp only [Verdict.map, h.dispatch]
    cases r'.dispatch rules b' c t' <;> rfl

/-- The reader takes the same steps with both builders. -/
theorem feed (h : Refines π b' b) (c : UInt8) (r : Reader) (t : τ) :
    r.feed rules b c (π t) = Prod.map id π (r.feed rules b' c t) := by
  rw [Reader.feed, Reader.feed, h.process]
  split <;> rfl

theorem finish (h : Refines π b' b) (r : Reader) (t : τ) :
    r.finish rules b (π t) = Prod.map id π (r.finish rules b' t) := by
  rw [Reader.finish, Reader.finish, h.feed]
  split_ifs <;> rfl

end Refines

/-! ### The record -/

/-- The builder `b` with a list at which it notes each event and its answer to it. -/
def record {ε : Type} (note : Event → Answer → ε) (b : Builder σ) : Builder (σ × List ε) :=
  fun e (s, notes) => ((b e s).1, (b e s).2, notes ++ [note e (b e s).1])

theorem refines_record {ε : Type} (note : Event → Answer → ε) (b : Builder σ) : Refines Prod.fst (record note b) b :=
  fun _ _ => rfl

end PartProgram.Block
