import PartProgram.Proofs.Protocol
import PartProgram.Proofs.Transition

/-!
# What a caller gets from a reader

A caller makes calls on a reader and gets for each an answer, the fault if there is one, and the
position (`Reply`). The readers that calls can lead to are the *reachable* ones; it does not matter
to what builders the bytes are told, nor what is done to a builder between two calls
(`Reachable`). A reachable reader that has not stopped and is at the start of a line has nothing
left of the lines before, whatever became of them (`Reachable.atLine`); and what one in a word knows of it is what its
address and its number so far tell (`Reachable.word_induction`).

A reader that has stopped does nothing until it is made to go on: it tells the builder nothing and
stays as it is. Its answer is that it has failed, with one exception: asked to read an empty text, it
answers as one that has read all of it (`perform_of_failed`).
-/

namespace PartProgram.Block

open Number Reader

variable {σ τ : Type} {rules : Rules} {b : Builder σ} {c : UInt8} {r : Reader} {s : σ}

/-! ### Texts in parts -/

/-- A text is read part by part, up to the first fault. -/
theorem feedText_append (t u : Bytes) : ∀ (r : Reader) (s : σ),
    feedText rules b (t ++ u) r s =
      if (feedText rules b t r s).1 then feedText rules b u (feedText rules b t r s).2.1 (feedText rules b t r s).2.2
      else feedText rules b t r s := by
  induction t with
  | nil => intro r s; rfl
  | cons c t ih =>
    intro r s
    rw [List.cons_append, feedText, feedText]
    simp only
    split_ifs with hf h h
    · simp at h
    · rfl
    · rw [ih, if_pos h]
    · rw [ih, if_neg h]

theorem feedText_append_of_true {t u : Bytes} {r' : Reader} {s' : σ} (h : feedText rules b t r s = (true, r', s')) :
    feedText rules b (t ++ u) r s = feedText rules b u r' s' := by
  rw [feedText_append, h]
  rfl

theorem feedText_append_eq_true {t u : Bytes} {r' : Reader} {s' : σ}
    (h : feedText rules b (t ++ u) r s = (true, r', s')) :
    ∃ r₁ s₁, feedText rules b t r s = (true, r₁, s₁) ∧ feedText rules b u r₁ s₁ = (true, r', s') := by
  rw [feedText_append] at h
  split_ifs at h with ht
  · exact ⟨_, _, Prod.ext ht rfl, h⟩
  · rw [h] at ht
    contradiction

theorem not_failed_of_feed (h : (r.feed rules b c s).1.failed = false) : r.failed = false := by
  by_contra hr
  rw [Bool.not_eq_false] at hr
  rw [feed_of_failed hr, hr] at h
  contradiction

theorem feedText_cons_of_feed {t : Bytes} {r₁ : Reader} {s₁ : σ} (h : r.feed rules b c s = (r₁, s₁))
    (hr₁ : r₁.failed = false) : feedText rules b (c :: t) r s = feedText rules b t r₁ s₁ := by
  rw [feedText, h]
  simp [hr₁]

theorem feedText_cons_eq_true {t : Bytes} {r' : Reader} {s' : σ} (h : feedText rules b (c :: t) r s = (true, r', s')) :
    (r.feed rules b c s).1.failed = false ∧
      feedText rules b t (r.feed rules b c s).1 (r.feed rules b c s).2 = (true, r', s') := by
  rw [feedText] at h
  simp only at h
  split_ifs at h with hf
  · cases congrArg Prod.fst h
  · exact ⟨by simpa using hf, h⟩

theorem feedText_singleton (c : UInt8) (r : Reader) (s : σ) :
    feedText rules b [c] r s = (!(r.feed rules b c s).1.failed, r.feed rules b c s) := by
  rw [feedText]
  simp only
  split_ifs with hf
  · simp [hf]
  · simp [feedText, hf]

/-! ### Builders with more in their state -/

theorem Refines.feedText {π : τ → σ} {b' : Builder τ} (h : Refines π b' b) (u : Bytes) : ∀ (r : Reader) (t : τ),
    feedText rules b u r (π t) = Prod.map id (Prod.map id π) (Reader.feedText rules b' u r t) := by
  induction u with
  | nil => intro r t; rfl
  | cons c u ih =>
    intro r t
    rw [Reader.feedText, Reader.feedText, h.feed]
    simp only [Prod.map_fst, Prod.map_snd, id_eq, ih]
    split_ifs <;> rfl

theorem Refines.perform {π : τ → σ} {b' : Builder τ} (h : Refines π b' b) (call : Call) (r : Reader) (t : τ) :
    perform rules b call r (π t) = Prod.map id π (Block.perform rules b' call r t) := by
  cases call with
  | byte c => exact h.feed c r t
  | text u => rw [Block.perform, Block.perform, h.feedText]; rfl
  | finish => exact h.finish r t
  | skipBlock => rfl
  | reset => rfl

/-! ### Replies -/

/-- What the caller is answered, if the call answers. -/
def answer (rules : Rules) (b : Builder σ) (call : Call) (r : Reader) (s : σ) : Option Bool :=
  match call with
  | .byte _ | .finish => some !(perform rules b call r s).1.failed
  | .text t => some (feedText rules b t r s).1
  | .skipBlock | .reset => none

/-- What can be seen of a call, and the answer to it. -/
structure Reply extends Observation where
  /-- Whether all went well, if the call answers. -/
  answer : Option Bool
  deriving DecidableEq, Repr

/-- The reply to a call. -/
def reply (rules : Rules) (b : Builder σ) (call : Call) (r : Reader) (s : σ) : Reply where
  toObservation := .of (perform rules (record Prod.mk b) call r (s, []))
  answer := answer rules b call r s

/-- The replies to calls that are made one after the other. -/
def replies (rules : Rules) (b : Builder σ) : List Call → Reader → σ → List Reply
  | [], _, _ => []
  | call :: calls, r, s =>
    let (r', s') := perform rules b call r s
    reply rules b call r s :: replies rules b calls r' s'

theorem replies_cons (call : Call) (calls : List Call) (r : Reader) (s : σ) :
    replies rules b (call :: calls) r s =
      reply rules b call r s :: replies rules b calls (perform rules b call r s).1 (perform rules b call r s).2 := rfl

/-! ### Reachable readers -/

/-- A reader that calls can lead to. -/
inductive Reachable (rules : Rules) : Reader → Prop where
  /-- A new one, or one that starts over. -/
  | new : Reachable rules {}
  /-- It reads a byte, with some builder in some state. -/
  | feed {σ : Type} {r : Reader} (b : Builder σ) (c : UInt8) (s : σ) :
      Reachable rules r → Reachable rules (r.feed rules b c s).1
  /-- It gives up a block. -/
  | skipBlock {r : Reader} : Reachable rules r → Reachable rules r.skipBlock

theorem Reachable.feedText (t : Bytes) : ∀ {r : Reader} (s : σ), Reachable rules r →
    Reachable rules (feedText rules b t r s).2.1 := by
  induction t with
  | nil => intro r s h; exact h
  | cons c t ih =>
    intro r s h
    rw [Reader.feedText]
    simp only
    split_ifs
    · exact h.feed b c s
    · exact ih _ (h.feed b c s)

/-- Every call leads from reachable readers to reachable ones. -/
theorem Reachable.perform (h : Reachable rules r) (b : Builder σ) (call : Call) (s : σ) :
    Reachable rules (perform rules b call r s).1 := by
  cases call with
  | byte c => exact h.feed b c s
  | text t => exact h.feedText t s
  | finish =>
    rw [Block.perform, Reader.finish]
    split_ifs
    · exact h
    · exact h
    · exact h.feed b Byte.lf s
  | skipBlock => exact h.skipBlock
  | reset => exact Reachable.new

theorem reachable_run (rules : Rules) (b : Builder σ) (calls : List Call) (s : σ) :
    Reachable rules (run rules b calls s).1 := by
  induction calls using List.reverseRecOn with
  | nil => exact Reachable.new
  | append_singleton calls call ih =>
    rw [run, List.foldl_append]
    exact ih.perform b call _

/-- At the start of a line a reader that has not stopped has nothing left of the lines before. -/
theorem Reachable.atLine (h : Reachable rules r) (hr : r.failed = false) (hl : r.atLineStart = true) : r.AtLine := by
  induction h with
  | new => exact atLine_fresh {}
  | @feed σ r b c s _ ih =>
    cases hr₀ : r.failed with
    | true =>
      rw [feed_of_failed hr₀] at hr hl ⊢
      exact ih hr hl
    | false =>
      rw [atLineStart_feed hr₀] at hl
      obtain rfl : c = Byte.lf := by simpa using hl
      have hline : (feedAll rules b (fun _ s => s) true [Byte.lf] r s).1.AtLine := atLine_feedAll_lf hr₀
      rwa [feedAll_of_no_fault (fault?_eq_none_iff.mpr hr)] at hline
  | skipBlock _ _ => exact atLine_skipBlock hl

/-- What holds of a word at its address, and is kept by its number, by its index and by the number after it, holds of
the word that a reachable reader is in. -/
theorem Reachable.word_induction {P : Word → Literal → Prop}
    (haddress : ∀ {c letter : UInt8} (column : Nat), addressOf? rules c = some letter → P ⟨letter, column, none⟩ {})
    (hnumber : ∀ {w : Word} {l l' : Literal} {c : UInt8}, P w l → l.step rules.arithmetic c = .ok l' → P w l')
    (hindex : ∀ {w : Word} {l : Literal}, P w l → P { w with index := some l.significand } {})
    (h : Reachable rules r) : ∀ {w : Word} {l : Literal}, r.mode.word? = some (w, l) → P w l := by
  induction h with
  | new => simp [Mode.word?]
  | skipBlock _ _ =>
    intro w l hword
    rw [Reader.skipBlock] at hword
    split at hword <;> simp [Mode.word?] at hword
  | @feed σ r b c s _ ih =>
    intro w l hword
    cases hr : r.failed with
    | true =>
      rw [feed_of_failed hr] at hword
      exact ih hword
    | false =>
      cases change_feed rules b c s hr with
      | passed h mode _ =>
        rw [mode] at hword
        exact ih hword
      | word h hp hc mode _ =>
        rw [mode, Mode.word?] at hword
        cases hword
        exact haddress _ hc
      | number h hl mode _ =>
        rw [mode, Mode.word?] at hword
        cases hword
        exact hnumber (ih h) hl
      | index h hc mode _ =>
        rw [mode, Mode.word?] at hword
        cases hword
        have hvalue : r.mode.word? = some _ := congrArg Mode.word? h
        exact hindex (ih hvalue)
      | _ => simp_all [Mode.word?]

/-! ### A reader that has stopped -/

theorem feedText_of_failed (hr : r.failed = true) (t : Bytes) : feedText rules b t r s = (t.isEmpty, r, s) := by
  cases t with
  | nil => rfl
  | cons c t => simp [feedText, feed_of_failed hr, hr]

/-- A reader that has stopped is not changed by a call that does not make it go on, and nothing is
told. -/
theorem perform_of_failed (hr : r.failed = true) (b : Builder σ) {call : Call} (hskip : call ≠ .skipBlock)
    (hreset : call ≠ .reset) (s : σ) : perform rules b call r s = (r, s) := by
  cases call with
  | byte c => exact feed_of_failed hr
  | text t => rw [perform, feedText_of_failed hr]
  | finish => exact if_pos hr
  | skipBlock => exact absurd rfl hskip
  | reset => exact absurd rfl hreset

theorem answer_of_failed (hr : r.failed = true) (b : Builder σ) {call : Call} (hskip : call ≠ .skipBlock)
    (hreset : call ≠ .reset) (s : σ) : answer rules b call r s = some (decide (call = .text [])) := by
  have hperform : perform rules b call r s = (r, s) := perform_of_failed hr b hskip hreset s
  cases call with
  | byte c => simp [answer, hperform, hr]
  | text t => cases t <;> simp [answer, feedText_of_failed hr]
  | finish => simp [answer, hperform, hr]
  | skipBlock => exact absurd rfl hskip
  | reset => exact absurd rfl hreset

/-- **A reader that has stopped stays stopped.** Whatever it is made to read, it tells the builder
nothing and stays as it is, with its fault and its position; and it answers that it has failed to
every call but one, the call to read an empty text. -/
theorem stopped_stays (rules : Rules) (hr : r.failed = true) (b : Builder σ) (s : σ) (call : Call)
    (hskip : call ≠ .skipBlock) (hreset : call ≠ .reset) :
    perform rules b call r s = (r, s) ∧
      (reply rules b call r s).toObservation = ⟨[], r.fault?, r.line, r.column⟩ ∧
      ((reply rules b call r s).answer = some false ↔ call ≠ .text []) := by
  refine ⟨perform_of_failed hr b hskip hreset s, ?_, ?_⟩
  · rw [reply, perform_of_failed hr (record Prod.mk b) hskip hreset]
    rfl
  · rw [reply, answer_of_failed hr b hskip hreset]
    simp

/-- The reader of a text that starts with a byte that can start no block. -/
def stopped : Reader := (run {} (refusing 0x58) [.text (ascii "?")] ()).1

/-- More of the line does not bring the reader on. -/
theorem stopped_stays_text :
    stopped.failed = true ∧
      (reply {} (refusing 0x58) (.text (ascii "G1\n")) stopped ()).answer = some false :=
  ⟨by decide, (stopped_stays {} (r := stopped) (by decide) (refusing 0x58) () (.text (ascii "G1\n")) (by simp)
    (by simp)).2.2.mpr (by decide)⟩

/-- Asked to read an empty text, a reader that has stopped answers that all went well. -/
theorem stopped_answers_empty_text :
    stopped.failed = true ∧ (reply {} (refusing 0x58) (.text []) stopped ()).answer = some true := by decide

end PartProgram.Block
