import PartProgram.Proofs.Checksum
import PartProgram.Proofs.Chunking

/-!
# The end of the input is a line end

At the end of the input the reader does what it would do at a line end. Where a block has not begun it does
nothing instead; that is the same only if nothing else can be pending there, and the one thing that could be is a
checksum. A reader that calls can lead to has a declared checksum only after the star of it and up to the line end
(`Reachable.declared`), so at the start of a block it has none.

After a line end nothing is left that the end of the input would have to end, and after the end of the
input there is nothing either (`finish_feed_lf`, `finish_finish`).
-/

namespace PartProgram.Block

open Number Reader

variable {σ τ : Type} {rules rules' : Rules} {b : Builder σ} {c : UInt8} {r r' : Reader} {s : σ} {t : Bytes}

/-! ### Where a checksum can be pending -/

/-- In this mode the star of a checksum can have been read. -/
def Mode.PastStar : Mode → Prop
  | gap place | comment place => place = .afterChecksum
  | checksumStart | checksum | lineComment | failed _ => True
  | address _ | value .. | programMarker | skipLine => False

theorem Mode.PastStar.closed {m : Mode} (h : m.PastStar) : m.Closed := by
  cases m with
  | gap place | comment place => exact h
  | address w | value w l => exact h.elim
  | _ => trivial

/-- A byte keeps a reader from having a declared checksum without its star. -/
theorem Change.declared (h : Change rules c r r') (hr : ¬ r.mode.PastStar → r.declared = none)
    (hm : ¬ r'.mode.PastStar) : r'.declared = none := by
  have hopen : ¬ r.mode.Closed → r.declared = none := fun hclosed => hr fun hpast => hclosed hpast.closed
  cases h with
  | passed _ mode sum => exact sum.declared.trans (hr (mode ▸ hm))
  | @gap place h _ mode sum | @comment place h _ mode sum =>
    have hp : place ≠ .afterChecksum := by simpa [mode, Mode.PastStar] using hm
    exact sum.declared.trans (hopen (h.not_closed hp))
  | @closeParen place h _ mode sum =>
    have hp : ¬ r.mode.PastStar := by simpa [mode, h, Mode.PastStar] using hm
    exact sum.declared.trans (hr hp)
  | marker h _ _ sum => exact sum.declared.trans (hr (by simp [h, Mode.PastStar]))
  | word h hp _ _ sum => exact sum.declared.trans (hopen (h.not_closed hp))
  | number h _ _ sum => exact sum.declared.trans (hopen (Mode.not_closed_of_word? h))
  | index h _ _ sum => exact sum.declared.trans (hr (by simp [h, Mode.PastStar]))
  | lineEnd _ _ _ declared => exact declared
  | lineComment _ _ mode _ | star _ _ _ mode _ _ | digit _ _ mode _ _ | unfit _ _ mode | unfinished _ _ _ mode
  | fault _ mode =>
    rw [mode] at hm
    exact absurd trivial hm

/-- A reachable reader has a declared checksum only where its star has been read. -/
theorem Reachable.declared (h : Reachable rules r) (hm : ¬ r.mode.PastStar) : r.declared = none := by
  induction h with
  | new => rfl
  | skipBlock _ _ => rfl
  | @feed σ r b c s _ ih =>
    cases hr : r.failed with
    | true =>
      rw [feed_of_failed hr] at hm ⊢
      exact ih hm
    | false => exact (change_feed rules b c s hr).declared ih hm

/-! ### The end of the input -/

/-- At the start of a block that has no content a line end does nothing but end the line. -/
theorem feed_lf_of_empty (h : Reachable rules r) (hm : r.mode = .blockStart) (hc : r.hasContent = false) (b : Builder σ)
    (s : σ) : r.feed rules b Byte.lf s = ((r.advance Byte.lf).resetBlock, s) := by
  have hd : (r.advance Byte.lf).declared = none := h.declared (by simp [hm, Mode.PastStar])
  have hw : (r.advance Byte.lf).checksumWrong rules = false := by rw [checksumWrong, hd]
  rw [feed_of_not_failed (failed_of_mode hm), process_advance_gap hm, atGap_lf, endBlock, if_neg (by simp [hw]),
    if_neg (by simp [hc])]

/-- The end of the input has the outcome of a line end. -/
theorem finish_eq_feed_lf (h : Reachable rules r) (b : Builder σ) (s : σ) :
    (r.finish rules b s).2 = (r.feed rules b Byte.lf s).2 ∧
      (r.finish rules b s).1.fault? = (r.feed rules b Byte.lf s).1.fault? := by
  rw [Reader.finish]
  split_ifs with hr hempty
  · rw [feed_of_failed hr]
    exact ⟨rfl, rfl⟩
  · rw [feed_lf_of_empty h hempty.1 (by simpa using hempty.2), fault?_eq_none_iff.mpr (by simpa using hr)]
    exact ⟨rfl, rfl⟩
  · exact ⟨rfl, rfl⟩

/-- After a line end nothing is left for the end of the input. -/
theorem finish_feed_lf (r : Reader) (s : σ) (b' : Builder τ) (s' : τ) :
    (r.feed rules b Byte.lf s).1.finish rules' b' s' = ((r.feed rules b Byte.lf s).1, s') := by
  cases hr : r.failed with
  | true => rw [feed_of_failed hr, Reader.finish, if_pos hr]
  | false =>
    rw [feed_of_not_failed hr]
    obtain hfailed | ⟨r₀, hreset⟩ := process_lf_failed_or_reset rules b (r.advance Byte.lf) s
    · rw [Reader.finish, if_pos hfailed]
    · rw [hreset, Reader.finish, if_neg (by simp), if_pos ⟨rfl, by simp [resetBlock]⟩]

/-- After the end of the input nothing is left for another one. -/
theorem finish_finish (r : Reader) (s : σ) (b' : Builder τ) (s' : τ) :
    (r.finish rules b s).1.finish rules b' s' = ((r.finish rules b s).1, s') := by
  by_cases hr : r.failed = true
  · have h : r.finish rules b s = (r, s) := if_pos hr
    rw [h, Reader.finish, if_pos hr]
  by_cases hempty : r.mode = .blockStart ∧ ¬ r.hasContent
  · have h : r.finish rules b s = (r, s) := by rw [Reader.finish, if_neg hr, if_pos hempty]
    rw [h, Reader.finish, if_neg hr, if_pos hempty]
  · have h : r.finish rules b s = r.feed rules b Byte.lf s := by rw [Reader.finish, if_neg hr, if_neg hempty]
    rw [h, finish_feed_lf]

/-! ### What the caller gets -/

theorem answer_finish (r : Reader) (s : σ) : answer rules b .finish r s = some !(r.finish rules b s).1.failed := rfl

theorem answer_byte (c : UInt8) (r : Reader) (s : σ) :
    answer rules b (.byte c) r s = some !(r.feed rules b c s).1.failed := rfl

theorem failed_finish (h : Reachable rules r) (b : Builder σ) (s : σ) :
    (r.finish rules b s).1.failed = (r.feed rules b Byte.lf s).1.failed := by
  rw [Reader.failed, (finish_eq_feed_lf h b s).2, Reader.failed]

theorem told_finish (h : Reachable rules r) (b : Builder σ) (s : σ) :
    (reply rules b .finish r s).told = (reply rules b (.byte Byte.lf) r s).told :=
  congrArg Prod.snd (finish_eq_feed_lf h (record Prod.mk b) (s, [])).1

theorem fault_finish (h : Reachable rules r) (b : Builder σ) (s : σ) :
    (reply rules b .finish r s).fault = (reply rules b (.byte Byte.lf) r s).fault :=
  (finish_eq_feed_lf h (record Prod.mk b) (s, [])).2

/-- Where nothing is left for the end of the input, the builder is told nothing of it. -/
theorem told_finish_of_eq (h : ∀ (b' : Builder (σ × List (Event × Answer))) x, r.finish rules b' x = (r, x)) (s : σ) :
    (reply rules b .finish r s).told = [] := by
  have hnone : perform rules (record Prod.mk b) .finish r (s, []) = (r, s, []) := h _ _
  rw [reply, hnone]
  rfl

theorem perform_text_singleton (c : UInt8) (r : Reader) (s : σ) :
    perform rules b (.text [c]) r s = r.feed rules b c s := by
  rw [perform, feedText_singleton]

theorem told_text_singleton (c : UInt8) (r : Reader) (s : σ) :
    (reply rules b (.text [c]) r s).told = (reply rules b (.byte c) r s).told := by
  rw [reply, reply, perform_text_singleton]
  rfl

/-- Of a text and the end of the input the builder is told what it is told of the text with a line end. -/
theorem told_text_finish (h : Reachable rules r) (b : Builder σ) (t : Bytes) (s : σ) :
    toldBy rules b [.text t, .finish] r s = toldBy rules b [.text (t ++ [Byte.lf]), .finish] r s := by
  have hread := h.perform b (.text t) s
  have hrest : (reply rules b .finish (perform rules b (.text (t ++ [Byte.lf])) r s).1
      (perform rules b (.text (t ++ [Byte.lf])) r s).2).told = [] := by
    rw [perform_append, perform_text_singleton]
    exact told_finish_of_eq (finish_feed_lf _ _) _
  rw [toldBy_cons, toldBy_cons, toldBy_cons, toldBy_cons, told_append_text, told_text_singleton, hrest,
    told_finish hread]
  simp [toldBy, replies]

theorem forall_mem_replies_pair (call call' : Call) (r : Reader) (s : σ) :
    (∀ o ∈ replies rules b [call, call'] r s, o.answer = some true) ↔
      answer rules b call r s = some true ∧
        answer rules b call' (perform rules b call r s).1 (perform rules b call r s).2 = some true := by
  simp [replies, reply]

/-- A text and the end of the input are answered well exactly if the text with a line end is. -/
theorem answers_text_finish (h : Reachable rules r) (b : Builder σ) (t : Bytes) (s : σ) :
    (∀ o ∈ replies rules b [.text t, .finish] r s, o.answer = some true) ↔
      ∀ o ∈ replies rules b [.text (t ++ [Byte.lf]), .finish] r s, o.answer = some true := by
  have hread := h.perform b (.text t) s
  rw [forall_mem_replies_pair, forall_mem_replies_pair, perform_append, perform_text_singleton, answer_finish,
    answer_finish, finish_feed_lf, failed_finish hread, answer, answer, feedText_append]
  cases ht : (feedText rules b t r s).1 with
  | false => simp [ht]
  | true => simp [feedText_singleton, perform]

/-- **The end of the input is a line end.** However the reader was brought to where it is, the end of the input tells
the builder what a line end would tell it, is answered as a line end would be, and comes to the same fault if there is
one. After an end of the input that was answered well another one is answered well, and the builder is told nothing.
So a text to the end of the input comes to the same as the text with a line end. -/
theorem finish_is_line_end (rules : Rules) (h : Reachable rules r) (b : Builder σ) (s : σ) :
    let ended := reply rules b .finish r s
    let fed := reply rules b (.byte Byte.lf) r s
    let after := perform rules b .finish r s
    (ended.told = fed.told ∧ ended.answer = fed.answer ∧ ended.fault = fed.fault ∧
      after.2 = (perform rules b (.byte Byte.lf) r s).2) ∧
    (ended.answer = some true → (reply rules b .finish after.1 after.2).answer = some true ∧
      (reply rules b .finish after.1 after.2).told = []) ∧
    ∀ t, toldBy rules b [.text t, .finish] r s = toldBy rules b [.text (t ++ [Byte.lf]), .finish] r s ∧
      ((∀ o ∈ replies rules b [.text t, .finish] r s, o.answer = some true) ↔
        ∀ o ∈ replies rules b [.text (t ++ [Byte.lf]), .finish] r s, o.answer = some true) := by
  intro ended fed after
  refine ⟨⟨told_finish h b s, ?_, fault_finish h b s, (finish_eq_feed_lf h b s).1⟩, fun hended => ⟨?_, ?_⟩, fun t => ?_⟩
  · change answer rules b .finish r s = answer rules b (.byte Byte.lf) r s
    rw [answer_finish, answer_byte, failed_finish h]
  · change answer rules b .finish (r.finish rules b s).1 (r.finish rules b s).2 = some true
    rw [answer_finish, finish_finish]
    exact hended
  · exact told_finish_of_eq (finish_finish r s) _
  · exact ⟨told_text_finish h b t s, answers_text_finish h b t s⟩

/-- A reader in the last word of a text, after a line that was given up. -/
def unended : Reader := (run {} (refusing 0x58) [.text (ascii "X1 "), .skipBlock, .text (ascii "\nM2")] ()).1

/-- The end of the input ends the word and its block. -/
theorem finish_is_line_end_unended :
    Reachable {} unended ∧ (reply {} (refusing 0x58) .finish unended ()).told =
      [(.mCode ⟨2, 0⟩, .accept), (.endBlock, .accept)] := by
  have h : Reachable {} unended := reachable_run {} _ _ ()
  exact ⟨h, (finish_is_line_end {} h (refusing 0x58) ()).1.1.trans (by decide)⟩

end PartProgram.Block
