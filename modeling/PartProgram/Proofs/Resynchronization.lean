import PartProgram.Proofs.Recording

/-!
# A line does not depend on the lines before it

A reader that goes on after each fault (`feedAll`) is, at the start of a line, like a reader that has
read nothing, but for the line number, the column of the last line end and whether a program is
running (`AtLine`). It does not matter how the line before ended: with the end of its block, with a
fault at the line end, or with a fault somewhere in it, after which the rest is passed over. The
column is forgotten with the next byte, so nobody can tell the two readers apart
(`ObservablyEqual`).

After a fault in a line nothing can go wrong in the rest of it, and a line has at most one fault.
-/

namespace PartProgram.Block

open Number Reader

variable {σ : Type} {rules : Rules} {b : Builder σ} {onFault : Fault → σ → σ} {c : UInt8} {r r' : Reader} {s : σ}

/-! ### What can be seen of a reader -/

/-- What can be seen of one call of the reader. -/
structure Observation where
  /-- What the builder was told, and what it answered. -/
  told : List (Event × Answer)
  /-- The fault, if the call failed. -/
  fault : Option Fault
  /-- The line of the last byte. -/
  line : Nat
  /-- The column of the last byte. -/
  column : Nat
  deriving DecidableEq, Repr

/-- What can be seen of a call that was made with an empty record. -/
def Observation.of (x : Reader × σ × List (Event × Answer)) : Observation :=
  ⟨x.2.2, x.1.fault?, x.1.line, x.1.column⟩

/-- What can be seen of reading a byte. -/
def observeByte (rules : Rules) (b : Builder σ) (c : UInt8) (r : Reader) (s : σ) : Observation :=
  .of (r.feed rules (record Prod.mk b) c (s, []))

/-- What can be seen of reading a text byte by byte, going on after each fault. -/
def observe (rules : Rules) (b : Builder σ) (onFault : Fault → σ → σ) : Bytes → Reader → σ → List Observation
  | [], _, _ => []
  | c :: cs, r, s =>
    let (r', s') := feedAll rules b onFault true [c] r s
    observeByte rules b c r s :: observe rules b onFault cs r' s'

/-- What can be seen of the end of the input after a text. -/
def observeEnd (rules : Rules) (b : Builder σ) (onFault : Fault → σ → σ) (t : Bytes) (r : Reader) (s : σ) :
    Observation :=
  let (r', s') := feedAll rules b onFault true t r s
  .of (r'.finish rules (record Prod.mk b) (s', []))

/-- Nobody can tell the readers apart by what they do with a text and the end of the input, if the
position is looked at only after a byte has been read. -/
structure ObservablyEqual (rules : Rules) (b : Builder σ) (onFault : Fault → σ → σ) (r r' : Reader) : Prop where
  /-- Every byte of every text does the same. -/
  bytes : ∀ t s, observe rules b onFault t r s = observe rules b onFault t r' s
  /-- The end of the input does the same after a text. -/
  finish_cons : ∀ c t s, observeEnd rules b onFault (c :: t) r s = observeEnd rules b onFault (c :: t) r' s
  /-- Without a text the builder is told the same. -/
  told_finish : ∀ s, (observeEnd rules b onFault [] r s).told = (observeEnd rules b onFault [] r' s).told
  /-- Without a text there is the same fault. -/
  fault_finish : ∀ s, (observeEnd rules b onFault [] r s).fault = (observeEnd rules b onFault [] r' s).fault

/-- The faults among what can be seen. -/
def faults (os : List Observation) : List Fault := os.filterMap (·.fault)

/-! ### Going on after a fault -/

theorem feedAll_cons (cs : Bytes) :
    feedAll rules b onFault true (c :: cs) r s =
      feedAll rules b onFault true cs (feedAll rules b onFault true [c] r s).1
        (feedAll rules b onFault true [c] r s).2 := by
  simp only [feedAll, if_true]
  split <;> rfl

theorem feedAll_append (cs ds : Bytes) : ∀ (r : Reader) (s : σ),
    feedAll rules b onFault true (cs ++ ds) r s =
      feedAll rules b onFault true ds (feedAll rules b onFault true cs r s).1
        (feedAll rules b onFault true cs r s).2 := by
  induction cs with
  | nil => intro r s; rfl
  | cons c cs ih =>
    intro r s
    rw [List.cons_append, feedAll_cons, ih, ← feedAll_cons]

theorem feedAll_of_fault {f : Fault} (h : (r.feed rules b c s).1.fault? = some f) :
    feedAll rules b onFault true [c] r s =
      ((r.feed rules b c s).1.skipBlock, onFault f (r.feed rules b c s).2) := by
  simp only [feedAll, h, if_true]

theorem feedAll_of_no_fault (h : (r.feed rules b c s).1.fault? = none) :
    feedAll rules b onFault true [c] r s = r.feed rules b c s := by
  simp only [feedAll, h]

theorem fault?_eq_none_iff : r.fault? = none ↔ r.failed = false := by
  rw [Reader.failed]
  cases r.fault? <;> simp

/-- A byte after which the reader goes on does not leave it stopped. -/
theorem not_failed_feedAll (c : UInt8) (r : Reader) (s : σ) :
    (feedAll rules b onFault true [c] r s).1.failed = false := by
  cases h : (r.feed rules b c s).1.fault? with
  | none => rwa [feedAll_of_no_fault h, ← fault?_eq_none_iff]
  | some f =>
    rw [feedAll_of_fault h, skipBlock]
    split <;> rfl

theorem not_failed_feedAll_of_not_failed (t : Bytes) : ∀ (r : Reader) (s : σ), r.failed = false →
    (feedAll rules b onFault true t r s).1.failed = false := by
  induction t with
  | nil => intro r s hr; exact hr
  | cons c t ih =>
    intro r s _
    rw [feedAll_cons]
    exact ih _ _ (not_failed_feedAll c r s)

theorem atLineStart_feed (hr : r.failed = false) : (r.feed rules b c s).1.atLineStart = (c == Byte.lf) := by
  rw [feed_of_not_failed hr, (samePosition_process rules b c (r.advance c) s).atLineStart, atLineStart_advance]

/-! ### The end of a line -/

theorem endBlock_failed_or_reset (rules : Rules) (b : Builder σ) (c : UInt8) (r : Reader) (s : σ) :
    (r.endBlock rules b c s).1.failed = true ∨ ∃ r₀ : Reader, (r.endBlock rules b c s).1 = r₀.resetBlock := by
  rw [endBlock]
  split_ifs
  · exact Or.inl rfl
  · simp only
    split
    · next h => exact Or.inl h
    · exact Or.inr ⟨_, rfl⟩
  · exact Or.inr ⟨r, rfl⟩

/-- However far the reader has come in a line, the line end stops it or brings it to the start of a
block. -/
theorem process_lf_failed_or_reset (rules : Rules) (b : Builder σ) (r : Reader) (s : σ) :
    (r.process rules b Byte.lf s).1.failed = true ∨
      ∃ r₀ : Reader, (r.process rules b Byte.lf s).1 = r₀.resetBlock := by
  have hend := endBlock_failed_or_reset rules b Byte.lf
  cases hm : r.mode with
  | gap place =>
    rw [process_gap hm, atGap_lf]
    exact hend r s
  | address w =>
    rw [process_address_lf hm]
    exact Or.inl rfl
  | value w l =>
    cases hl : l.finish with
    | error e =>
      rw [process_value_lf_incomplete hm hl]
      exact Or.inl rfl
    | ok d =>
      rw [process_value_lf hm hl]
      split
      · next h => exact Or.inl h
      · exact hend _ _
  | comment place =>
    rw [process_comment_lf hm]
    exact Or.inl rfl
  | lineComment =>
    rw [process_lineComment_lf hm]
    exact hend r s
  | checksumStart =>
    rw [process_checksumStart_lf hm]
    exact Or.inl rfl
  | checksum =>
    rw [process_checksum_lf hm]
    exact hend _ s
  | programMarker =>
    rw [process_passed_lf (Or.inl hm)]
    exact Or.inr ⟨r, rfl⟩
  | skipLine =>
    rw [process_passed_lf (Or.inr hm)]
    exact Or.inr ⟨r, rfl⟩
  | failed f =>
    rw [process_failed hm]
    exact Or.inl (failed_of_mode hm)

/-! ### The start of a line -/

/-- The reader as it is before its first byte, but for the line number and whether a program is
running. -/
def Reader.fresh (r : Reader) : Reader := { line := r.line, programStarted := r.programStarted }

/-- Nothing of the lines before is left in the reader, but for the line number, a column and whether
a program is running. -/
def Reader.AtLine (r : Reader) : Prop := r = { r.fresh with column := r.column }

theorem atLine_fresh (r : Reader) : r.fresh.AtLine := rfl

theorem atLine_resetBlock (h : r.atLineStart = true) : r.resetBlock.AtLine := by
  rw [AtLine, resetBlock, fresh]
  simp [h]

theorem atLine_skipBlock (h : r.atLineStart = true) : r.skipBlock.AtLine := by
  rw [AtLine, skipBlock, fresh]
  simp [h, resetBlock]

/-- After a line end with which the reader goes on, it is at the start of a line. -/
theorem atLine_feedAll_lf (hr : r.failed = false) : (feedAll rules b onFault true [Byte.lf] r s).1.AtLine := by
  have hstart : (r.feed rules b Byte.lf s).1.atLineStart = true := atLineStart_feed hr
  cases hf : (r.feed rules b Byte.lf s).1.fault? with
  | some f =>
    rw [feedAll_of_fault hf]
    exact atLine_skipBlock hstart
  | none =>
    rw [feedAll_of_no_fault hf]
    rw [fault?_eq_none_iff, feed_of_not_failed hr] at hf
    rw [feed_of_not_failed hr] at hstart ⊢
    obtain h | ⟨r₀, h⟩ := process_lf_failed_or_reset rules b (r.advance Byte.lf) s
    · rw [hf] at h
      contradiction
    · rw [h] at hstart ⊢
      exact atLine_resetBlock hstart

/-- The reader at the start of each line: the lines before it have been read, each with its line
end. -/
theorem atLine_feedAll_lines (lines : List Bytes) (s : σ) :
    (feedAll rules b onFault true (lines.flatMap (· ++ [Byte.lf])) {} s).1.AtLine := by
  obtain rfl | ⟨before, line, rfl⟩ := List.eq_nil_or_concat lines
  · exact atLine_fresh {}
  · rw [List.concat_eq_append, List.flatMap_append, List.flatMap_singleton, ← List.append_assoc, feedAll_append]
    exact atLine_feedAll_lf (not_failed_feedAll_of_not_failed _ _ _ rfl)

theorem advance_fresh (h : r.AtLine) (c : UInt8) : r.fresh.advance c = r.advance c := by
  rw [h]
  simp [advance, setPosition, fresh]

/-- The column that is left of the lines before is forgotten with the next byte. -/
theorem feed_fresh (h : r.AtLine) : r.fresh.feed rules b c s = r.feed rules b c s := by
  have hr : r.failed = false := by rw [h]; rfl
  rw [feed_of_not_failed hr, feed_of_not_failed (atLine_fresh r ▸ rfl), advance_fresh h]

theorem feedAll_fresh (h : r.AtLine) :
    feedAll rules b onFault true [c] r.fresh s = feedAll rules b onFault true [c] r s := by
  simp only [feedAll, feed_fresh h]

/-- At the start of a line nothing is left open that the end of the input would have to end. -/
theorem finish_atLine (h : r.AtLine) : r.finish rules b s = (r, s) := by
  rw [h]
  rfl

theorem observablyEqual_fresh (h : r.AtLine) : ObservablyEqual rules b onFault r r.fresh where
  bytes t s := by
    cases t with
    | nil => rfl
    | cons c t => rw [observe, observe, observeByte, observeByte, feed_fresh h, feedAll_fresh h]
  finish_cons c t s := by
    rw [observeEnd, observeEnd, feedAll_cons t, feedAll_cons t, feedAll_fresh h]
  told_finish s := by
    simp only [observeEnd, feedAll, finish_atLine h, finish_atLine (atLine_fresh r), Observation.of]
  fault_finish s := by
    simp only [observeEnd, feedAll, finish_atLine h, finish_atLine (atLine_fresh r), Observation.of]
    rw [h]
    rfl

theorem ObservablyEqual.symm (h : ObservablyEqual rules b onFault r r') : ObservablyEqual rules b onFault r' r where
  bytes t s := (h.bytes t s).symm
  finish_cons c t s := (h.finish_cons c t s).symm
  told_finish s := (h.told_finish s).symm
  fault_finish s := (h.fault_finish s).symm

theorem ObservablyEqual.trans {r'' : Reader} (h : ObservablyEqual rules b onFault r r')
    (h' : ObservablyEqual rules b onFault r' r'') : ObservablyEqual rules b onFault r r'' where
  bytes t s := (h.bytes t s).trans (h'.bytes t s)
  finish_cons c t s := (h.finish_cons c t s).trans (h'.finish_cons c t s)
  told_finish s := (h.told_finish s).trans (h'.told_finish s)
  fault_finish s := (h.fault_finish s).trans (h'.fault_finish s)

/-! ### One fault in a line -/

theorem fault_observeByte (c : UInt8) (r : Reader) (s : σ) :
    (observeByte rules b c r s).fault = (r.feed rules b c s).1.fault? := by
  have h : r.feed rules b c s = Prod.map id Prod.fst (r.feed rules (record Prod.mk b) c (s, [])) :=
    (refines_record Prod.mk b).feed c r (s, [])
  rw [h]
  rfl

theorem observe_cons (t : Bytes) :
    observe rules b onFault (c :: t) r s =
      observeByte rules b c r s ::
        observe rules b onFault t (feedAll rules b onFault true [c] r s).1
          (feedAll rules b onFault true [c] r s).2 := rfl

theorem observeEnd_cons (t : Bytes) :
    observeEnd rules b onFault (c :: t) r s =
      observeEnd rules b onFault t (feedAll rules b onFault true [c] r s).1
        (feedAll rules b onFault true [c] r s).2 := by
  rw [observeEnd, observeEnd, feedAll_cons t]

theorem faults_cons (o : Observation) (os : List Observation) : faults (o :: os) = o.fault.toList ++ faults os := by
  cases h : o.fault <;> simp [faults, h]

/-- What can be seen of the rest of a line and its end: a line end, or the end of the input. -/
def observeLine (rules : Rules) (b : Builder σ) (onFault : Fault → σ → σ) (last : Bool) (t : Bytes) (r : Reader)
    (s : σ) : List Observation :=
  if last then observe rules b onFault t r s ++ [observeEnd rules b onFault t r s]
  else observe rules b onFault (t ++ [Byte.lf]) r s

theorem observeLine_cons (last : Bool) (t : Bytes) :
    observeLine rules b onFault last (c :: t) r s =
      observeByte rules b c r s ::
        observeLine rules b onFault last t (feedAll rules b onFault true [c] r s).1
          (feedAll rules b onFault true [c] r s).2 := by
  cases last with
  | true =>
    simp only [observeLine, if_true]
    rw [observe_cons, observeEnd_cons, List.cons_append]
  | false => rfl

theorem feed_skipLine_lf (hm : r.mode = .skipLine) : (r.feed rules b Byte.lf s).1.fault? = none := by
  rw [feed_of_not_failed (failed_of_mode hm), process_passed_lf (r := r.advance Byte.lf) (Or.inr hm)]
  rfl

theorem fault_observeEnd_nil (r : Reader) (s : σ) :
    (observeEnd rules b onFault [] r s).fault = (r.finish rules b s).1.fault? := by
  have h : r.finish rules b s = Prod.map id Prod.fst (r.finish rules (record Prod.mk b) (s, [])) :=
    (refines_record Prod.mk b).finish r (s, [])
  rw [h]
  rfl

/-- In a line that is given up there are no faults. -/
theorem faults_passed (last : Bool) (t : Bytes) (ht : Byte.lf ∉ t) : ∀ (r : Reader) (s : σ), r.mode = .skipLine →
    faults (observeLine rules b onFault last t r s) = [] := by
  induction t with
  | nil =>
    intro r s hm
    cases last with
    | false =>
      have h : observeLine rules b onFault false [] r s = [observeByte rules b Byte.lf r s] := rfl
      rw [h, faults_cons, fault_observeByte, feed_skipLine_lf hm]
      rfl
    | true =>
      have h : observeLine rules b onFault true [] r s = [observeEnd rules b onFault [] r s] := rfl
      have hr : r.failed = false := failed_of_mode hm
      rw [h, faults_cons, fault_observeEnd_nil, Reader.finish, if_neg (by simp [hr]), if_neg (by simp [hm]),
        feed_skipLine_lf hm]
      rfl
  | cons c t ih =>
    intro r s hm
    simp only [List.mem_cons, not_or] at ht
    have hfeed : r.feed rules b c s = (r.advance c, s) := by
      rw [feed_of_not_failed (failed_of_mode hm)]
      exact process_passed_other (Or.inr hm) (Ne.symm ht.1)
    have hf : (r.feed rules b c s).1.fault? = none := by
      rw [hfeed, Reader.fault?, mode_advance, hm]
      rfl
    rw [observeLine_cons, faults_cons, fault_observeByte, hf, feedAll_of_no_fault hf, hfeed]
    exact ih ht.2 _ _ hm

/-- After a fault the rest of the line is passed over, so a line has at most one. -/
theorem faults_line (last : Bool) (t : Bytes) (ht : Byte.lf ∉ t) : ∀ (r : Reader) (s : σ), r.failed = false →
    (faults (observeLine rules b onFault last t r s)).length ≤ 1 := by
  induction t with
  | nil =>
    intro r s _
    cases last <;> exact List.length_filterMap_le _ _
  | cons c t ih =>
    intro r s hr
    simp only [List.mem_cons, not_or] at ht
    rw [observeLine_cons, faults_cons, fault_observeByte]
    cases hf : (r.feed rules b c s).1.fault? with
    | none => exact ih ht.2 _ _ (not_failed_feedAll c r s)
    | some f =>
      have hskip : (feedAll rules b onFault true [c] r s).1.mode = .skipLine := by
        rw [feedAll_of_fault hf]
        have hstart : (r.feed rules b c s).1.atLineStart = false := by
          rw [atLineStart_feed hr]
          simp [Ne.symm ht.1]
        simp [skipBlock, hstart]
      rw [faults_passed last t ht.2 _ _ hskip]
      simp

/-! ### Lines -/

/-- The reader at the start of a line: a new reader that has read the lines before it, each with its
line end, and has gone on after each fault. -/
def readerAfter (rules : Rules) (b : Builder σ) (onFault : Fault → σ → σ) (lines : List Bytes) (s : σ) : Reader :=
  (feedAll rules b onFault true (lines.flatMap (· ++ [Byte.lf])) {} s).1

/-- **A line does not depend on the lines before it.** After any lines, whatever the builder
answered to them, the reader cannot be told from a new one that has the same line number and knows
as much of a program; so after other lines that leave these the same, the same comes of the same
text. And each line has at most one fault. -/
theorem lines_independent (rules : Rules) (b : Builder σ) (onFault : Fault → σ → σ) (lines : List Bytes) (s₀ : σ) :
    let after := readerAfter rules b onFault
    ObservablyEqual rules b onFault (after lines s₀) (after lines s₀).fresh ∧
      (∀ (lines' : List Bytes) (s₀' : σ), (after lines' s₀').line = (after lines s₀).line →
        (after lines' s₀').programStarted = (after lines s₀).programStarted →
        ObservablyEqual rules b onFault (after lines s₀) (after lines' s₀')) ∧
      ∀ (line : Bytes) (s : σ) (last : Bool), Byte.lf ∉ line →
        (faults (observeLine rules b onFault last line (after lines s₀) s)).length ≤ 1 := by
  intro after
  have hfresh : ∀ lines s₀, ObservablyEqual rules b onFault (after lines s₀) (after lines s₀).fresh :=
    fun lines s₀ => observablyEqual_fresh (atLine_feedAll_lines lines s₀)
  refine ⟨hfresh lines s₀, ?_, ?_⟩
  · intro lines' s₀' hline hprogram
    have hsame : (after lines' s₀').fresh = (after lines s₀).fresh := by
      rw [Reader.fresh, Reader.fresh, hline, hprogram]
    have h' := (hfresh lines' s₀').symm
    rw [hsame] at h'
    exact (hfresh lines s₀).trans h'
  · intro line s last hlf
    exact faults_line last line hlf _ _ (not_failed_feedAll_of_not_failed _ _ _ rfl)

/-- A builder that refuses every word of one address. -/
def refusing (address : UInt8) : Builder Unit
  | .data a _ _, s => (if a = address then .refuse 1 else .accept, s)
  | _, s => (.accept, s)

/-- A word that the builder refuses and a comment that is not closed leave the same behind. -/
theorem lines_independent_refused_unclosed :
    ObservablyEqual {} (refusing 0x58) (fun _ s => s)
      (readerAfter {} (refusing 0x58) (fun _ s => s) [ascii "G1 X5 Y6"] ())
      (readerAfter {} (refusing 0x58) (fun _ s => s) [ascii "/M2 (end"] ()) :=
  (lines_independent {} (refusing 0x58) (fun _ s => s) [ascii "G1 X5 Y6"] ()).2.1 [ascii "/M2 (end"] ()
    (by decide) (by decide)

end PartProgram.Block
