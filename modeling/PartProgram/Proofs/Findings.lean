import PartProgram.Proofs.Calls
import PartProgram.Proofs.NumberText

/-!
# What is found in a text

Reading a text to its end, either stopping at the first fault or going on after each, comes to a list
of events and a list of faults (`findings`). Whoever reads in the same way, and keeps more than
that, keeps what follows from these lists (`Refines.readOut`).

Going on only adds to what is found before the first fault (`findings_keepGoing`), so it does not matter to
whether there is a fault at all. And every number that is told was read from a literal, whatever else
is in the text (`read_findings`); this needs of the reader only what it knows of the word being read
(`Reachable.word`).
-/

namespace PartProgram.Block

open Number Reader

variable {σ τ : Type} {rules : Rules} {b : Builder σ} {onFault : Fault → σ → σ} {keepGoing : Bool} {c : UInt8}
  {r : Reader} {s : σ} {t u : Bytes}

/-! ### What a byte can tell -/

/-- The events that the next byte can tell of. -/
inductive Reader.CanTell (r : Reader) : Event → Prop where
  /-- A program begins. -/
  | programStart : CanTell r .programStart
  /-- The block may be skipped. -/
  | blockDelete : CanTell r .blockDelete
  /-- The block ends. -/
  | endBlock : CanTell r .endBlock
  /-- The word being read ends, and its number is complete. -/
  | word {w : Word} {l : Literal} {d : Decimal} (h : r.mode.word? = some (w, l)) (hl : l.finish = .ok d) :
      CanTell r (w.event d)

section

variable {P : σ → Prop} {e : Event}

theorem tell_state (he : ∀ s, P s → P (b e s).2) (hs : P s) : P (r.tell b e c s).2 := by
  have h := he s hs
  rw [Reader.tell]
  split
  all_goals (next heq => rwa [heq] at h)

theorem ensureStarted_state (hstart : ∀ s, P s → P (b .programStart s).2) (hs : P s) :
    P (r.ensureStarted b c s).2 := by
  have h := hstart s hs
  rw [ensureStarted]
  split
  · exact hs
  · split
    all_goals (next heq => rwa [heq] at h)

theorem announce_state (hstart : ∀ s, P s → P (b .programStart s).2) (he : ∀ s, P s → P (b e s).2) (hs : P s) :
    P (r.announce b e c s).2 := by
  have h := ensureStarted_state (r := r) (c := c) hstart hs
  rw [announce]
  simp only
  split
  · exact h
  · exact tell_state he h

theorem endBlock_state (hstart : ∀ s, P s → P (b .programStart s).2) (hend : ∀ s, P s → P (b .endBlock s).2)
    (hs : P s) : P (r.endBlock rules b c s).2 := by
  have h := announce_state (r := r) (c := c) hstart hend hs
  rw [endBlock]
  split_ifs
  · exact hs
  · simp only
    split <;> exact h
  · exact hs

/-- What holds of the builder's state, and is kept by the events that a byte can tell of, holds after
the byte. -/
theorem process_state (hb : ∀ e s, r.CanTell e → P s → P (b e s).2) (hs : P s) :
    P (r.process rules b c s).2 := by
  have hstart := fun s => hb .programStart s .programStart
  have hdelete := fun s => hb .blockDelete s .blockDelete
  have hend := fun s => hb .endBlock s .endBlock
  have hgap : ∀ (r : Reader) (place : Place) (s : σ), P s → P (r.atGap rules b place c s).2 := by
    intro r place s hs
    apply atGap_cases (fun x => P x.2)
    case lineEnd => exact fun _ => endBlock_state hstart hend hs
    case delete => exact fun _ => announce_state hstart hdelete hs
    case marker => exact fun _ _ => hs
    case blank | comment | lineComment | checksum | word | invalid => exact hs
  have hword : ∀ {w : Word} {l : Literal} {d : Decimal}, r.mode.word? = some (w, l) → l.finish = .ok d →
      P (r.announce b (w.event d) c s).2 :=
    fun h hl => announce_state hstart (fun s => hb _ s (.word h hl)) hs
  cases hm : r.mode with
  | gap place =>
    rw [process_gap hm]
    exact hgap r place s hs
  | address w =>
    by_cases hblank : c = Byte.space ∨ c = Byte.tab
    · rwa [process_address_blank hm hblank]
    cases hc : isLiteralByte c with
    | true =>
      rw [process_address_literal hm hc]
      cases hl : Literal.step rules.arithmetic {} c with
      | error e => rwa [process_value_error rfl hc hl]
      | ok l => rwa [process_value_literal rfl hc hl]
    | false => rwa [process_address_other hm hblank hc]
  | value w l =>
    cases hc : isLiteralByte c with
    | true =>
      cases hl : l.step rules.arithmetic c with
      | error e => rwa [process_value_error hm hc hl]
      | ok l' => rwa [process_value_literal hm hc hl]
    | false =>
      by_cases hq : c = Byte.equals
      · rwa [process_value_equals hm hq]
      cases hl : l.finish with
      | error e => rwa [process_value_incomplete hm hc hq hl]
      | ok d =>
        have h := hword (by rw [hm, Mode.word?]) hl
        rw [process_value_end hm hc hq hl]
        split
        · exact h
        · exact hgap _ _ _ h
  | comment place =>
    by_cases hclose : c = Byte.closeParen
    · rwa [process_comment_close hm hclose]
    by_cases hlf : c = Byte.lf
    · subst hlf
      rwa [process_comment_lf hm]
    · rwa [process_comment_other hm hclose hlf]
  | lineComment =>
    by_cases hlf : c = Byte.lf
    · subst hlf
      rw [process_lineComment_lf hm]
      exact endBlock_state hstart hend hs
    · rwa [process_lineComment_other hm hlf]
  | checksumStart =>
    cases hc : Byte.isDigit c with
    | true => rwa [process_checksumStart_digit hm hc]
    | false => rwa [process_checksumStart_other hm hc]
  | checksum =>
    cases hc : Byte.isDigit c with
    | true => rwa [process_checksum_digit hm hc]
    | false =>
      rw [process_checksum_end hm hc]
      exact hgap _ _ _ hs
  | programMarker =>
    by_cases hlf : c = Byte.lf
    · subst hlf
      rwa [process_passed_lf (Or.inl hm)]
    · rwa [process_passed_other (Or.inl hm) hlf]
  | skipLine =>
    by_cases hlf : c = Byte.lf
    · subst hlf
      rwa [process_passed_lf (Or.inr hm)]
    · rwa [process_passed_other (Or.inr hm) hlf]
  | failed f => rwa [process_failed hm]

theorem feed_state (hb : ∀ e s, r.CanTell e → P s → P (b e s).2) (hs : P s) : P (r.feed rules b c s).2 := by
  rw [feed]
  split
  · exact hs
  · refine process_state (fun e s he => hb e s ?_) hs
    cases he with
    | programStart => exact .programStart
    | blockDelete => exact .blockDelete
    | endBlock => exact .endBlock
    | word h hl => exact .word h hl

end

/-! ### Reading to the end -/

/-- Read a text and, unless a fault stops the reader, the end of the input. -/
def readOut (rules : Rules) (b : Builder σ) (onFault : Fault → σ → σ) (keepGoing : Bool) (t : Bytes) (r : Reader)
    (s : σ) : Reader × σ :=
  let (r', s') := feedAll rules b onFault keepGoing t r s
  if r'.failed then (r', s') else finishAll rules b onFault keepGoing r' s'

theorem failed_skipBlock (r : Reader) : r.skipBlock.failed = false := by
  rw [skipBlock]
  split <;> rfl

theorem failed_of_fault? {f : Fault} (h : r.fault? = some f) : r.failed = true := by
  rw [Reader.failed, h]
  rfl

theorem readOut_nil (hr : r.failed = false) (s : σ) :
    readOut rules b onFault keepGoing [] r s = finishAll rules b onFault keepGoing r s := by
  simp [readOut, feedAll, hr]

theorem readOut_cons_of_no_fault (h : (r.feed rules b c s).1.fault? = none) (t : Bytes) :
    readOut rules b onFault keepGoing (c :: t) r s =
      readOut rules b onFault keepGoing t (r.feed rules b c s).1 (r.feed rules b c s).2 := by
  simp only [readOut, feedAll, h]

theorem readOut_cons_of_fault {f : Fault} (h : (r.feed rules b c s).1.fault? = some f) (t : Bytes) :
    readOut rules b onFault keepGoing (c :: t) r s =
      if keepGoing then
        readOut rules b onFault keepGoing t (r.feed rules b c s).1.skipBlock (onFault f (r.feed rules b c s).2)
      else ((r.feed rules b c s).1, onFault f (r.feed rules b c s).2) := by
  cases keepGoing <;> simp [readOut, feedAll, h, failed_of_fault? h]

/-- A text is read on after its first part, unless a fault has stopped the reader there. -/
theorem readOut_append (t u : Bytes) : ∀ (r : Reader) (s : σ), r.failed = false →
    readOut rules b onFault keepGoing (t ++ u) r s =
      if (feedAll rules b onFault keepGoing t r s).1.failed then feedAll rules b onFault keepGoing t r s
      else readOut rules b onFault keepGoing u (feedAll rules b onFault keepGoing t r s).1
        (feedAll rules b onFault keepGoing t r s).2 := by
  induction t with
  | nil =>
    intro r s hr
    simp [feedAll, hr]
  | cons c t ih =>
    intro r s _
    cases hf : (r.feed rules b c s).1.fault? with
    | none =>
      rw [List.cons_append, readOut_cons_of_no_fault hf, ih _ _ (fault?_eq_none_iff.mp hf)]
      simp only [feedAll, hf]
    | some f =>
      rw [List.cons_append, readOut_cons_of_fault hf]
      cases keepGoing with
      | true => simp only [feedAll, hf, if_true, ih _ _ (failed_skipBlock _)]
      | false => simp [feedAll, hf, failed_of_fault? hf]

namespace Refines

variable {π : τ → σ} {b' : Builder τ} {onFault' : Fault → τ → τ}

theorem feedAll (h : Refines π b' b) (hfault : ∀ f t, onFault f (π t) = π (onFault' f t)) (u : Bytes) :
    ∀ (r : Reader) (t : τ), feedAll rules b onFault keepGoing u r (π t) =
      Prod.map id π (Reader.feedAll rules b' onFault' keepGoing u r t) := by
  induction u with
  | nil => intro r t; rfl
  | cons c u ih =>
    intro r t
    rw [Reader.feedAll, Reader.feedAll, h.feed]
    simp only [Prod.map_fst, Prod.map_snd, id_eq]
    cases (r.feed rules b' c t).1.fault? with
    | none => exact ih _ _
    | some f =>
      simp only [hfault]
      split
      · exact ih _ _
      · rfl

theorem finishAll (h : Refines π b' b) (hfault : ∀ f t, onFault f (π t) = π (onFault' f t)) (r : Reader) (t : τ) :
    finishAll rules b onFault keepGoing r (π t) = Prod.map id π (Reader.finishAll rules b' onFault' keepGoing r t) := by
  rw [Reader.finishAll, Reader.finishAll, h.finish]
  simp only [Prod.map_fst, Prod.map_snd, id_eq]
  cases (r.finish rules b' t).1.fault? with
  | none => rfl
  | some f =>
    simp only [hfault]
    rfl

/-- Who keeps more of what is found keeps what follows from it. -/
theorem readOut (h : Refines π b' b) (hfault : ∀ f t, onFault f (π t) = π (onFault' f t)) (u : Bytes) (r : Reader)
    (t : τ) : readOut rules b onFault keepGoing u r (π t) =
      Prod.map id π (Block.readOut rules b' onFault' keepGoing u r t) := by
  rw [Block.readOut, Block.readOut, h.feedAll hfault]
  simp only [Prod.map_fst, Prod.map_snd, id_eq, h.finishAll hfault]
  split <;> rfl

end Refines

/-! ### Findings -/

/-- What is found in a text. -/
@[ext]
structure Findings where
  /-- The events, in the order in which they are told. -/
  events : List Event := []
  /-- The faults, in the order in which they are met. -/
  faults : List Fault := []
  deriving DecidableEq, Repr

namespace Findings

/-- The builder that keeps every event. -/
def keep : Builder Findings := fun e x => (.accept, { x with events := x.events ++ [e] })

/-- Keep a fault. -/
def keepFault (f : Fault) (x : Findings) : Findings := { x with faults := x.faults ++ [f] }

/-- What is found, and what is found after that. -/
def add (x y : Findings) : Findings := ⟨x.events ++ y.events, x.faults ++ y.faults⟩

@[simp] theorem events_add (x y : Findings) : (x.add y).events = x.events ++ y.events := rfl

@[simp] theorem faults_add (x y : Findings) : (x.add y).faults = x.faults ++ y.faults := rfl

@[simp] theorem add_empty (x : Findings) : x.add {} = x := by simp [Findings.ext_iff]

theorem refines_add (x : Findings) : Refines x.add keep keep := by
  intro e y
  simp [keep, add]

theorem keepFault_add (x : Findings) (f : Fault) (y : Findings) : keepFault f (x.add y) = x.add (keepFault f y) := by
  simp [keepFault, add]

end Findings

/-- What is found in a text, up to the first fault or with all of them. -/
def findings (rules : Rules) (keepGoing : Bool) (t : Bytes) : Findings :=
  (readOut rules Findings.keep Findings.keepFault keepGoing t {} {}).2

open Findings

/-- What is found comes after what has been found. -/
theorem readOut_add (t : Bytes) (r : Reader) (x : Findings) :
    (readOut rules keep keepFault keepGoing t r x).2 = x.add (readOut rules keep keepFault keepGoing t r {}).2 := by
  have h : readOut rules keep keepFault keepGoing t r (x.add {}) =
      Prod.map id x.add (readOut rules keep keepFault keepGoing t r {}) :=
    (refines_add x).readOut (keepFault_add x) t r {}
  rw [add_empty] at h
  rw [h]
  rfl

/-! ### Stopping at a fault -/

theorem faults_keepFault (f : Fault) (x : Findings) : (keepFault f x).faults ≠ [] := by simp [keepFault]

theorem faults_finishAll_of_failed {x : Findings} (h : (finishAll rules keep keepFault keepGoing r x).1.failed = true) :
    (finishAll rules keep keepFault keepGoing r x).2.faults ≠ [] := by
  rw [finishAll] at h ⊢
  cases hf : (r.finish rules keep x).1.fault? with
  | none =>
    simp only [hf, fault?_eq_none_iff.mp hf] at h
    contradiction
  | some f =>
    simp only [hf]
    exact faults_keepFault f _

/-- Where the reader is stopped, a fault has been found. -/
theorem faults_of_failed (t : Bytes) : ∀ {r : Reader} {x : Findings}, r.failed = false →
    (readOut rules keep keepFault keepGoing t r x).1.failed = true →
    (readOut rules keep keepFault keepGoing t r x).2.faults ≠ [] := by
  induction t with
  | nil =>
    intro r x hr h
    rw [readOut_nil hr] at h ⊢
    exact faults_finishAll_of_failed h
  | cons c t ih =>
    intro r x _ h
    cases hf : (r.feed rules keep c x).1.fault? with
    | none =>
      rw [readOut_cons_of_no_fault hf] at h ⊢
      exact ih (fault?_eq_none_iff.mp hf) h
    | some f =>
      rw [readOut_cons_of_fault hf] at h ⊢
      split_ifs at h ⊢
      · exact ih (failed_skipBlock _) h
      · exact faults_keepFault f _

/-! ### Going on -/

theorem finishAll_keepGoing (r : Reader) (s : σ) :
    (finishAll rules b onFault true r s).2 = (finishAll rules b onFault false r s).2 := by
  rw [finishAll, finishAll]
  simp only
  split <;> rfl

/-- Going on does the same until a fault stops the other reader, and then reads some rest of the text. -/
theorem readOut_keepGoing (t : Bytes) : ∀ (r : Reader) (s : σ), r.failed = false →
    (readOut rules b onFault true t r s).2 = (readOut rules b onFault false t r s).2 ∨
      (readOut rules b onFault false t r s).1.failed = true ∧
        ∃ u r', readOut rules b onFault true t r s =
          readOut rules b onFault true u r' (readOut rules b onFault false t r s).2 := by
  induction t with
  | nil =>
    intro r s hr
    rw [readOut_nil hr, readOut_nil hr]
    exact Or.inl (finishAll_keepGoing r s)
  | cons c t ih =>
    intro r s _
    cases hf : (r.feed rules b c s).1.fault? with
    | none =>
      rw [readOut_cons_of_no_fault hf, readOut_cons_of_no_fault hf]
      exact ih _ _ (fault?_eq_none_iff.mp hf)
    | some f =>
      rw [readOut_cons_of_fault hf, readOut_cons_of_fault hf]
      exact Or.inr ⟨failed_of_fault? hf, t, (r.feed rules b c s).1.skipBlock, rfl⟩

/-- **Going on only adds** to what is found before the first fault, and nothing if there is no fault. -/
theorem findings_keepGoing (rules : Rules) (t : Bytes) :
    ∃ more, findings rules true t = (findings rules false t).add more ∧
      ((findings rules false t).faults = [] → more = {}) := by
  obtain h | ⟨hfailed, u, r', h⟩ := @readOut_keepGoing Findings rules keep keepFault t {} {} rfl
  · exact ⟨{}, by rw [add_empty]; exact h, fun _ => rfl⟩
  · refine ⟨(readOut rules keep keepFault true u r' {}).2, ?_, fun hnone => ?_⟩
    · rw [findings, h, readOut_add]
      rfl
    · exact absurd hnone (faults_of_failed t rfl hfailed)

/-! ### The numbers that are told -/

/-- A reachable reader in a word has a letter or a colon for its address, and of its number a part that a
literal can begin with. -/
theorem Reachable.word (h : Reachable rules r) : ∀ {w : Word} {l : Literal}, r.mode.word? = some (w, l) →
    (w.address = Byte.colon ∨ Byte.isUpper w.address) ∧ ∃ p, Reached rules.arithmetic p l := by
  have hnew := reached_nil rules.arithmetic
  intro w l hword
  refine h.word_induction (P := fun w l =>
    (w.address = Byte.colon ∨ Byte.isUpper w.address) ∧ ∃ p, Reached rules.arithmetic p l) ?_ ?_ ?_ hword
  · intro c letter column hletter
    refine ⟨?_, [], hnew⟩
    obtain hletter | ⟨-, rfl⟩ := addressOf?_eq_some_iff.mp hletter
    · exact Or.inr hletter.isUpper
    · exact Or.inl rfl
  · rintro w l l' c ⟨haddress, p, hp⟩ hstep
    exact ⟨haddress, p ++ [c], hp.append hstep⟩
  · rintro w l ⟨haddress, -⟩
    exact ⟨haddress, [], hnew⟩

/-- An event that is told from a text: the number of a word comes from a literal. -/
inductive Event.Read (a : Arithmetic) : Event → Prop where
  /-- A program begins. -/
  | programStart : Read a .programStart
  /-- The block may be skipped. -/
  | blockDelete : Read a .blockDelete
  /-- The block ends. -/
  | endBlock : Read a .endBlock
  /-- A word with a number that was read. -/
  | word {w : Word} {n : Bytes} {d : Decimal} (haddress : w.address = Byte.colon ∨ Byte.isUpper w.address)
      (hn : IsNumber a n d) : Read a (w.event d)

theorem Reachable.read (h : Reachable rules r) {e : Event} (he : r.CanTell e) : e.Read rules.arithmetic := by
  cases he with
  | programStart => exact .programStart
  | blockDelete => exact .blockDelete
  | endBlock => exact .endBlock
  | word hword hl =>
    obtain ⟨haddress, p, hp⟩ := h.word hword
    exact .word haddress (n := p) ⟨hp.1, by rw [hp.2]; exact hl⟩

namespace Findings

/-- All events in the findings are told from a text. -/
def AllRead (a : Arithmetic) (x : Findings) : Prop := ∀ e ∈ x.events, e.Read a

theorem AllRead.keep {a : Arithmetic} {x : Findings} {e : Event} (hx : x.AllRead a) (he : e.Read a) :
    (keep e x).2.AllRead a := by
  intro e' he'
  obtain h | rfl : e' ∈ x.events ∨ e' = e := by simpa [Findings.keep] using he'
  · exact hx e' h
  · exact he

theorem AllRead.feed {x : Findings} (hx : x.AllRead rules.arithmetic) (h : Reachable rules r) (c : UInt8) :
    (r.feed rules Findings.keep c x).2.AllRead rules.arithmetic :=
  feed_state (P := AllRead rules.arithmetic) (fun _ _ he hx => hx.keep (h.read he)) hx

theorem AllRead.keepFault {a : Arithmetic} {x : Findings} (hx : x.AllRead a) (f : Fault) :
    (keepFault f x).AllRead a := hx

theorem AllRead.finishAll {x : Findings} (hx : x.AllRead rules.arithmetic) (h : Reachable rules r) :
    (finishAll rules Findings.keep Findings.keepFault keepGoing r x).2.AllRead rules.arithmetic := by
  have hfinish : (r.finish rules Findings.keep x).2.AllRead rules.arithmetic := by
    rw [Reader.finish]
    split_ifs
    · exact hx
    · exact hx
    · exact hx.feed h Byte.lf
  rw [Reader.finishAll]
  simp only
  split
  · exact hfinish
  · exact hfinish.keepFault _

theorem AllRead.readOut (t : Bytes) : ∀ {r : Reader} {x : Findings}, r.failed = false → Reachable rules r →
    x.AllRead rules.arithmetic →
    (readOut rules Findings.keep Findings.keepFault keepGoing t r x).2.AllRead rules.arithmetic := by
  induction t with
  | nil =>
    intro r x hr h hx
    rw [readOut_nil hr]
    exact hx.finishAll h
  | cons c t ih =>
    intro r x _ h hx
    have hfeed := h.feed Findings.keep c x
    cases hf : (r.feed rules Findings.keep c x).1.fault? with
    | none =>
      rw [readOut_cons_of_no_fault hf]
      exact ih (fault?_eq_none_iff.mp hf) hfeed (hx.feed h c)
    | some f =>
      rw [readOut_cons_of_fault hf]
      split
      · exact ih (failed_skipBlock _) hfeed.skipBlock ((hx.feed h c).keepFault f)
      · exact (hx.feed h c).keepFault f

end Findings

/-- **Every number that is told was read** from a literal. -/
theorem read_findings (rules : Rules) (keepGoing : Bool) (t : Bytes) :
    (findings rules keepGoing t).AllRead rules.arithmetic :=
  AllRead.readOut t rfl .new (by simp [AllRead])

end PartProgram.Block
