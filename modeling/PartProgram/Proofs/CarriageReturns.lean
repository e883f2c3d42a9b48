import PartProgram.Proofs.Findings

/-!
# Carriage returns before line ends

Line ends are written in more than one way: some put a carriage return, or several, before the line feed. A
reader that goes on after each fault takes a text with such line ends for the text without them (`CrAdded`). It
tells the builder the same, and the faults are the same but for the byte that they name and its column
(`Incident`).

A carriage return is passed over, or it ends the word or the checksum that the line feed would have ended, or it is
the fault that the line feed would have been (`crPasses`). In the last case the reader does not go on with the next
line at once, but first passes over the rest of this one, and there is nothing in it but more carriage returns. So what
the two readings have in common is what is left when the line is over (`SameLine`): the number of the next line, whether
a program is running, and the state of the builder.
-/

namespace PartProgram.Block

open Number Reader

/-- `CrAdded t t'`: the text `t'` is the text `t` with carriage returns added before its line ends. -/
inductive CrAdded : Bytes → Bytes → Prop where
  /-- Nothing. -/
  | nil : CrAdded [] []
  /-- A byte that both have. -/
  | byte (c : UInt8) {t t' : Bytes} : CrAdded t t' → CrAdded (c :: t) (c :: t')
  /-- A line end with `n` more carriage returns before it. -/
  | lineEnd (n : Nat) {t t' : Bytes} :
      CrAdded t t' → CrAdded (Byte.lf :: t) (List.replicate n Byte.cr ++ Byte.lf :: t')

/-- What a fault tells, but for the byte at which it was found and the column. -/
structure Incident where
  /-- Why the reader stopped. -/
  cause : Cause
  /-- The address of the word being read, if there was one. -/
  address : Option UInt8
  /-- The line of the fault. -/
  line : Nat
  deriving DecidableEq, Repr

/-- A fault without its byte and its column. -/
def Fault.incident (f : Fault) : Incident := ⟨f.cause, f.address, f.line⟩

variable {σ : Type} {rules : Rules} {b : Builder σ} {onIncident : Incident → σ → σ} {r r' : Reader} {s : σ}
  {t t' : Bytes}

/-! ### The end of a line -/

/-- The same is left for the next line, and the fault is the same if there is one. -/
structure SameOutcome (x y : Reader × σ) : Prop where
  fresh : x.1.fresh = y.1.fresh
  incident : x.1.fault?.map Fault.incident = y.1.fault?.map Fault.incident
  state : x.2 = y.2

/-- The column does not matter to the end of a block. -/
theorem sameOutcome_endBlock (hr : r.failed = false) (column : Nat) :
    SameOutcome (({ r with column } : Reader).endBlock rules b Byte.lf s) (r.endBlock rules b Byte.lf s) := by
  obtain ⟨running, s', h⟩ | ⟨cause, running, s', -, h⟩ :=
    endBlock_reset_or_fault rules b (r.checksumWrong rules) r.hasContent r.programStarted s
  · rw [h r _ hr rfl rfl rfl, h { r with column } _ hr rfl rfl rfl]
    exact ⟨rfl, rfl, rfl⟩
  · rw [h r _ hr rfl rfl rfl, h { r with column } _ hr rfl rfl rfl]
    exact ⟨rfl, rfl, rfl⟩

/-- A carriage return moves the reader on in its line, and leaves the checksum alone. -/
theorem advance_cr_lf (r : Reader) :
    ∃ column, (r.advance Byte.cr).advance Byte.lf = { r.advance Byte.lf with column } := by
  have hcr : (Byte.cr == Byte.lf) = false := by decide
  exact ⟨((r.advance Byte.cr).advance Byte.lf).column, by simp [advance, setPosition, hcr]⟩

/-- The carriage return is the fault that the line end would have been, or the line end does after it what it would
have done without it. -/
def CrPasses (rules : Rules) (b : Builder σ) (r : Reader) (s : σ) : Prop :=
  (r.feed rules b Byte.cr s).1.failed = true ∧ SameOutcome (r.feed rules b Byte.cr s) (r.feed rules b Byte.lf s) ∨
    (r.feed rules b Byte.cr s).1.failed = false ∧
      SameOutcome ((r.feed rules b Byte.cr s).1.feed rules b Byte.lf (r.feed rules b Byte.cr s).2)
        (r.feed rules b Byte.lf s)

theorem crPasses_of_fault {x y : Reader × σ} (hcr : r.feed rules b Byte.cr s = x) (hlf : r.feed rules b Byte.lf s = y)
    (hx : x.1.failed = true) (h : SameOutcome x y) : CrPasses rules b r s := by
  subst hcr hlf
  exact Or.inl ⟨hx, h⟩

theorem crPasses_of_passed {r₁ : Reader} {s₁ : σ} {y : Reader × σ} (hcr : r.feed rules b Byte.cr s = (r₁, s₁))
    (hr₁ : r₁.failed = false) (hlf : r.feed rules b Byte.lf s = y)
    (h : SameOutcome ((r₁.advance Byte.lf).process rules b Byte.lf s₁) y) : CrPasses rules b r s := by
  subst hlf
  refine Or.inr ?_
  rw [hcr, feed_of_not_failed hr₁]
  exact ⟨hr₁, h⟩

/-- A carriage return after which the line end ends the block, as it would have done without it. -/
theorem crPasses_of_endBlock {r₁ r₂ : Reader} {s₁ : σ} (hcr : r.feed rules b Byte.cr s = (r₁, s₁))
    (hm : (∃ place, r₁.mode = .gap place) ∨ r₁.mode = .lineComment)
    (hlf : r.feed rules b Byte.lf s = r₂.endBlock rules b Byte.lf s₁) (hr₂ : r₂.failed = false)
    (h : ∃ column, r₁.advance Byte.lf = { r₂ with column }) : CrPasses rules b r s := by
  obtain ⟨column, h⟩ := h
  obtain ⟨place, hm⟩ | hm := hm
  · refine crPasses_of_passed hcr (failed_of_mode hm) hlf ?_
    rw [process_advance_gap hm, atGap_lf, h]
    exact sameOutcome_endBlock hr₂ column
  · refine crPasses_of_passed hcr (failed_of_mode hm) hlf ?_
    rw [process_lineComment_lf (r := r₁.advance Byte.lf) hm, h]
    exact sameOutcome_endBlock hr₂ column

theorem crPasses_value {w : Word} {l : Literal} (hm : r.mode = .value w l) : CrPasses rules b r s := by
  have hr : r.failed = false := failed_of_mode hm
  have hfeed : ∀ c, r.feed rules b c s = (r.advance c).process rules b c s := fun _ => feed_of_not_failed hr
  have hcr := hfeed Byte.cr
  have hlf := hfeed Byte.lf
  cases hl : l.finish with
  | error e =>
    rw [process_value_incomplete (r := r.advance Byte.cr) hm (by decide) (by decide) hl] at hcr
    rw [process_value_lf_incomplete (r := r.advance Byte.lf) hm hl] at hlf
    exact crPasses_of_fault hcr hlf rfl ⟨rfl, rfl, rfl⟩
  | ok d =>
    obtain ⟨s', h⟩ | ⟨k, running, s', h⟩ := announce_accepted_or_refused b (w.event d) r.programStarted s
    · -- The word is told at the carriage return, and after it the reader is where the line end would have brought it.
      rw [process_value_accepted (r := r.advance Byte.cr) hm (by decide) (by decide) hl (h _ Byte.cr hr rfl) hr,
        atGap_blank _ (Or.inr (Or.inr rfl))] at hcr
      rw [process_value_accepted (r := r.advance Byte.lf) hm (by decide) (by decide) hl (h _ Byte.lf hr rfl) hr,
        atGap_lf] at hlf
      refine crPasses_of_endBlock hcr (Or.inl ⟨_, rfl⟩) hlf rfl ?_
      obtain ⟨column, hadvance⟩ := advance_cr_lf r
      refine ⟨column, ?_⟩
      exact congrArg (fun r : Reader => { r with mode := .gap .betweenWords, programStarted := true }) hadvance
    · rw [process_value_refused (r := r.advance Byte.cr) hm (by decide) (by decide) hl (h _ Byte.cr hr rfl) rfl] at hcr
      rw [process_value_refused (r := r.advance Byte.lf) hm (by decide) (by decide) hl (h _ Byte.lf hr rfl) rfl] at hlf
      exact crPasses_of_fault hcr hlf rfl ⟨rfl, rfl, rfl⟩

/-- **A carriage return before a line end does not matter**, whatever the reader is in the middle of. -/
theorem crPasses (rules : Rules) (b : Builder σ) (s : σ) (hr : r.failed = false) : CrPasses rules b r s := by
  have hfeed : ∀ c, r.feed rules b c s = (r.advance c).process rules b c s := fun _ => feed_of_not_failed hr
  have hcr := hfeed Byte.cr
  have hlf := hfeed Byte.lf
  obtain ⟨column, hadvance⟩ := advance_cr_lf r
  cases hm : r.mode with
  | gap place =>
    rw [process_advance_gap hm, atGap_blank _ (Or.inr (Or.inr rfl))] at hcr
    rw [process_advance_gap hm, atGap_lf] at hlf
    exact crPasses_of_endBlock hcr (Or.inl ⟨place, hm⟩) hlf hr ⟨column, hadvance⟩
  | address w =>
    rw [process_address_other (r := r.advance Byte.cr) hm (by decide) (by decide)] at hcr
    rw [process_address_lf (r := r.advance Byte.lf) hm] at hlf
    exact crPasses_of_fault hcr hlf rfl ⟨rfl, rfl, rfl⟩
  | value w l => exact crPasses_value hm
  | comment place =>
    rw [process_comment_other (r := r.advance Byte.cr) hm (by decide) (by decide)] at hcr
    rw [process_comment_lf (r := r.advance Byte.lf) hm] at hlf
    refine crPasses_of_passed hcr hr hlf ?_
    rw [process_comment_lf (r := (r.advance Byte.cr).advance Byte.lf) hm, hadvance]
    exact ⟨rfl, rfl, rfl⟩
  | lineComment =>
    rw [process_lineComment_other (r := r.advance Byte.cr) hm (by decide)] at hcr
    rw [process_lineComment_lf (r := r.advance Byte.lf) hm] at hlf
    exact crPasses_of_endBlock hcr (Or.inr hm) hlf hr ⟨column, hadvance⟩
  | checksumStart =>
    rw [process_checksumStart_other (r := r.advance Byte.cr) hm (by decide)] at hcr
    rw [process_checksumStart_lf (r := r.advance Byte.lf) hm] at hlf
    exact crPasses_of_fault hcr hlf rfl ⟨rfl, rfl, rfl⟩
  | checksum =>
    rw [process_checksum_end (r := r.advance Byte.cr) hm (by decide), atGap_blank _ (Or.inr (Or.inr rfl))] at hcr
    rw [process_checksum_lf (r := r.advance Byte.lf) hm] at hlf
    refine crPasses_of_endBlock hcr (Or.inl ⟨_, rfl⟩) hlf rfl ⟨column, ?_⟩
    exact congrArg (fun r : Reader => { r with mode := .gap .afterChecksum }) hadvance
  | programMarker | skipLine =>
    rw [process_passed_other (r := r.advance Byte.cr) (by simp [hm]) (by decide)] at hcr
    rw [process_passed_lf (r := r.advance Byte.lf) (by simp [hm])] at hlf
    refine crPasses_of_passed hcr hr hlf ?_
    rw [process_passed_lf (r := (r.advance Byte.cr).advance Byte.lf) (by simp [hm]), hadvance]
    exact ⟨rfl, rfl, rfl⟩
  | failed f =>
    rw [failed_of_mode hm] at hr
    contradiction

/-! ### Going on -/

/-- What is done about a fault by who hears of no more than the incident. -/
def hearing (onIncident : Incident → σ → σ) : Fault → σ → σ := fun f => onIncident f.incident

/-- The readers have the same line before them, and the builder is in the same state. -/
def SameLine (x y : Reader × σ) : Prop := x.1.fresh = y.1.fresh ∧ x.2 = y.2

theorem SameLine.trans {x y z : Reader × σ} (h : SameLine x y) (h' : SameLine y z) : SameLine x z :=
  ⟨h.1.trans h'.1, h.2.trans h'.2⟩

theorem SameOutcome.sameLine {c c' : UInt8} {s' : σ} (h : SameOutcome (r.feed rules b c s) (r'.feed rules b c' s')) :
    SameLine (feedAll rules b (hearing onIncident) true [c] r s)
      (feedAll rules b (hearing onIncident) true [c'] r' s') := by
  have hincident := h.incident
  cases hf : (r.feed rules b c s).1.fault? with
  | none =>
    rw [hf, Option.map_none, eq_comm, Option.map_eq_none_iff] at hincident
    rw [feedAll_of_no_fault hf, feedAll_of_no_fault hincident]
    exact ⟨h.fresh, h.state⟩
  | some f =>
    rw [hf, Option.map_some, eq_comm, Option.map_eq_some_iff] at hincident
    obtain ⟨f', hf', hincident⟩ := hincident
    rw [feedAll_of_fault hf, feedAll_of_fault hf', hearing, hearing, hincident, h.state]
    exact ⟨h.fresh, rfl⟩

/-- The end of a line that is given up starts a new one. -/
theorem sameLine_skipLine {onFault : Fault → σ → σ} (hm : r.mode = .skipLine) (hl : r.atLineStart = false) :
    SameLine (feedAll rules b onFault true [Byte.lf] r s) (r, s) := by
  rw [feedAll_of_no_fault (feed_skipLine_lf hm), feed_of_not_failed (failed_of_mode hm),
    process_passed_lf (r := r.advance Byte.lf) (Or.inr hm)]
  exact ⟨by simp [fresh, resetBlock, advance, setPosition, hl], rfl⟩

theorem sameLine_cr_lf (hr : r.failed = false) (s : σ) :
    SameLine (feedAll rules b (hearing onIncident) true [Byte.cr, Byte.lf] r s)
      (feedAll rules b (hearing onIncident) true [Byte.lf] r s) := by
  rw [feedAll_cons]
  obtain ⟨hfailed, h⟩ | ⟨hgoing, h⟩ := crPasses rules b s hr
  · -- The fault has been heard of, and the rest of the line is passed over.
    refine SameLine.trans ?_ h.sameLine
    obtain ⟨f, hf⟩ := Option.isSome_iff_exists.mp hfailed
    have hstart : (r.feed rules b Byte.cr s).1.atLineStart = false := by
      rw [atLineStart_feed hr]
      decide
    rw [feedAll_of_fault hf]
    exact sameLine_skipLine (by simp [skipBlock, hstart]) hstart
  · rw [feedAll_of_no_fault (fault?_eq_none_iff.mpr hgoing)]
    exact h.sameLine

/-- A line end may have any number of carriage returns before it. -/
theorem sameLine_crs_lf (n : Nat) : ∀ (r : Reader) (s : σ), r.failed = false →
    SameLine (feedAll rules b (hearing onIncident) true (List.replicate n Byte.cr ++ [Byte.lf]) r s)
      (feedAll rules b (hearing onIncident) true [Byte.lf] r s) := by
  induction n with
  | zero => exact fun r s _ => ⟨rfl, rfl⟩
  | succ n ih =>
    intro r s hr
    have hone : SameLine (feedAll rules b (hearing onIncident) true [Byte.cr, Byte.lf] r s)
        (feedAll rules b (hearing onIncident) true [Byte.lf] r s) := sameLine_cr_lf hr s
    rw [feedAll_cons] at hone
    rw [List.replicate_succ, List.cons_append, feedAll_cons]
    exact (ih _ _ (not_failed_feedAll Byte.cr r s)).trans hone

/-! ### Whole texts -/

/-- The readers are the same, or both are at the start of the same line. -/
def SamePlace (r r' : Reader) : Prop := r = r' ∨ r.AtLine ∧ r'.AtLine ∧ r.fresh = r'.fresh

theorem SamePlace.feedAll {onFault : Fault → σ → σ} (h : SamePlace r r') (c : UInt8) (s : σ) :
    feedAll rules b onFault true [c] r s = feedAll rules b onFault true [c] r' s := by
  obtain rfl | ⟨hr, hr', h⟩ := h
  · rfl
  · rw [← feedAll_fresh hr, h, feedAll_fresh hr']

theorem readOut_append_going {onFault : Fault → σ → σ} (hr : r.failed = false) (t u : Bytes) :
    readOut rules b onFault true (t ++ u) r s =
      readOut rules b onFault true u (feedAll rules b onFault true t r s).1 (feedAll rules b onFault true t r s).2 := by
  rw [readOut_append t u r s hr, if_neg (by simp [not_failed_feedAll_of_not_failed t r s hr])]

theorem readOut_cons_going {onFault : Fault → σ → σ} (hr : r.failed = false) (c : UInt8) (t : Bytes) :
    readOut rules b onFault true (c :: t) r s =
      readOut rules b onFault true t (feedAll rules b onFault true [c] r s).1
        (feedAll rules b onFault true [c] r s).2 :=
  readOut_append_going hr [c] t

/-- Added carriage returns leave no trace in the state of a builder to which faults are incidents. -/
theorem readOut_crAdded (h : CrAdded t t') : ∀ {r r' : Reader} (s : σ), r.failed = false → r'.failed = false →
    SamePlace r r' →
    (readOut rules b (hearing onIncident) true t' r' s).2 = (readOut rules b (hearing onIncident) true t r s).2 := by
  induction h with
  | nil =>
    intro r r' s hr hr' hplace
    obtain rfl | ⟨hline, hline', -⟩ := hplace
    · rfl
    · rw [readOut_nil hr, readOut_nil hr', finishAll, finishAll, finish_atLine hline, finish_atLine hline']
      simp only [fault?_eq_none_iff.mpr hr, fault?_eq_none_iff.mpr hr']
  | byte c _ ih =>
    intro r r' s hr hr' hplace
    rw [readOut_cons_going hr, readOut_cons_going hr', hplace.feedAll]
    exact ih _ (not_failed_feedAll c r' s) (not_failed_feedAll c r' s) (Or.inl rfl)
  | @lineEnd n t t' _ ih =>
    intro r r' s hr hr' hplace
    rw [readOut_cons_going hr, hplace.feedAll, List.append_cons, readOut_append_going hr']
    have hline : SameLine (feedAll rules b (hearing onIncident) true (List.replicate n Byte.cr ++ [Byte.lf]) r' s)
        (feedAll rules b (hearing onIncident) true [Byte.lf] r' s) := sameLine_crs_lf n r' s hr'
    have hgoing : (feedAll rules b (hearing onIncident) true (List.replicate n Byte.cr) r' s).1.failed = false :=
      not_failed_feedAll_of_not_failed _ r' s hr'
    -- However many carriage returns there are, the line feed comes last.
    have hstart :
        (feedAll rules b (hearing onIncident) true (List.replicate n Byte.cr ++ [Byte.lf]) r' s).1.AtLine := by
      rw [feedAll_append]
      exact atLine_feedAll_lf hgoing
    rw [hline.2]
    exact ih _ (not_failed_feedAll _ r' s) (not_failed_feedAll_of_not_failed _ r' s hr')
      (Or.inr ⟨atLine_feedAll_lf hr', hstart, hline.1.symm⟩)

/-! ### What happens -/

/-- What happens while a text is read. -/
inductive Happening where
  /-- The builder is told of an event, and answers. -/
  | told (event : Event) (answer : Answer)
  /-- There is a fault. -/
  | fault (incident : Incident)
  deriving DecidableEq, Repr

/-- All that happens, in order, while a new reader reads a text and comes to the end of the input, going on after each
fault. -/
def history (rules : Rules) (b : Builder σ) (t : Bytes) (s : σ) : List Happening :=
  (readOut rules (record .told b) (hearing fun i (s, before) => (s, before ++ [.fault i])) true t {} (s, [])).2.2

/-- **Carriage returns before line ends do not show.** A text to which they are added, any number before each line
end, has the same history: the builder is told of the same events, and the same faults are met between them, with the
same cause, the same word and in the same line. -/
theorem carriage_returns_unseen (rules : Rules) (b : Builder σ) (h : CrAdded t t') (s : σ) :
    history rules b t' s = history rules b t s := by
  rw [history, history, readOut_crAdded h (s, []) rfl rfl (Or.inl rfl)]

/-- A word that the builder refuses and a word without a number are met at a carriage return. -/
theorem carriage_returns_unseen_faults :
    CrAdded (ascii "X1\nY\n") (ascii "X1\r\r\nY\r\n") ∧
      history {} (refusing 0x58) (ascii "X1\r\r\nY\r\n") () =
        [.told .programStart .accept, .told (.data 0x58 none ⟨1, 0⟩) (.refuse 1), .fault ⟨.builder 1, some 0x58, 1⟩,
          .fault ⟨.decimal .incomplete, some 0x59, 2⟩] := by
  have h : CrAdded (ascii "X1\nY\n") (ascii "X1\r\r\nY\r\n") :=
    .byte 0x58 (.byte 0x31 (.lineEnd 2 (.byte 0x59 (.lineEnd 1 .nil))))
  exact ⟨h, (carriage_returns_unseen {} (refusing 0x58) h ()).trans (by decide)⟩

end PartProgram.Block
