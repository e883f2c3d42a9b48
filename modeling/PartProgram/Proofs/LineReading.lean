import PartProgram.Proofs.LineGrammar

/-!
# A line of the grammar is read with its elements

Along a derivation, from its end to its start: if the reader takes what follows a part of the line,
it takes the part and what follows (`Runs`). The reader does not know a word's end before it sees
the byte after it, so what follows a word is always there, and it starts with a byte that ends
words (`Stops`).

The builder here accepts whatever it is told, and checksums are not verified.
-/

namespace PartProgram.Block

open Number Reader

variable {σ : Type} {rules : Rules} {b : Builder σ} {c : UInt8} {r : Reader} {s s' : σ} {t : Bytes}

/-! ### A builder that accepts everything -/

/-- The builder accepts every event. -/
def Accepting (b : Builder σ) : Prop := ∀ e s, (b e s).1 = .accept

/-- The state of a builder that accepts everything, after it is told the events. -/
def told (b : Builder σ) (es : List Event) (s : σ) : σ := es.foldl (fun s e => (b e s).2) s

@[simp] theorem told_nil (b : Builder σ) (s : σ) : told b [] s = s := rfl

theorem told_append (b : Builder σ) (es fs : List Event) (s : σ) : told b (es ++ fs) s = told b fs (told b es s) :=
  List.foldl_append

theorem Accepting.eq_accept (hb : Accepting b) (e : Event) (s : σ) : b e s = (.accept, told b [e] s) :=
  Prod.ext (hb e s) rfl

theorem Accepting.ensureStarted (hb : Accepting b) :
    r.ensureStarted b c s = ({ r with programStarted := true }, told b (opening r.programStarted) s) := by
  obtain ⟨mode, line, column, atLineStart, programStarted, hasContent, parity, declared⟩ := r
  cases programStarted with
  | true => rfl
  | false => simp [Reader.ensureStarted, hb.eq_accept, opening]

theorem Accepting.announce (hb : Accepting b) (e : Event) (hr : r.failed = false) :
    r.announce b e c s = ({ r with programStarted := true }, told b (opening r.programStarted ++ [e]) s) := by
  have hf : ({ r with programStarted := true } : Reader).failed = false := hr
  simp [Reader.announce, hb.ensureStarted, hf, Reader.tell, hb.eq_accept, told_append]

/-- At the end of a block the builder is told of it, if the block has content. -/
theorem Accepting.endBlock (hb : Accepting b) (hv : rules.verifyChecksum = false) (hr : r.failed = false) :
    (r.endBlock rules b c s).1.failed = false ∧
      (r.endBlock rules b c s).2 =
        if r.hasContent then told b (opening r.programStarted ++ [.endBlock]) s else s := by
  have hw : r.checksumWrong rules = false := by
    rw [checksumWrong]
    cases r.declared <;> simp [hv]
  have hf : ({ r with programStarted := true } : Reader).failed = false := hr
  cases hc : r.hasContent with
  | false => simp [Reader.endBlock, hw, hc]
  | true =>
    rw [Reader.endBlock, if_neg (by simp [hw]), if_pos hc, hb.announce _ hr]
    simp [hf]

/-! ### Reading with what follows -/

/-- The reader takes all of the text, and leaves the builder in the state `s'`. -/
def Reads (rules : Rules) (b : Builder σ) (r : Reader) (s : σ) (t : Bytes) (s' : σ) : Prop :=
  ∃ r', feedText rules b t r s = (true, r', s')

/-- Every reader in this mode, with this content and this program, takes all of the text. -/
def Runs (rules : Rules) (b : Builder σ) (m : Mode) (content started : Bool) (s : σ) (t : Bytes) (s' : σ) : Prop :=
  ∀ r : Reader, r.mode = m → r.hasContent = content → r.programStarted = started → Reads rules b r s t s'

theorem Reads.cons {r₁ : Reader} {s₁ : σ} (hr : r.failed = false)
    (hp : (r.advance c).process rules b c s = (r₁, s₁)) (hr₁ : r₁.failed = false)
    (ht : Reads rules b r₁ s₁ t s') : Reads rules b r s (c :: t) s' := by
  obtain ⟨r', hr'⟩ := ht
  refine ⟨r', ?_⟩
  rw [feedText, feed_of_not_failed hr, hp]
  simpa [hr₁] using hr'

/-- Two readers that do the same with the next byte read the same text. -/
theorem Reads.of_process_eq (r₁ : Reader) {s₁ : σ} (hr : r.failed = false) (hr₁ : r₁.failed = false)
    (hp : (r.advance c).process rules b c s = (r₁.advance c).process rules b c s₁)
    (ht : Reads rules b r₁ s₁ (c :: t) s') : Reads rules b r s (c :: t) s' := by
  obtain ⟨r', hr'⟩ := ht
  refine ⟨r', ?_⟩
  rw [feedText, feed_of_not_failed hr₁, ← hp] at hr'
  rw [feedText, feed_of_not_failed hr]
  exact hr'

section

variable {m : Mode} {content started : Bool} {place : Place}

/-! ### Gaps -/

theorem runs_blank (hc : IsBlank c) (h : Runs rules b (.gap place) content started s t s') :
    Runs rules b (.gap place) content started s (c :: t) s' := by
  intro r hm hh hs
  exact Reads.cons (failed_of_mode hm) ((process_advance_gap hm).trans (atGap_blank place hc))
    (failed_of_mode (m := .gap place) hm) (h _ hm hh hs)

theorem runs_comment {u : Bytes} (hu : Byte.closeParen ∉ u) (hl : Byte.lf ∉ u)
    (h : Runs rules b (.gap place) content started s t s') :
    Runs rules b (.comment place) content started s (u ++ Byte.closeParen :: t) s' := by
  induction u with
  | nil =>
    intro r hm hh hs
    exact Reads.cons (failed_of_mode hm) (process_comment_close hm rfl) rfl (h _ rfl hh hs)
  | cons d u ih =>
    simp only [List.mem_cons, not_or] at hu hl
    intro r hm hh hs
    exact Reads.cons (failed_of_mode hm) (process_comment_other hm (Ne.symm hu.1) (Ne.symm hl.1))
      (failed_of_mode hm) (ih hu.2 hl.2 _ hm hh hs)

theorem runs_gap {g : Bytes} (hg : Gap g) (hl : Byte.lf ∉ g)
    (h : Runs rules b (.gap place) content started s t s') :
    Runs rules b (.gap place) content started s (g ++ t) s' := by
  induction hg with
  | nil => exact h
  | blank hc _ ih =>
    simp only [List.mem_cons, not_or] at hl
    exact runs_blank hc (ih hl.2)
  | @comment u g hu _ ih =>
    simp only [List.mem_cons, List.mem_append, not_or] at hl
    intro r hm hh hs
    rw [List.cons_append, List.append_assoc, List.cons_append]
    exact Reads.cons (failed_of_mode hm) ((process_advance_gap hm).trans (atGap_openParen place)) rfl
      (runs_comment hu hl.2.1 (ih hl.2.2.2) _ rfl hh hs)

/-! ### Words -/

/-- The byte cannot go on a number, nor is it the mark of an index: it ends a word. -/
def Stopper (c : UInt8) : Prop := isLiteralByte c = false ∧ c ≠ Byte.equals

instance (c : UInt8) : Decidable (Stopper c) := inferInstanceAs (Decidable (_ ∧ _))

/-- The text starts with a byte that ends words. -/
def Stops (t : Bytes) : Prop := ∃ c u, t = c :: u ∧ Stopper c

theorem stopper_lf : Stopper Byte.lf := by decide

theorem stopper_blank (hc : IsBlank c) : Stopper c := by
  rcases hc with rfl | rfl | rfl <;> decide

theorem stopper_letter {letter : UInt8} (h : Letter rules c letter) : Stopper c := by
  have hc := h.isUpper_or_isLower
  constructor
  · grind [isLiteralByte, Byte.isUpper, Byte.isLower, Byte.isDigit]
  · rintro rfl
    exact absurd hc (by decide)

theorem Gap.stops {g : Bytes} (hg : Gap g) (ht : Stops t) : Stops (g ++ t) := by
  cases hg with
  | nil => exact ht
  | blank hc _ => exact ⟨_, _, rfl, stopper_blank hc⟩
  | comment _ _ => exact ⟨_, _, rfl, by decide⟩

theorem Words.stops {es : List Event} (h : Words rules t es) : Stops (t ++ [Byte.lf]) := by
  cases h with
  | closing h =>
    cases h with
    | ending h =>
      cases h with
      | nil => exact ⟨_, _, rfl, stopper_lf⟩
      | comment u => exact ⟨_, _, rfl, by decide⟩
    | checksum _ _ _ _ => exact ⟨_, _, rfl, by decide⟩
  | word h _ _ =>
    cases h with
    | plain hc _ _ _ => exact ⟨_, _, rfl, stopper_letter hc⟩
    | indexed hc _ _ _ _ _ => exact ⟨_, _, rfl, stopper_letter hc⟩

/-- Bytes that a literal takes are bytes of literals. -/
theorem isLiteralByte_of_step {a : Arithmetic} {l l' : Literal} (h : l.step a c = .ok l') : isLiteralByte c := by
  by_contra hc
  simp only [isLiteralByte, Bool.or_eq_true, beq_iff_eq, not_or] at hc
  obtain ⟨⟨⟨h1, h2⟩, h3⟩, h4⟩ := hc
  have h5 : c ≠ Byte.zero := by
    rintro rfl
    exact h1 (by decide)
  rw [Literal.step_eq_ok_iff] at h
  cases hp : l.phase <;> simp [Literal.offer, hp, h1, h2, h3, h4, h5] at h

/-- A byte that is an address means nothing else between the parts of a block. -/
theorem not_mem_gapBytes {letter : UInt8} (h : addressOf? rules c = some letter) : c ∉ gapBytes := by
  rcases addressOf?_eq_some_iff.mp h with h | ⟨rfl, -⟩
  · have hc := h.isUpper_or_isLower
    intro hg
    simp only [gapBytes, List.mem_cons, List.not_mem_nil, or_false] at hg
    rcases hg with rfl | rfl | rfl | rfl | rfl | rfl | rfl | rfl | rfl <;> exact absurd hc (by decide)
  · decide

/-- An address starts a word, if it may stand at this place. -/
theorem runs_startWord {letter : UInt8} (hc : addressOf? rules c = some letter) (hp : place ≠ .afterChecksum)
    (hseq : Word.isSequence letter → place = .blockStart)
    (h : ∀ column, Runs rules b (.address ⟨letter, column, none⟩) true started s t s') :
    Runs rules b (.gap place) content started s (c :: t) s' := by
  intro r hm hh hs
  have hstart : (r.advance c).startWord rules place c =
      { r.advance c with mode := .address ⟨letter, (r.advance c).column, none⟩, hasContent := true } := by
    have : ¬ (Word.isSequence letter && place != .blockStart) = true := by
      rw [Bool.and_eq_true, bne_iff_ne]
      exact fun h => h.2 (hseq h.1)
    simp only [startWord, hc]
    rw [if_neg this]
  refine Reads.cons (failed_of_mode hm) ((process_advance_gap hm).trans (atGap_word hp (not_mem_gapBytes hc))) ?_ ?_
  · rw [hstart]
    rfl
  · rw [hstart]
    exact h _ _ rfl rfl hs

theorem runs_spaces {w : Word} {sp : Bytes} (hsp : Spaces sp)
    (h : Runs rules b (.address w) content started s t s') :
    Runs rules b (.address w) content started s (sp ++ t) s' := by
  induction sp with
  | nil => exact h
  | cons d sp ih =>
    intro r hm hh hs
    have hd := hsp d List.mem_cons_self
    exact Reads.cons (failed_of_mode hm) (process_address_blank hm hd) (failed_of_mode (m := .address w) hm)
      (ih (fun e he => hsp e (List.mem_cons_of_mem _ he)) _ hm hh hs)

theorem runs_literal {w : Word} {n : Bytes} : ∀ {l : Literal}, (l.feed rules.arithmetic n).error = none →
    Runs rules b (.value w (l.feed rules.arithmetic n).literal) content started s t s' →
    Runs rules b (.value w l) content started s (n ++ t) s' := by
  induction n with
  | nil => exact fun _ h => h
  | cons d n ih =>
    intro l he h r hm hh hs
    obtain ⟨l', hd, he', hliteral⟩ := Literal.exists_step_of_feed_cons he
    rw [hliteral] at h
    exact Reads.cons (failed_of_mode hm) (process_value_literal hm (isLiteralByte_of_step hd) hd) rfl
      (ih he' h _ rfl hh hs)

/-- A literal after an address is read from its start. -/
theorem runs_address {w : Word} {n : Bytes} (hne : n ≠ []) (he : (Literal.feed rules.arithmetic {} n).error = none)
    (h : Runs rules b (.value w (Literal.feed rules.arithmetic {} n).literal) content started s t s') :
    Runs rules b (.address w) content started s (n ++ t) s' := by
  obtain ⟨d, n, rfl⟩ := List.exists_cons_of_ne_nil hne
  intro r hm hh hs
  have hd : isLiteralByte d := by
    obtain ⟨l', hd, -⟩ := Literal.exists_step_of_feed_cons he
    exact isLiteralByte_of_step hd
  exact Reads.of_process_eq { r with mode := .value w {} } (failed_of_mode hm) rfl
    (process_address_literal hm hd) (runs_literal he h _ rfl hh hs)

/-- A byte that ends words makes the word known to the builder. -/
theorem runs_endWord {w : Word} {l : Literal} {d : Decimal} (hb : Accepting b) (hl : l.finish = .ok d)
    (ht : Stops t) (h : Runs rules b (.gap .betweenWords) content true
      (told b (opening started ++ [w.event d]) s) t s') :
    Runs rules b (.value w l) content started s t s' := by
  obtain ⟨c, u, rfl, hc, hq⟩ := ht
  intro r hm hh hs
  have hm' : (r.advance c).mode = .value w l := hm
  have hann := hb.announce (r := r.advance c) (c := c) (s := s) (w.event d) (failed_of_mode hm)
  rw [programStarted_advance, hs] at hann
  refine Reads.of_process_eq { r with mode := .gap .betweenWords, programStarted := true }
    (failed_of_mode hm) rfl ?_ (h _ rfl hh rfl)
  have hf : ({ r.advance c with programStarted := true } : Reader).failed = false := failed_of_mode hm
  rw [process_value_end hm' hc hq hl, hann, hf, process_advance_gap rfl]
  rfl

/-- The digits of an index and its mark. -/
theorem runs_index {w : Word} {ds : Bytes} {i : Nat} (hw : Word.takesIndex w.address) (hi : w.index = none)
    (hds : IsIndex rules.arithmetic ds i)
    (h : Runs rules b (.address { w with index := some i }) content started s t s') :
    Runs rules b (.address w) content started s (ds ++ Byte.equals :: t) s' := by
  obtain ⟨hne, hd, rfl, hr⟩ := hds
  have hreached := reached_ofDigits (a := rules.arithmetic) hd hr
  refine runs_address hne hreached.1 ?_
  rw [hreached.2]
  intro r hm hh hs
  have hend : (r.advance Byte.equals).endIndex w (Written.ofDigits ds hd).state =
      { r.advance Byte.equals with mode := .address { w with index := some (Text.ofDigits ds) } } := by
    have hp : (Written.ofDigits ds hd).state.isPlainInteger := hreached.isPlainInteger_iff.mpr ⟨hne, hd⟩
    rw [endIndex_eq, if_pos (by simp [hw, hi, hp]), (hreached.significand_of_isDigits hd).1]
  refine Reads.cons (failed_of_mode hm) (process_value_equals hm rfl) ?_ ?_
  · rw [hend]
    rfl
  · rw [hend]
    exact h _ rfl hh hs

theorem IsNumber.ne_nil {a : Arithmetic} {n : Bytes} {d : Decimal} (h : IsNumber a n d) : n ≠ [] := by
  rintro rfl
  exact absurd h.2 (by simp [Literal.feed, Literal.finish])

/-- An address with a number, and what follows. -/
theorem runs_number {w : Word} {sp n : Bytes} {d : Decimal} (hb : Accepting b) (hsp : Spaces sp)
    (hn : IsNumber rules.arithmetic n d) (ht : Stops t)
    (h : Runs rules b (.gap .betweenWords) content true (told b (opening started ++ [w.event d]) s) t s') :
    Runs rules b (.address w) content started s (sp ++ (n ++ t)) s' :=
  runs_spaces hsp (runs_address hn.ne_nil hn.1 (runs_endWord hb hn.2 ht h))

theorem not_isSequence {letter : UInt8} (hc : Letter rules c letter) (hn : letter ≠ Byte.letterN) :
    Word.isSequence letter = false := by
  have hcolon : letter ≠ Byte.colon := by
    rintro rfl
    exact absurd hc.isUpper (by decide)
  simp [Word.isSequence, hn, hcolon]

theorem runs_wordText {w : Bytes} {e : Event} (hb : Accepting b) (hw : WordText rules w e)
    (hp : place ≠ .afterChecksum) (ht : Stops t)
    (h : Runs rules b (.gap .betweenWords) true true (told b (opening started ++ [e]) s) t s') :
    Runs rules b (.gap place) content started s (w ++ t) s' := by
  cases hw with
  | @plain c letter sp n d hc hN hsp hn =>
    have hseq := not_isSequence hc hN
    rw [List.cons_append, List.append_assoc]
    refine runs_startWord (addressOf?_eq_some_iff.mpr (Or.inl hc)) hp (by simp [hseq]) fun column => ?_
    refine runs_number hb hsp hn ht ?_
    have hev : (⟨letter, column, none⟩ : Word).event d = plainEvent letter d := by
      simp [Word.event, plainEvent, hseq]
    exact hev ▸ h
  | @indexed c letter sp ds sp' n i d hc hN hsp hi hsp' hn =>
    simp only [List.mem_cons, List.not_mem_nil, or_false, not_or] at hN
    have hseq := not_isSequence hc hN.1
    simp only [List.cons_append, List.append_assoc]
    refine runs_startWord (addressOf?_eq_some_iff.mpr (Or.inl hc)) hp (by simp [hseq]) fun column => ?_
    refine runs_spaces hsp (runs_index (by simp [Word.takesIndex, hseq, hN]) rfl hi ?_)
    refine runs_number hb hsp' hn ht ?_
    have hev : (⟨letter, column, some i⟩ : Word).event d = .data letter (some i) d := by
      simp [Word.event, hseq, hN]
    exact hev ▸ h

theorem runs_sequenceText {n : Bytes} {e : Event} (hb : Accepting b) (hn : SequenceText rules n e) (ht : Stops t)
    (h : Runs rules b (.gap .betweenWords) true true (told b (opening started ++ [e]) s) t s') :
    Runs rules b .blockStart content started s (n ++ t) s' := by
  cases hn with
  | @number c sp n d hc hsp hn =>
    rw [List.cons_append, List.append_assoc]
    refine runs_startWord (addressOf?_eq_some_iff.mpr (Or.inl hc)) (by decide) (fun _ => rfl) fun column => ?_
    exact runs_number hb hsp hn ht h
  | @alignment sp n d hsp hn =>
    rw [List.cons_append, List.append_assoc]
    refine runs_startWord (addressOf?_eq_some_iff.mpr (Or.inr ⟨rfl, rfl⟩)) (by decide) (fun _ => rfl) fun column => ?_
    exact runs_number hb hsp hn ht h

/-! ### The end of the line -/

/-- What the builder is still told of a line, if the elements `es` are still to come. -/
def finale (content started : Bool) (es : List Event) : List Event :=
  if content = false ∧ es = [] then [] else opening started ++ es ++ [.endBlock]

theorem finale_false (started : Bool) (es : List Event) : finale false started es = callbacks started es := by
  simp [finale, callbacks]

theorem told_finale_cons (b : Builder σ) (content started : Bool) (e : Event) (es : List Event) (s : σ) :
    told b (finale true true es) (told b (opening started ++ [e]) s) = told b (finale content started (e :: es)) s := by
  rw [← told_append]
  simp [finale, opening]

theorem Ending.stops (h : Ending t) : Stops (t ++ [Byte.lf]) := by
  cases h with
  | nil => exact ⟨_, _, rfl, stopper_lf⟩
  | comment u => exact ⟨_, _, rfl, by decide⟩

theorem reads_endBlock (hb : Accepting b) (hv : rules.verifyChecksum = false) (hr : r.failed = false)
    (hp : (r.advance Byte.lf).process rules b Byte.lf s = (r.advance Byte.lf).endBlock rules b Byte.lf s) :
    Reads rules b r s [Byte.lf] (told b (finale r.hasContent r.programStarted []) s) := by
  have h := hb.endBlock (r := r.advance Byte.lf) (c := Byte.lf) (s := s) hv hr
  rcases hend : (r.advance Byte.lf).endBlock rules b Byte.lf s with ⟨r₁, s₁⟩
  rw [hend] at h hp
  obtain ⟨h1, rfl⟩ := h
  have hs : told b (finale r.hasContent r.programStarted []) s =
      if r.hasContent then told b (opening r.programStarted ++ [.endBlock]) s else s := by
    cases r.hasContent <;> simp [finale]
  exact Reads.cons hr hp h1 ⟨r₁, by rw [feedText, hs, hasContent_advance, programStarted_advance]⟩

theorem runs_lf (hb : Accepting b) (hv : rules.verifyChecksum = false) (place : Place) (content started : Bool)
    (s : σ) : Runs rules b (.gap place) content started s [Byte.lf] (told b (finale content started []) s) := by
  rintro r hm rfl rfl
  exact reads_endBlock hb hv (failed_of_mode hm) ((process_advance_gap hm).trans (atGap_lf place))

theorem runs_lineComment (hb : Accepting b) (hv : rules.verifyChecksum = false) (content started : Bool) (s : σ)
    {u : Bytes} (hl : Byte.lf ∉ u) :
    Runs rules b .lineComment content started s (u ++ [Byte.lf]) (told b (finale content started []) s) := by
  induction u with
  | nil =>
    rintro r hm rfl rfl
    exact reads_endBlock hb hv (failed_of_mode hm) (process_lineComment_lf hm)
  | cons d u ih =>
    simp only [List.mem_cons, not_or] at hl
    intro r hm hh hs
    exact Reads.cons (failed_of_mode hm) (process_lineComment_other hm (Ne.symm hl.1))
      (failed_of_mode (m := .lineComment) hm) (ih hl.2 _ hm hh hs)

theorem runs_ending (hb : Accepting b) (hv : rules.verifyChecksum = false) (place : Place)
    (content started : Bool) (s : σ) (h : Ending t) (hl : Byte.lf ∉ t) :
    Runs rules b (.gap place) content started s (t ++ [Byte.lf]) (told b (finale content started []) s) := by
  cases h with
  | nil => exact runs_lf hb hv place content started s
  | comment u =>
    simp only [List.mem_cons, not_or] at hl
    intro r hm hh hs
    exact Reads.cons (failed_of_mode hm) ((process_advance_gap hm).trans (atGap_semicolon place)) rfl
      (runs_lineComment hb hv content started s hl.2 _ rfl hh hs)

/-! ### Checksums -/

theorem runs_checksum {ds : Bytes} (hd : IsDigits ds) (ht : Stops t)
    (h : Runs rules b (.gap .afterChecksum) content started s t s') :
    Runs rules b .checksum content started s (ds ++ t) s' := by
  induction ds with
  | nil =>
    obtain ⟨c, u, rfl, hc, -⟩ := ht
    intro r hm hh hs
    have hc' : Byte.isDigit c = false := by
      simp only [isLiteralByte, Bool.or_eq_false_iff] at hc
      exact hc.1.1.1
    refine Reads.of_process_eq { r with mode := .gap .afterChecksum } (failed_of_mode hm) rfl ?_
      (h _ rfl hh hs)
    have hm' : (r.advance c).mode = .checksum := hm
    rw [process_checksum_end hm' hc', process_advance_gap rfl]
    rfl
  | cons d ds ih =>
    intro r hm hh hs
    exact Reads.cons (failed_of_mode hm) (process_checksum_digit hm (hd d List.mem_cons_self))
      (failed_of_mode (m := .checksum) hm) (ih (fun e he => hd e (List.mem_cons_of_mem _ he)) _ hm hh hs)

theorem runs_closing (hb : Accepting b) (hv : rules.verifyChecksum = false) (hp : place ≠ .afterChecksum)
    (content started : Bool) (s : σ) (h : Closing t) (hl : Byte.lf ∉ t) :
    Runs rules b (.gap place) content started s (t ++ [Byte.lf]) (told b (finale content started []) s) := by
  cases h with
  | ending h => exact runs_ending hb hv place content started s h hl
  | @checksum ds g t hne hd hg h =>
    simp only [List.mem_cons, List.mem_append, not_or] at hl
    obtain ⟨-, -, hlg, hlt⟩ := hl
    have hrest := runs_gap hg hlg (runs_ending hb hv .afterChecksum content started s h hlt)
    obtain ⟨d, ds, rfl⟩ := List.exists_cons_of_ne_nil hne
    simp only [List.cons_append, List.append_assoc]
    intro r hm hh hs
    refine Reads.cons (failed_of_mode hm) ((process_advance_gap hm).trans (atGap_star hp)) rfl ?_
    refine Reads.cons rfl (process_checksumStart_digit rfl (hd d List.mem_cons_self)) rfl ?_
    exact runs_checksum (fun e he => hd e (List.mem_cons_of_mem _ he)) (hg.stops h.stops) hrest _ rfl hh hs

/-! ### Lines -/

theorem runs_words (hb : Accepting b) (hv : rules.verifyChecksum = false) {es : List Event} (h : Words rules t es) :
    ∀ (place : Place) (content started : Bool) (s : σ), place ≠ .afterChecksum → Byte.lf ∉ t →
      Runs rules b (.gap place) content started s (t ++ [Byte.lf]) (told b (finale content started es) s) := by
  induction h with
  | closing h => exact fun place content started s hp hl => runs_closing hb hv hp content started s h hl
  | @word w g t e es hw hg hwords ih =>
    intro place content started s hp hl
    simp only [List.mem_append, not_or] at hl
    simp only [List.append_assoc]
    refine runs_wordText hb hw hp (hg.stops hwords.stops) (runs_gap hg hl.2.1 ?_)
    rw [← told_finale_cons]
    exact ih .betweenWords true true _ (by decide) hl.2.2

theorem runs_numbered (hb : Accepting b) (hv : rules.verifyChecksum = false) {es : List Event}
    (h : Numbered rules t es) (content started : Bool) (s : σ) (hl : Byte.lf ∉ t) :
    Runs rules b .blockStart content started s (t ++ [Byte.lf]) (told b (finale content started es) s) := by
  cases h with
  | words h => exact runs_words hb hv h .blockStart content started s (by decide) hl
  | @sequence n g t e es hn hg hwords =>
    simp only [List.mem_append, not_or] at hl
    simp only [List.append_assoc]
    refine runs_sequenceText hb hn (hg.stops hwords.stops) (runs_gap hg hl.2.1 ?_)
    rw [← told_finale_cons]
    exact runs_words hb hv hwords .betweenWords true true _ (by decide) hl.2.2

theorem runs_programMarker (content started : Bool) (s : σ) {u : Bytes} (hl : Byte.lf ∉ u) :
    Runs rules b .programMarker content started s (u ++ [Byte.lf]) s := by
  induction u with
  | nil =>
    intro r hm hh hs
    exact Reads.cons (failed_of_mode hm) (process_passed_lf (Or.inl hm)) rfl ⟨_, rfl⟩
  | cons d u ih =>
    simp only [List.mem_cons, not_or] at hl
    intro r hm hh hs
    exact Reads.cons (failed_of_mode hm) (process_passed_other (Or.inl hm) (Ne.symm hl.1))
      (failed_of_mode (m := .programMarker) hm) (ih hl.2 _ hm hh hs)

theorem runs_content (hb : Accepting b) (hv : rules.verifyChecksum = false) {es : List Event}
    (h : Content rules t es) (started : Bool) (s : σ) (hl : Byte.lf ∉ t) :
    Runs rules b .blockStart false started s (t ++ [Byte.lf]) (told b (callbacks started es) s) := by
  rw [← finale_false]
  cases h with
  | marker u =>
    simp only [List.mem_cons, not_or] at hl
    intro r hm hh hs
    have hgap : (r.advance Byte.percent).process rules b Byte.percent s = _ :=
      (process_advance_gap hm).trans (atGap_percent (by decide))
    rw [if_pos ⟨rfl, by simp [hh]⟩] at hgap
    exact Reads.cons (failed_of_mode hm) hgap rfl (runs_programMarker false false s hl.2 _ rfl hh rfl)
  | block h => exact runs_numbered hb hv h false started s hl
  | @deleted g t es hg h =>
    simp only [List.mem_cons, List.mem_append, not_or] at hl
    simp only [List.cons_append, List.append_assoc]
    intro r hm hh hs
    have hgap : (r.advance Byte.slash).process rules b Byte.slash s = _ :=
      (process_advance_gap hm).trans (atGap_slash (by decide))
    have hf : ({ r.advance Byte.slash with hasContent := true } : Reader).failed = false := failed_of_mode hm
    rw [if_pos ⟨rfl, by simp [hh]⟩, hb.announce _ hf] at hgap
    refine Reads.cons (failed_of_mode hm) hgap (failed_of_mode (m := .blockStart) hm) ?_
    have hrest := runs_gap hg hl.2.1
      (runs_numbered hb hv h true true (told b (opening started ++ [.blockDelete]) s) hl.2.2)
    rw [told_finale_cons b false] at hrest
    have hs' : ({ r.advance Byte.slash with hasContent := true } : Reader).programStarted = started := hs
    rw [hs']
    exact hrest _ hm rfl rfl

/-- A line of the grammar is taken, and the builder is told of its elements. -/
theorem runs_line (hb : Accepting b) (hv : rules.verifyChecksum = false) {es : List Event} (h : Line rules t es)
    (started : Bool) (s : σ) (hl : Byte.lf ∉ t) :
    Runs rules b .blockStart false started s (t ++ [Byte.lf]) (told b (callbacks started es) s) := by
  obtain ⟨hg, h⟩ := h
  simp only [List.mem_append, not_or] at hl
  rw [List.append_assoc]
  exact runs_gap hg hl.1 (runs_content hb hv h started s hl.2)

end

end PartProgram.Block
