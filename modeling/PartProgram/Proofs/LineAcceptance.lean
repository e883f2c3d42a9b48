import PartProgram.Proofs.LineReading

/-!
# The reader accepts exactly the lines of the grammar

Every mode of the reader stands for a part of a derivation that is still to come: what a line may
have from there to its end (`Rest`). If the reader takes the rest of a line from some mode, then
that rest is one that the mode stands for (`rest_of_accepts`). This goes by induction on the rest of
the line; the byte that ends a word or a checksum counts twice, once for what it ends and once for
the gap that it is looked at again in.

Together with `runs_line` this says that the lines which are accepted are the lines of the grammar,
and what the builder is told of them.
-/

namespace PartProgram.Block

open Number Reader

variable {σ : Type} {rules : Rules} {b : Builder σ} {c : UInt8} {r : Reader} {s : σ} {t : Bytes}

/-! ### What is still to come -/

/-- What may follow a gap at the given place, in a block with or without content. -/
def AfterGap (rules : Rules) : Place → Bool → Bytes → Prop
  | .blockStart, false, t => ∃ es, Content rules t es
  | .blockStart, true, t => ∃ es, Numbered rules t es
  | .betweenWords, _, t => ∃ es, Words rules t es
  | .afterChecksum, _, t => Ending t

/-- A gap and what may follow it. -/
inductive AtGap (rules : Rules) (place : Place) (content : Bool) : Bytes → Prop where
  /-- A gap, and what may follow. -/
  | mk {g t : Bytes} : Gap g → AfterGap rules place content t → AtGap rules place content (g ++ t)

/-- `AtNumber rules w p t`: after the bytes `p` of a literal of the word `w` there may stand `t`.
Either `p` goes on to be the number of the word, or it goes on to be its index. -/
inductive AtNumber (rules : Rules) (w : Word) (p : Bytes) : Bytes → Prop where
  /-- The rest of the number, and what follows the word. -/
  | number {n u : Bytes} {d : Decimal} : IsNumber rules.arithmetic (p ++ n) d →
      AtGap rules .betweenWords true u → AtNumber rules w p (n ++ u)
  /-- The rest of the index, its mark, the number, and what follows the word. -/
  | index {ds sp n u : Bytes} {i : Nat} {d : Decimal} : Word.takesIndex w.address → w.index = none →
      IsIndex rules.arithmetic (p ++ ds) i → Spaces sp → IsNumber rules.arithmetic n d →
      AtGap rules .betweenWords true u → AtNumber rules w p (ds ++ Byte.equals :: (sp ++ (n ++ u)))

/-- What a mode stands for: what the line may have from there to its end. -/
def Rest (rules : Rules) (content : Bool) (t : Bytes) : Mode → Prop
  | .gap place => AtGap rules place content t
  | .comment place =>
    ∃ u v, Byte.closeParen ∉ u ∧ AtGap rules place content v ∧ t = u ++ Byte.closeParen :: v
  | .address w => ∃ sp u, Spaces sp ∧ AtNumber rules w [] u ∧ t = sp ++ u
  | .value w l => ∀ p, Reached rules.arithmetic p l → AtNumber rules w p t
  | .checksumStart => ∃ ds u, ds ≠ [] ∧ IsDigits ds ∧ AtGap rules .afterChecksum content u ∧ t = ds ++ u
  | .checksum => ∃ ds u, IsDigits ds ∧ AtGap rules .afterChecksum content u ∧ t = ds ++ u
  | .lineComment | .programMarker | .skipLine => True
  | .failed _ => False

/-! ### Gaps -/

section

variable {place : Place} {content : Bool} {es : List Event}

theorem afterGap_of_numbered (h : Numbered rules t es) : AfterGap rules .blockStart content t := by
  cases content with
  | false => exact ⟨es, Content.block h⟩
  | true => exact ⟨es, h⟩

theorem afterGap_of_words (h : Words rules t es) (hp : place ≠ .afterChecksum) : AfterGap rules place content t := by
  cases place with
  | blockStart => exact afterGap_of_numbered (Numbered.words h)
  | betweenWords => exact ⟨es, h⟩
  | afterChecksum => exact absurd rfl hp

theorem afterGap_of_ending (h : Ending t) : AfterGap rules place content t := by
  by_cases hp : place = .afterChecksum
  · subst hp
    exact h
  · exact afterGap_of_words (Words.closing (Closing.ending h)) hp

theorem AtGap.of_afterGap (h : AfterGap rules place content t) : AtGap rules place content t := AtGap.mk Gap.nil h

theorem atGap_nil (rules : Rules) (place : Place) (content : Bool) : AtGap rules place content [] :=
  AtGap.of_afterGap (afterGap_of_ending Ending.nil)

theorem AtGap.blank (hc : IsBlank c) (h : AtGap rules place content t) : AtGap rules place content (c :: t) := by
  obtain ⟨hg, ht⟩ := h
  exact AtGap.mk (Gap.blank hc hg) ht

theorem AtGap.comment {u : Bytes} (hu : Byte.closeParen ∉ u) (h : AtGap rules place content t) :
    AtGap rules place content (Byte.openParen :: (u ++ Byte.closeParen :: t)) := by
  obtain ⟨hg, ht⟩ := h
  have := AtGap.mk (Gap.comment hu hg) ht
  simpa using this

/-- What follows a word is told by the gap after it. -/
theorem AtGap.words (h : AtGap rules .betweenWords content t) :
    ∃ g u es, Gap g ∧ Words rules u es ∧ t = g ++ u := by
  obtain ⟨hg, es, hw⟩ := h
  exact ⟨_, _, es, hg, hw, rfl⟩

/-- A block number may stand at the start of a block. -/
theorem AtGap.sequence {sp : Bytes} {letter : UInt8} {w : Word} (hc : addressOf? rules c = some letter)
    (hl : Word.isSequence letter) (hw : w.address = letter) (hsp : Spaces sp) (h : AtNumber rules w [] t) :
    AtGap rules .blockStart content (c :: (sp ++ t)) := by
  cases h with
  | @number n u d hn hu =>
    obtain ⟨g, v, es, hg, hv, rfl⟩ := hu.words
    have hseq : ∃ e, SequenceText rules (c :: (sp ++ n)) e := by
      simp only [Word.isSequence, Bool.or_eq_true, beq_iff_eq] at hl
      rcases addressOf?_eq_some_iff.mp hc with hc | ⟨rfl, -⟩
      · rcases hl with rfl | rfl
        · exact absurd hc.isUpper (by decide)
        · exact ⟨_, SequenceText.number hc hsp hn⟩
      · exact ⟨_, SequenceText.alignment hsp hn⟩
    obtain ⟨e, he⟩ := hseq
    have := Numbered.sequence he hg hv
    rw [List.cons_append, List.append_assoc] at this
    exact AtGap.of_afterGap (afterGap_of_numbered this)
  | index hi _ _ _ _ _ =>
    rw [Word.takesIndex, hw, hl] at hi
    exact absurd hi (by simp)

/-- Any other word may stand before the checksum. -/
theorem AtGap.word {sp : Bytes} {letter : UInt8} {w : Word} (hc : addressOf? rules c = some letter)
    (hl : Word.isSequence letter = false) (hw : w.address = letter) (hp : place ≠ .afterChecksum) (hsp : Spaces sp)
    (h : AtNumber rules w [] t) : AtGap rules place content (c :: (sp ++ t)) := by
  simp only [Word.isSequence, Bool.or_eq_false_iff, beq_eq_false_iff_ne] at hl
  have hletter : Letter rules c letter := by
    rcases addressOf?_eq_some_iff.mp hc with hc | ⟨-, rfl⟩
    · exact hc
    · exact absurd rfl hl.1
  cases h with
  | @number n u d hn hu =>
    obtain ⟨g, v, es, hg, hv, rfl⟩ := hu.words
    have := Words.word (WordText.plain hletter hl.2 hsp hn) hg hv
    rw [List.cons_append, List.append_assoc] at this
    exact AtGap.of_afterGap (afterGap_of_words this hp)
  | @index ds sp' n u i d hi _ hds hsp' hn hu =>
    obtain ⟨g, v, es, hg, hv, rfl⟩ := hu.words
    have hN : letter ∉ [Byte.letterN, Byte.letterG, Byte.letterM] := by
      simp only [hw, Word.takesIndex, Bool.not_eq_true', Bool.or_eq_false_iff, beq_eq_false_iff_ne] at hi
      simp [hl.2, hi.1.2, hi.2]
    have := Words.word (WordText.indexed hletter hN hsp hds hsp' hn) hg hv
    simp only [List.cons_append, List.append_assoc] at this
    exact AtGap.of_afterGap (afterGap_of_words this hp)

end

/-! ### Taking a byte -/

/-- The reader takes all of the text. -/
def Accepts (rules : Rules) (b : Builder σ) (r : Reader) (s : σ) (t : Bytes) : Prop :=
  (feedText rules b t r s).1 = true

theorem Accepts.not_failed (h : Accepts rules b r s (c :: t)) : r.failed = false := by
  cases hr : r.failed with
  | false => rfl
  | true =>
    rw [Accepts, feedText, feed_of_failed hr] at h
    exact absurd h (by simp [hr])

/-- A text is taken if its first byte leads to no fault, and the rest is taken from there. -/
theorem Accepts.cons (h : Accepts rules b r s (c :: t)) {r₁ : Reader} {s₁ : σ}
    (hp : (r.advance c).process rules b c s = (r₁, s₁)) : r₁.failed = false ∧ Accepts rules b r₁ s₁ t := by
  have hr := h.not_failed
  rw [Accepts, feedText, feed_of_not_failed hr, hp] at h
  cases hr₁ : r₁.failed with
  | true => simp [hr₁] at h
  | false =>
    simp only [hr₁, Bool.false_eq_true, if_false] at h
    exact ⟨rfl, h⟩

theorem not_accepts_of_failed {r₁ : Reader} {s₁ : σ} (hr₁ : r₁.failed = true)
    (hp : (r.advance c).process rules b c s = (r₁, s₁)) : ¬ Accepts rules b r s (c :: t) := by
  intro h
  exact absurd (h.cons hp).1 (by simp [hr₁])

/-- Two readers that do the same with the next byte take the same texts. -/
theorem Accepts.of_process_eq (r₁ : Reader) {s₁ : σ} (hr₁ : r₁.failed = false)
    (hp : (r.advance c).process rules b c s = (r₁.advance c).process rules b c s₁)
    (h : Accepts rules b r s (c :: t)) : Accepts rules b r₁ s₁ (c :: t) := by
  have hr := h.not_failed
  rw [Accepts, feedText, feed_of_not_failed hr, hp] at h
  rw [Accepts, feedText, feed_of_not_failed hr₁]
  exact h

/-- What `rest_of_accepts` says of the texts `u` that the rest of a line may be. -/
def RestKnown (rules : Rules) (b : Builder σ) (u : Bytes) : Prop :=
  ∀ (r : Reader) (s : σ), Accepts rules b r s (u ++ [Byte.lf]) → Rest rules r.hasContent u r.mode

section

variable {place : Place}

/-- A byte that starts a word. -/
theorem rest_gap_word (ih : RestKnown rules b t) (hp : place ≠ .afterChecksum) (hc : c ∉ gapBytes)
    (hm : r.mode = .gap place) (h : Accepts rules b r s (c :: (t ++ [Byte.lf]))) :
    AtGap rules place r.hasContent (c :: t) := by
  have hproc : (r.advance c).process rules b c s = _ := (process_advance_gap hm).trans (atGap_word hp hc)
  obtain ⟨hf, hrest⟩ := h.cons hproc
  cases ha : addressOf? rules c with
  | none =>
    simp only [startWord, ha] at hf
    exact absurd hf (by simp)
  | some letter =>
    simp only [startWord, ha] at hf hrest
    split at hf
    · exact absurd hf (by simp)
    · rename_i hseq
      rw [if_neg hseq] at hrest
      obtain ⟨sp, u, hsp, hu, rfl⟩ := ih _ _ hrest
      cases hl : Word.isSequence letter with
      | false => exact AtGap.word ha hl rfl hp hsp hu
      | true =>
        obtain rfl : place = .blockStart := by
          rw [hl, Bool.true_and, bne_iff_ne, not_not] at hseq
          exact hseq
        exact AtGap.sequence ha hl rfl hsp hu

/-- Between the parts of a block. -/
theorem rest_gap (hb : Accepting b) (ih : RestKnown rules b t) (hc : c ≠ Byte.lf) (hm : r.mode = .gap place)
    (h : Accepts rules b r s (c :: (t ++ [Byte.lf]))) : AtGap rules place r.hasContent (c :: t) := by
  by_cases hblank : IsBlank c
  · have hrest := ih _ _ (h.cons ((process_advance_gap hm).trans (atGap_blank place hblank))).2
    rw [mode_advance, hm] at hrest
    exact AtGap.blank hblank hrest
  by_cases hopen : c = Byte.openParen
  · subst hopen
    obtain ⟨u, v, hu, hv, rfl⟩ := ih _ _ (h.cons ((process_advance_gap hm).trans (atGap_openParen place))).2
    exact AtGap.comment hu hv
  by_cases hsemi : c = Byte.semicolon
  · subst hsemi
    exact AtGap.of_afterGap (afterGap_of_ending (Ending.comment t))
  by_cases hp : place = .afterChecksum
  · subst hp
    have hproc : (r.advance c).process rules b c s = _ :=
      (process_advance_gap hm).trans (atGap_afterChecksum hblank hc hopen hsemi)
    exact absurd h (not_accepts_of_failed (failed_fail _ _ _) hproc)
  by_cases hstar : c = Byte.star
  · subst hstar
    obtain ⟨ds, u, hne, hd, ⟨hg, hu⟩, rfl⟩ := ih _ _ (h.cons ((process_advance_gap hm).trans (atGap_star hp))).2
    exact AtGap.of_afterGap (afterGap_of_words (Words.closing (Closing.checksum hne hd hg hu)) hp)
  by_cases hslash : c = Byte.slash
  · subst hslash
    have hproc : (r.advance Byte.slash).process rules b Byte.slash s = _ :=
      (process_advance_gap hm).trans (atGap_slash hp)
    by_cases hstart : place = .blockStart ∧ ¬ r.hasContent
    · obtain ⟨rfl, hh⟩ := hstart
      have hf : ({ r.advance Byte.slash with hasContent := true } : Reader).failed = false := failed_of_mode hm
      rw [hasContent_advance, if_pos ⟨rfl, hh⟩, hb.announce _ hf] at hproc
      have hrest := ih _ _ (h.cons hproc).2
      simp only [mode_advance, hm] at hrest
      obtain ⟨hg, es, hes⟩ := hrest
      rw [Bool.not_eq_true] at hh
      rw [hh]
      exact AtGap.of_afterGap ⟨_, Content.deleted hg hes⟩
    · rw [hasContent_advance, if_neg hstart] at hproc
      exact absurd h (not_accepts_of_failed (failed_fail _ _ _) hproc)
  by_cases hpercent : c = Byte.percent
  · subst hpercent
    have hproc : (r.advance Byte.percent).process rules b Byte.percent s = _ :=
      (process_advance_gap hm).trans (atGap_percent hp)
    by_cases hstart : place = .blockStart ∧ ¬ r.hasContent
    · obtain ⟨rfl, hh⟩ := hstart
      rw [Bool.not_eq_true] at hh
      rw [hh]
      exact AtGap.of_afterGap ⟨_, Content.marker t⟩
    · rw [hasContent_advance, if_neg hstart] at hproc
      exact absurd h (not_accepts_of_failed (failed_fail _ _ _) hproc)
  · refine rest_gap_word ih hp ?_ hm h
    simp only [IsBlank, not_or] at hblank
    simp [gapBytes, hblank, hc, hopen, hsemi, hstar, hslash, hpercent]

/-- In the number of a word, at a byte that ends the word. -/
theorem accepts_endWord (hb : Accepting b) {w : Word} {l : Literal} (hm : r.mode = .value w l) (hc : Stopper c)
    (h : Accepts rules b r s (c :: t)) :
    ∃ d s₁, l.finish = .ok d ∧
      Accepts rules b { r with mode := .gap .betweenWords, programStarted := true } s₁ (c :: t) := by
  have hm' : (r.advance c).mode = .value w l := hm
  cases hl : l.finish with
  | error e =>
    exact absurd h (not_accepts_of_failed (failed_failWord _ _ _ _)
      (process_value_incomplete hm' hc.1 hc.2 hl))
  | ok d =>
    have hann := hb.announce (r := r.advance c) (c := c) (s := s) (w.event d) (failed_of_mode hm)
    have hf : ({ r.advance c with programStarted := true } : Reader).failed = false := failed_of_mode hm
    refine ⟨d, told b (opening (r.advance c).programStarted ++ [w.event d]) s, rfl, h.of_process_eq _ rfl ?_⟩
    rw [process_value_end hm' hc.1 hc.2 hl, hann, hf, process_advance_gap rfl]
    rfl

theorem AtGap.of_betweenWords {content content' : Bool} (h : AtGap rules .betweenWords content t) :
    AtGap rules .betweenWords content' t := by
  obtain ⟨hg, h⟩ := h
  exact AtGap.mk hg h

theorem AtNumber.cons {w : Word} {p : Bytes} (h : AtNumber rules w (p ++ [c]) t) : AtNumber rules w p (c :: t) := by
  cases h with
  | @number n u d hn hu =>
    rw [List.append_assoc] at hn
    exact AtNumber.number (n := c :: n) hn hu
  | @index ds sp n u i d hw hi hds hsp hn hu =>
    rw [List.append_assoc] at hds
    have := AtNumber.index (n := n) hw hi hds hsp hn hu
    simpa using this

/-- At the end of a word's number, where `p` is all of the number. -/
theorem atNumber_of_finish {w : Word} {l : Literal} {p : Bytes} {d : Decimal} (hp : Reached rules.arithmetic p l)
    (hl : l.finish = .ok d) (h : AtGap rules .betweenWords true t) : AtNumber rules w p t := by
  have hn : IsNumber rules.arithmetic (p ++ []) d := by
    rw [List.append_nil]
    exact ⟨hp.1, hp.2 ▸ hl⟩
  exact AtNumber.number hn h

/-- In the number of a word. -/
theorem rest_value (hb : Accepting b) (ih : RestKnown rules b t) (hc : c ≠ Byte.lf) {w : Word} {l : Literal}
    (hm : r.mode = .value w l) (h : Accepts rules b r s (c :: (t ++ [Byte.lf]))) {p : Bytes}
    (hp : Reached rules.arithmetic p l) : AtNumber rules w p (c :: t) := by
  have hm' : (r.advance c).mode = .value w l := hm
  cases hlit : isLiteralByte c with
  | true =>
    cases hl : l.step rules.arithmetic c with
    | error e => exact absurd h (not_accepts_of_failed (failed_fail _ _ _) (process_value_error hm' hlit hl))
    | ok l' => exact (ih _ _ (h.cons (process_value_literal hm' hlit hl)).2 _ (hp.append hl)).cons
  | false =>
    by_cases hq : c = Byte.equals
    · -- The bytes read so far are an index, or the byte is wrong.
      obtain ⟨hf, hrest⟩ := h.cons (process_value_equals hm' hq)
      rw [endIndex_eq] at hf hrest
      split at hf
      · rename_i hi
        rw [if_pos hi] at hrest
        simp only [Bool.and_eq_true, Option.isNone_iff_eq_none] at hi
        obtain ⟨hne, hd⟩ := hp.isPlainInteger_iff.mp hi.2
        obtain ⟨hsig, hr⟩ := hp.significand_of_isDigits hd
        obtain ⟨sp, u, hsp, hu, rfl⟩ := ih _ _ hrest
        cases hu with
        | index _ hnone => exact absurd hnone (by simp)
        | number hn hu =>
          have hidx : IsIndex rules.arithmetic (p ++ []) (Text.ofDigits p) := by
            rw [List.append_nil]
            exact ⟨hne, hd, rfl, hr⟩
          exact hq ▸ AtNumber.index hi.1.1 hi.1.2 hidx hsp hn hu
      · exact absurd hf (by simp)
    · obtain ⟨d, s₁, hl, h₁⟩ := accepts_endWord hb hm ⟨hlit, hq⟩ h
      exact atNumber_of_finish hp hl (rest_gap hb ih hc rfl h₁).of_betweenWords

/-- After the address of a word. -/
theorem rest_address (hb : Accepting b) (ih : RestKnown rules b t) (hc : c ≠ Byte.lf) {w : Word}
    (hm : r.mode = .address w) (h : Accepts rules b r s (c :: (t ++ [Byte.lf]))) :
    Rest rules r.hasContent (c :: t) (.address w) := by
  have hm' : (r.advance c).mode = .address w := hm
  by_cases hblank : c = Byte.space ∨ c = Byte.tab
  · have hrest := ih _ _ (h.cons (process_address_blank hm' hblank)).2
    rw [hm'] at hrest
    obtain ⟨sp, u, hsp, hu, rfl⟩ := hrest
    exact ⟨c :: sp, u, hsp.cons hblank, hu, rfl⟩
  cases hlit : isLiteralByte c with
  | true =>
    have hproc : (r.advance c).process rules b c s =
        (({ r with mode := .value w {} } : Reader).advance c).process rules b c s :=
      process_address_literal hm' hlit
    have h₁ := h.of_process_eq _ rfl hproc
    exact ⟨[], c :: t, spaces_nil, rest_value hb ih hc rfl h₁ (reached_nil _), rfl⟩
  | false =>
    exact absurd h (not_accepts_of_failed (failed_failWord _ _ _ _) (process_address_other hm' hblank hlit))

theorem rest_comment (ih : RestKnown rules b t) (hc : c ≠ Byte.lf) (hm : r.mode = .comment place)
    (h : Accepts rules b r s (c :: (t ++ [Byte.lf]))) : Rest rules r.hasContent (c :: t) (.comment place) := by
  have hm' : (r.advance c).mode = .comment place := hm
  by_cases hclose : c = Byte.closeParen
  · have hrest := ih _ _ (h.cons (process_comment_close hm' hclose)).2
    exact ⟨[], t, List.not_mem_nil, hrest, by rw [hclose]; rfl⟩
  · have hrest := ih _ _ (h.cons (process_comment_other hm' hclose hc)).2
    rw [hm'] at hrest
    obtain ⟨u, v, hu, hv, rfl⟩ := hrest
    refine ⟨c :: u, v, ?_, hv, rfl⟩
    rw [List.mem_cons, not_or]
    exact ⟨Ne.symm hclose, hu⟩

theorem isDigits_cons {ds : Bytes} (hc : Byte.isDigit c) (hd : IsDigits ds) : IsDigits (c :: ds) :=
  isDigits_append.mpr ⟨isDigits_singleton.mpr hc, hd⟩

theorem rest_checksumStart (ih : RestKnown rules b t) (hm : r.mode = .checksumStart)
    (h : Accepts rules b r s (c :: (t ++ [Byte.lf]))) : Rest rules r.hasContent (c :: t) .checksumStart := by
  have hm' : (r.advance c).mode = .checksumStart := hm
  cases hd : Byte.isDigit c with
  | true =>
    obtain ⟨ds, u, hds, hu, rfl⟩ := ih _ _ (h.cons (process_checksumStart_digit hm' hd)).2
    exact ⟨c :: ds, u, List.cons_ne_nil _ _, isDigits_cons hd hds, hu, rfl⟩
  | false =>
    exact absurd h (not_accepts_of_failed (failed_fail _ _ _) (process_checksumStart_other hm' hd))

theorem rest_checksum (hb : Accepting b) (ih : RestKnown rules b t) (hc : c ≠ Byte.lf) (hm : r.mode = .checksum)
    (h : Accepts rules b r s (c :: (t ++ [Byte.lf]))) : Rest rules r.hasContent (c :: t) .checksum := by
  have hm' : (r.advance c).mode = .checksum := hm
  cases hd : Byte.isDigit c with
  | true =>
    have hrest := ih _ _ (h.cons (process_checksum_digit hm' hd)).2
    simp only [hm'] at hrest
    obtain ⟨ds, u, hds, hu, rfl⟩ := hrest
    exact ⟨c :: ds, u, isDigits_cons hd hds, hu, rfl⟩
  | false =>
    have hproc : (r.advance c).process rules b c s =
        (({ r with mode := .gap .afterChecksum } : Reader).advance c).process rules b c s := by
      rw [process_checksum_end hm' hd, process_advance_gap rfl]
      rfl
    have hgap : AtGap rules .afterChecksum _ (c :: t) := rest_gap hb ih hc rfl (h.of_process_eq _ rfl hproc)
    exact ⟨[], c :: t, isDigits_nil, hgap, rfl⟩

end

/-! ### Whole lines -/

/-- At the end of a line. -/
theorem restKnown_nil (hb : Accepting b) : RestKnown rules b [] := by
  intro r s h
  have hr := h.not_failed
  cases hm : r.mode with
  | gap place => exact atGap_nil rules place r.hasContent
  | address w =>
    have hproc : (r.advance Byte.lf).process rules b Byte.lf s = _ := process_address_lf hm
    exact absurd h (not_accepts_of_failed (failed_failWord _ _ _ _) hproc)
  | value w l =>
    intro p hp
    obtain ⟨d, s₁, hl, -⟩ := accepts_endWord hb hm stopper_lf h
    exact atNumber_of_finish hp hl (atGap_nil rules .betweenWords true)
  | comment place =>
    have hproc : (r.advance Byte.lf).process rules b Byte.lf s = _ := process_comment_lf hm
    exact absurd h (not_accepts_of_failed (failed_fail _ _ _) hproc)
  | checksumStart =>
    have hproc : (r.advance Byte.lf).process rules b Byte.lf s = _ := process_checksumStart_lf hm
    exact absurd h (not_accepts_of_failed (failed_fail _ _ _) hproc)
  | checksum => exact ⟨[], [], isDigits_nil, atGap_nil rules .afterChecksum r.hasContent, rfl⟩
  | lineComment | programMarker | skipLine => exact trivial
  | failed f => exact absurd hr (by simp [failed_of_mode hm, Mode.fault?])

/-- What the reader takes of a line, from any mode on, is what the mode stands for. -/
theorem rest_of_accepts (hb : Accepting b) (t : Bytes) (hl : Byte.lf ∉ t) : RestKnown rules b t := by
  induction t with
  | nil => exact restKnown_nil hb
  | cons c t ih =>
    simp only [List.mem_cons, not_or] at hl
    have hc := Ne.symm hl.1
    have ih := ih hl.2
    intro r s h
    have hr := h.not_failed
    cases hm : r.mode with
    | gap place => exact rest_gap hb ih hc hm h
    | address w => exact rest_address hb ih hc hm h
    | value w l => exact fun p hp => rest_value hb ih hc hm h hp
    | comment place => exact rest_comment ih hc hm h
    | checksumStart => exact rest_checksumStart ih hm h
    | checksum => exact rest_checksum hb ih hc hm h
    | lineComment | programMarker | skipLine => exact trivial
    | failed f => exact absurd hr (by simp [failed_of_mode hm, Mode.fault?])

/-- The reader is at the start of a block, and nothing of the block has been read. -/
def Reader.AtBlockStart (r : Reader) : Prop := r.mode = .blockStart ∧ r.hasContent = false

/-- **The reader accepts exactly the lines of the grammar, and reports exactly their elements.**
Where checksums are not verified and the builder accepts everything, a line and its line end are
taken, from the start of a block on, if and only if the grammar derives the line; and then the
builder has been told of the elements of the line, and of the start of a program and the end of
the block as `callbacks` says. -/
theorem accepts_iff_line (rules : Rules) (hv : rules.verifyChecksum = false) (b : Builder σ) (hb : Accepting b)
    (r : Reader) (hr : r.AtBlockStart) (line : Bytes) (hl : Byte.lf ∉ line) (s : σ) :
    ((feedText rules b (line ++ [Byte.lf]) r s).1 = true ↔ ∃ es, Line rules line es) ∧
      ∀ es, Line rules line es →
        (feedText rules b (line ++ [Byte.lf]) r s).2.2 = told b (callbacks r.programStarted es) s := by
  have hruns : ∀ es, Line rules line es → ∃ r', feedText rules b (line ++ [Byte.lf]) r s =
      (true, r', told b (callbacks r.programStarted es) s) :=
    fun es h => runs_line hb hv h r.programStarted s hl r hr.1 hr.2 rfl
  refine ⟨⟨fun h => ?_, ?_⟩, fun es h => ?_⟩
  · have hrest := rest_of_accepts hb line hl r s h
    rw [hr.1, hr.2] at hrest
    obtain ⟨hg, es, hes⟩ := hrest
    exact ⟨es, Line.mk hg hes⟩
  · rintro ⟨es, h⟩
    obtain ⟨r', hr'⟩ := hruns es h
    rw [hr']
  · obtain ⟨r', hr'⟩ := hruns es h
    rw [hr']

/-- A builder that accepts everything and keeps a list of it. -/
def recorder : Builder (List Event) := fun e es => (.accept, es ++ [e])

theorem told_recorder (es : List Event) : ∀ s, told recorder es s = s ++ es := by
  induction es with
  | nil => simp
  | cons e es ih =>
    intro s
    have h : told recorder (e :: es) s = told recorder es (s ++ [e]) := rfl
    rw [h, ih, List.append_assoc, List.singleton_append]

/-- A line with all kinds of elements, a comment and a checksum. -/
theorem accepts_iff_line_all_elements :
    ∃ es, Line { verifyChecksum := false } (ascii "/ n10 (start) g1X-1.50\tR2=.5*7;end") es ∧
      callbacks false es =
        [.programStart, .blockDelete, .sequenceNumber false ⟨10, 0⟩, .gCode ⟨1, 0⟩, .data 0x58 none ⟨-15, 1⟩,
          .data 0x52 (some 2) ⟨5, 1⟩, .endBlock] := by
  have h := accepts_iff_line { verifyChecksum := false } rfl recorder (fun _ _ => rfl) {} ⟨rfl, rfl⟩
    (ascii "/ n10 (start) g1X-1.50\tR2=.5*7;end") (by decide) []
  obtain ⟨es, hes⟩ := h.1.mp (by decide)
  refine ⟨es, hes, ?_⟩
  have htold := h.2 es hes
  rw [told_recorder] at htold
  exact htold.symm.trans (by decide)

end PartProgram.Block
