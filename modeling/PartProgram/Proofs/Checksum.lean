import PartProgram.Proofs.Calls
import PartProgram.Proofs.LineGrammar
import PartProgram.Proofs.Transition

/-!
# Checksums are verified exactly

The checksum of a block is the exclusive or of the bytes before its star, carriage returns left out
(`checksumOf`). The reader computes it as it goes, and does so in every line, also in one that is
passed over; what it has computed matters only where a checksum can still begin. So the invariant is a
disjunction: either no star can begin a checksum before the line ends (`Mode.Closed`), or the
computed checksum is that of the line so far (`Tallied`).

From the star on nothing is added to it, and the declared checksum grows with its digits up to a greatest
number, which is more than a byte holds and therefore equal to no checksum. Blanks and comments
after the digits change neither of the two, so the line end compares what the text says.
-/

namespace PartProgram.Block

open Number Reader

variable {σ : Type} {rules : Rules} {b : Builder σ} {c : UInt8} {r r' r₀ : Reader} {s s' s₀ : σ} {p d g e : Bytes}

/-! ### The checksum of a text -/

/-- The exclusive or of the bytes of a text, carriage returns left out. -/
def checksumOf (t : Bytes) : UInt8 := (t.filter (· != Byte.cr)).foldl (· ^^^ ·) 0

theorem checksumOf_append_singleton (t : Bytes) (c : UInt8) :
    checksumOf (t ++ [c]) = if c = Byte.cr then checksumOf t else checksumOf t ^^^ c := by
  rw [checksumOf, List.filter_append, List.foldl_append]
  split_ifs with hc
  · subst hc
    rfl
  · rw [List.filter_cons_of_pos (by simpa using hc)]
    rfl

/-! ### Up to the star -/

/-- In this mode no checksum can begin before the line ends. -/
def Mode.Closed : Mode → Prop
  | gap place | comment place => place = .afterChecksum
  | address _ | value .. => False
  | _ => True

theorem Mode.AtPlace.not_closed {m : Mode} {place : Place} (h : m.AtPlace c place) (hp : place ≠ .afterChecksum) :
    ¬ m.Closed := by
  cases h with
  | gap => exact hp
  | word => exact id
  | checksum => exact absurd rfl hp

theorem Mode.not_closed_of_word? {m : Mode} {x : Word × Literal} (h : m.word? = some x) : ¬ m.Closed := by
  cases m with
  | address w => exact id
  | value w l => exact id
  | _ => cases h

/-- Within a line a byte either leaves the reader where no checksum can begin, or it does not touch the
checksum. -/
theorem Change.closed_or_sameSum (h : Change rules c r r') (hc : c ≠ Byte.lf) :
    r'.mode.Closed ∨ ¬ r.mode.Closed ∧ SameSum r r' := by
  cases h with
  | passed _ mode sum =>
    rw [mode]
    by_cases hr : r.mode.Closed
    · exact Or.inl hr
    · exact Or.inr ⟨hr, sum⟩
  | @gap place h _ mode sum | @comment place h _ mode sum =>
    rw [mode]
    by_cases hp : place = .afterChecksum
    · exact Or.inl hp
    · exact Or.inr ⟨h.not_closed hp, sum⟩
  | @closeParen place h _ mode sum =>
    rw [mode, h]
    by_cases hp : place = .afterChecksum
    · exact Or.inl hp
    · exact Or.inr ⟨hp, sum⟩
  | word h hp _ _ sum => exact Or.inr ⟨h.not_closed hp, sum⟩
  | number h _ _ sum => exact Or.inr ⟨Mode.not_closed_of_word? h, sum⟩
  | index h _ _ sum => exact Or.inr ⟨by rw [h]; exact id, sum⟩
  | lineComment _ _ mode _ | star _ _ _ mode _ _ | marker _ _ mode _ | digit _ _ mode _ _ | unfit _ _ mode
  | unfinished _ _ _ mode | fault _ mode =>
    rw [mode]
    exact Or.inl trivial
  | lineEnd h _ _ _ => exact absurd h hc

/-- The reader has come through the part `p` of a line: no checksum can begin in the rest, or none has
begun and the computed one is that of `p`. -/
def Tallied (p : Bytes) (r : Reader) : Prop := r.mode.Closed ∨ r.declared = none ∧ r.parity = checksumOf p

theorem tallied_nil (h : r.AtLine) : Tallied [] r := by
  rw [h]
  exact Or.inr ⟨rfl, rfl⟩

theorem parity_advance (hd : r.declared = none) (hq : r.parity = checksumOf p) (hc : c ≠ Byte.lf) :
    (r.advance c).parity = checksumOf (p ++ [c]) := by
  rw [checksumOf_append_singleton, ← hq]
  split_ifs with hcr <;> simp [advance, hd, hc, hcr]

theorem Tallied.feed (h : Tallied p r) (hr : r.failed = false) (hc : c ≠ Byte.lf) :
    Tallied (p ++ [c]) (r.feed rules b c s).1 := by
  obtain hclosed | ⟨hopen, hsum⟩ := (change_feed rules b c s hr).closed_or_sameSum hc
  · exact Or.inl hclosed
  · obtain ⟨hd, hq⟩ := h.resolve_left hopen
    exact Or.inr ⟨hsum.declared.trans hd, hsum.parity.trans (parity_advance hd hq hc)⟩

theorem Tallied.feedText : ∀ (t : Bytes) {p : Bytes} {r : Reader} {s : σ}, Tallied p r → Byte.lf ∉ t →
    feedText rules b t r s = (true, r', s') → Tallied (p ++ t) r' := by
  intro t
  induction t with
  | nil =>
    intro p r s h _ ht
    cases ht
    rwa [List.append_nil]
  | cons c t ih =>
    intro p r s h hl ht
    rw [List.mem_cons, not_or] at hl
    obtain ⟨hf, ht⟩ := feedText_cons_eq_true ht
    rw [List.append_cons]
    exact ih (h.feed (not_failed_of_feed hf) (Ne.symm hl.1)) hl.2 ht

/-! ### From the star on -/

/-- A checksum has begun; so far `n` is declared, and `q` is the computed one. -/
structure Declares (n : Nat) (q : UInt8) (r : Reader) : Prop where
  declared : r.declared = some n
  parity : r.parity = q

variable {n : Nat} {q : UInt8}

/-- After the star nothing is added to the checksum. -/
theorem Declares.advance (h : Declares n q r) (c : UInt8) : Declares n q (r.advance c) where
  declared := h.declared
  parity := by simp [Reader.advance, h.declared, h.parity]

theorem Declares.withMode (h : Declares n q r) (m : Mode) : Declares n q { r with mode := m } :=
  ⟨h.declared, h.parity⟩

/-- The star itself has been added, and is taken out again. -/
theorem Tallied.star (h : Tallied p r) (hr : r.failed = false)
    (hm : (r.feed rules b Byte.star s).1.mode = .checksumStart) :
    Declares 0 (checksumOf p) (r.feed rules b Byte.star s).1 := by
  cases change_feed rules b Byte.star s hr with
  | star hplace hp _ _ parity declared =>
    refine ⟨declared, ?_⟩
    -- A checksum can begin here, so the computed one is that of the line so far.
    obtain ⟨hd, hq⟩ := h.resolve_left (hplace.not_closed hp)
    rw [parity, parity_advance hd hq (by decide), checksumOf_append_singleton, if_neg (by decide), UInt8.xor_assoc,
      UInt8.xor_self, UInt8.xor_zero]
  | passed hpass mode _ =>
    rw [mode] at hm
    rw [hm] at hpass
    cases hpass
  | gap _ _ mode _ | comment _ _ mode _ | lineComment _ _ mode _ | marker _ _ mode _ | word _ _ _ mode _
  | number _ _ mode _ | index _ _ mode _ | closeParen _ _ mode _ | digit _ _ mode _ _ | lineEnd _ mode _ _
  | unfit _ _ mode | unfinished _ _ _ mode | fault _ mode =>
    rw [mode] at hm
    cases hm

/-! ### The declared checksum -/

theorem foldl_appendDeclared (d : Bytes) : d.foldl appendDeclared 0 = min (Text.ofDigits d) maxDeclared := by
  induction d using List.reverseRecOn with
  | nil => rfl
  | append_singleton d c ih =>
    rw [List.foldl_append, ih, ofDigits_append_digit, List.foldl_cons, List.foldl_nil, appendDeclared, maxDeclared]
    omega

/-- The greatest declared checksum that is told apart is equal to no checksum. -/
theorem foldl_appendDeclared_eq_iff (d : Bytes) (q : UInt8) :
    d.foldl appendDeclared 0 = q.toNat ↔ Text.ofDigits d = q.toNat := by
  have hq : q.toNat < 256 := q.toNat_lt
  rw [foldl_appendDeclared, maxDeclared]
  omega

theorem feed_checksum_digit (hm : r.mode = .checksumStart ∨ r.mode = .checksum) (hc : Byte.isDigit c) :
    r.feed rules b c s =
      ({ r.advance c with mode := .checksum, declared := r.declared.map (appendDeclared · c) }, s) := by
  obtain hm | hm := hm
  · rw [feed_of_not_failed (failed_of_mode hm)]
    exact process_checksumStart_digit hm hc
  · rw [feed_of_not_failed (failed_of_mode hm), process_checksum_digit (r := r.advance c) hm hc, ← hm]
    rfl

theorem Declares.digit (h : Declares n q r) (c : UInt8) :
    Declares (appendDeclared n c) q
      { r.advance c with mode := .checksum, declared := r.declared.map (appendDeclared · c) } where
  declared := by rw [h.declared]; rfl
  parity := (h.advance c).parity

/-- Digits are added to the declared checksum. -/
theorem feedText_digits : ∀ (d : Bytes) {n : Nat} {r : Reader}, IsDigits d → r.mode = .checksum → Declares n q r →
    ∃ r', feedText rules b d r s = (true, r', s) ∧ r'.mode = .checksum ∧ Declares (d.foldl appendDeclared n) q r' := by
  intro d
  induction d with
  | nil => exact fun _ hm h => ⟨_, rfl, hm, h⟩
  | cons c d ih =>
    intro n r hd hm h
    rw [feedText_cons_of_feed (feed_checksum_digit (Or.inr hm) (hd c List.mem_cons_self)) rfl]
    exact ih (fun x hx => hd x (List.mem_cons_of_mem c hx)) rfl (h.digit c)

theorem feedText_declared (hne : d ≠ []) (hd : IsDigits d) (hm : r.mode = .checksumStart) (h : Declares n q r) :
    ∃ r', feedText rules b d r s = (true, r', s) ∧ r'.mode = .checksum ∧ Declares (d.foldl appendDeclared n) q r' := by
  obtain ⟨c, d, rfl⟩ := List.exists_cons_of_ne_nil hne
  rw [feedText_cons_of_feed (feed_checksum_digit (Or.inl hm) (hd c List.mem_cons_self)) rfl]
  exact feedText_digits d (fun x hx => hd x (List.mem_cons_of_mem c hx)) rfl (h.digit c)

/-! ### After the digits -/

/-- The digits of the checksum have been read, and no comment is open. -/
def Mode.AfterDigits (m : Mode) : Prop := m = .checksum ∨ m = .gap .afterChecksum

theorem feed_afterDigits (hm : r.mode.AfterDigits) (hc : Byte.isDigit c = false) :
    r.feed rules b c s =
      ({ r.advance c with mode := .gap .afterChecksum } : Reader).atGap rules b .afterChecksum c s := by
  obtain hm | hm := hm
  · rw [feed_of_not_failed (failed_of_mode hm)]
    exact process_checksum_end hm hc
  · rw [feed_of_not_failed (failed_of_mode hm), process_advance_gap hm, ← hm]
    rfl

/-- The rest of a comment is passed over. -/
theorem feedText_commentRest {place : Place} (t : Bytes) : ∀ (u : Bytes) {r : Reader}, Byte.closeParen ∉ u →
    Byte.lf ∉ u → r.mode = .comment place → Declares n q r →
    ∃ r', feedText rules b (u ++ Byte.closeParen :: t) r s = feedText rules b t r' s ∧ r'.mode = .gap place ∧
      Declares n q r' := by
  intro u
  induction u with
  | nil =>
    intro r _ _ hm h
    have hfeed : r.feed rules b Byte.closeParen s = ({ r.advance Byte.closeParen with mode := .gap place }, s) := by
      rw [feed_of_not_failed (failed_of_mode hm)]
      exact process_comment_close hm rfl
    exact ⟨_, feedText_cons_of_feed hfeed rfl, rfl, (h.advance _).withMode _⟩
  | cons c u ih =>
    intro r hu hl hm h
    simp only [List.mem_cons, not_or] at hu hl
    have hfeed : r.feed rules b c s = (r.advance c, s) := by
      rw [feed_of_not_failed (failed_of_mode hm)]
      exact process_comment_other hm (Ne.symm hu.1) (Ne.symm hl.1)
    rw [List.cons_append, feedText_cons_of_feed hfeed (failed_of_mode hm)]
    exact ih hu.2 hl.2 hm (h.advance c)

/-- Blanks and comments after the digits are passed over. -/
theorem feedText_gap (hg : Gap g) : ∀ {r : Reader}, Byte.lf ∉ g → r.mode.AfterDigits → Declares n q r →
    ∃ r', feedText rules b g r s = (true, r', s) ∧ r'.mode.AfterDigits ∧ Declares n q r' := by
  induction hg with
  | nil => exact fun _ hm h => ⟨_, rfl, hm, h⟩
  | @blank c g hc _ ih =>
    intro r hl hm h
    rw [List.mem_cons, not_or] at hl
    have hdigit : Byte.isDigit c = false := by obtain rfl | rfl | rfl := hc <;> decide
    rw [feedText_cons_of_feed ((feed_afterDigits hm hdigit).trans (atGap_blank _ hc)) rfl]
    exact ih hl.2 (Or.inr rfl) ((h.advance c).withMode _)
  | @comment u g hu _ ih =>
    intro r hl hm h
    simp only [List.mem_cons, List.mem_append, not_or] at hl
    rw [feedText_cons_of_feed ((feed_afterDigits hm (by decide)).trans (atGap_openParen _)) rfl]
    obtain ⟨r₁, hr₁, hm₁, h₁⟩ := feedText_commentRest g u hu hl.2.1 rfl ((h.advance _).withMode (.comment _))
    rw [hr₁]
    exact ih hl.2.2.2 (Or.inr hm₁) h₁

theorem feedText_lineComment : ∀ (u : Bytes) {r : Reader}, Byte.lf ∉ u → r.mode = .lineComment → Declares n q r →
    ∃ r', feedText rules b u r s = (true, r', s) ∧ r'.mode = .lineComment ∧ Declares n q r' := by
  intro u
  induction u with
  | nil => exact fun _ hm h => ⟨_, rfl, hm, h⟩
  | cons c u ih =>
    intro r hl hm h
    rw [List.mem_cons, not_or] at hl
    have hfeed : r.feed rules b c s = (r.advance c, s) := by
      rw [feed_of_not_failed (failed_of_mode hm)]
      exact process_lineComment_other hm (Ne.symm hl.1)
    rw [feedText_cons_of_feed hfeed (failed_of_mode hm)]
    exact ih hl.2 hm (h.advance c)

theorem feedText_ending (he : Ending e) (hl : Byte.lf ∉ e) (hm : r.mode.AfterDigits) (h : Declares n q r) :
    ∃ r', feedText rules b e r s = (true, r', s) ∧ (r'.mode.AfterDigits ∨ r'.mode = .lineComment) ∧
      Declares n q r' := by
  cases he with
  | nil => exact ⟨r, rfl, Or.inl hm, h⟩
  | comment u =>
    rw [List.mem_cons, not_or] at hl
    rw [feedText_cons_of_feed ((feed_afterDigits hm (by decide)).trans (atGap_semicolon _)) rfl]
    obtain ⟨r₁, hr₁, hm₁, h₁⟩ := feedText_lineComment u hl.2 rfl ((h.advance _).withMode .lineComment)
    exact ⟨r₁, hr₁, Or.inr hm₁, h₁⟩

/-! ### The line end -/

/-- The line end ends the block of a reader with the same checksums, whatever the rules. -/
theorem feed_lf_eq_endBlock (hm : r.mode.AfterDigits ∨ r.mode = .lineComment) (h : Declares n q r) :
    ∃ r₁ : Reader, r₁.failed = false ∧ Declares n q r₁ ∧ ∀ (τ : Type) (rules : Rules) (b : Builder τ) (s : τ),
      r.feed rules b Byte.lf s = r₁.endBlock rules b Byte.lf s := by
  obtain hm | hm := hm
  · refine ⟨{ r.advance Byte.lf with mode := .gap .afterChecksum }, rfl, (h.advance _).withMode _, ?_⟩
    intro τ rules b s
    rw [feed_afterDigits hm (by decide), atGap_lf]
  · refine ⟨r.advance Byte.lf, failed_of_mode hm, h.advance _, ?_⟩
    intro τ rules b s
    rw [feed_of_not_failed (failed_of_mode hm)]
    exact process_lineComment_lf hm

theorem Declares.checksumWrong (h : Declares n q r) (rules : Rules) :
    r.checksumWrong rules = (rules.verifyChecksum && n != q.toNat) := by
  rw [Reader.checksumWrong, h.declared, h.parity]

/-- A wrong checksum is a fault, of which the builder is not told. -/
theorem Declares.endBlock_of_ne (h : Declares n q r) (hv : rules.verifyChecksum = true) (hn : n ≠ q.toNat) :
    r.endBlock rules b c s = (r.fail .checksum c, s) := by
  rw [endBlock, if_pos (by simp [h.checksumWrong, hv, hn])]

/-- With the right checksum the block ends as it does if checksums are not verified. -/
theorem Declares.endBlock_of_eq (h : Declares n q r) (hn : n = q.toNat) :
    r.endBlock rules b c s = r.endBlock { rules with verifyChecksum := false } b c s := by
  have hw : ∀ rules' : Rules, r.checksumWrong rules' = false := by
    intro rules'
    simp [h.checksumWrong, hn]
  rw [endBlock, endBlock, hw, hw]

/-- If checksums are not verified, no fault at the end of a block is about one. -/
theorem cause_endBlock_unverified {f : Fault} (hr : r.failed = false) (hv : rules.verifyChecksum = false)
    (hf : (r.endBlock rules b c s).1.fault? = some f) : f.cause ≠ .checksum := by
  have hw : r.checksumWrong rules = false := by
    rw [Reader.checksumWrong]
    cases r.declared <;> simp [hv]
  rw [endBlock, if_neg (by simp [hw])] at hf
  split_ifs at hf with hc
  · simp only at hf
    obtain ⟨k, hk⟩ | heq := announce_refused_or_eq b .endBlock c s hr
    · have hf' : (r.announce b .endBlock c s).1.failed = true := failed_of_mode hk
      rw [if_pos hf', fault?, hk] at hf
      obtain rfl := Option.some.inj hf
      simp
    · have hf' : (r.announce b .endBlock c s).1.failed = false := by
        rw [heq]
        exact hr
      rw [if_neg (by simp [hf'])] at hf
      cases hf
  · cases hf

/-! ### Lines with a checksum -/

/-- Up to the line end nobody can tell whether checksums are verified. -/
theorem feedText_unverified : ∀ (t : Bytes) (r : Reader) (s : σ), Byte.lf ∉ t →
    feedText { rules with verifyChecksum := false } b t r s = feedText rules b t r s := by
  intro t
  induction t with
  | nil => exact fun _ _ _ => rfl
  | cons c t ih =>
    intro r s hl
    rw [List.mem_cons, not_or] at hl
    have hfeed : r.feed { rules with verifyChecksum := false } b c s = r.feed rules b c s := by
      refine feed_congr_rules (fun r₁ place s₁ => ?_) (fun _ _ _ => rfl)
      simp only [atGap, if_neg (Ne.symm hl.1)]
      rfl
    rw [feedText, feedText, hfeed]
    simp only [ih _ _ hl.2]

/-- A line with a checksum is read up to its end, with what the text declares and what it comes to. -/
theorem feedText_checksum (hr : Reachable rules r) (hl : r.atLineStart = true) (hp : Byte.lf ∉ p)
    (hstar : feedText rules b (p ++ [Byte.star]) r s = (true, r₀, s₀)) (hm : r₀.mode = .checksumStart)
    (hne : d ≠ []) (hd : IsDigits d) (hg : Gap g) (he : Ending e) (hge : Byte.lf ∉ g ++ e) :
    ∃ r₁, feedText rules b (p ++ Byte.star :: (d ++ (g ++ e))) r s = (true, r₁, s₀) ∧
      (r₁.mode.AfterDigits ∨ r₁.mode = .lineComment) ∧ Declares (d.foldl appendDeclared 0) (checksumOf p) r₁ := by
  rw [List.mem_append, not_or] at hge
  have hstart : r.failed = false := by
    by_contra hfailed
    rw [Bool.not_eq_false] at hfailed
    simp [feedText_of_failed hfailed] at hstar
  obtain ⟨r₁, s₁, hread, hfeed⟩ := feedText_append_eq_true hstar
  obtain ⟨hf, hfeed⟩ := feedText_cons_eq_true hfeed
  have hr₁ : r₁.failed = false := not_failed_of_feed hf
  have htallied : Tallied p r₁ := (tallied_nil (hr.atLine hstart hl)).feedText p hp hread
  cases hfeed
  -- The rest of the line part by part: the digits, the gap and the ending.
  obtain ⟨r₂, hread₂, hm₂, h₂⟩ := feedText_declared hne hd hm (htallied.star hr₁ hm)
  obtain ⟨r₃, hread₃, hm₃, h₃⟩ := feedText_gap hg hge.1 (Or.inl hm₂) h₂
  obtain ⟨r₄, hread₄, hm₄, h₄⟩ := feedText_ending he hge.2 hm₃ h₃
  refine ⟨r₄, ?_, hm₄, h₄⟩
  rw [List.append_cons, feedText_append_of_true hstar, feedText_append_of_true hread₂, feedText_append_of_true hread₃]
  exact hread₄

/-- **Checksums are verified exactly.** Let a reader be at the start of a line, whatever the lines
before were and whatever became of them, and let it read a line with a checksum: a part `p` after which a
star begins the checksum, digits `d`, blanks and comments. Then the line end is a fault of the kind
`checksum`, of which the builder is told nothing, if and only if the number that `d` denotes is not the
exclusive or of the bytes of `p` other than carriage returns; and if it is, all is as if checksums
were not verified. -/
theorem checksum_exact (rules : Rules) (hv : rules.verifyChecksum = true) (b : Builder σ) (hr : Reachable rules r)
    (hl : r.atLineStart = true) (hp : Byte.lf ∉ p)
    (hstar : feedText rules b (p ++ [Byte.star]) r s = (true, r₀, s₀)) (hm : r₀.mode = .checksumStart)
    (hne : d ≠ []) (hd : IsDigits d) (hg : Gap g) (he : Ending e) (hge : Byte.lf ∉ g ++ e) :
    ∃ r₁, feedText rules b (p ++ Byte.star :: (d ++ (g ++ e))) r s = (true, r₁, s₀) ∧
      ((∃ f, (observeByte rules b Byte.lf r₁ s₀).fault = some f ∧ f.cause = .checksum) ↔
        Text.ofDigits d ≠ (checksumOf p).toNat) ∧
      (Text.ofDigits d ≠ (checksumOf p).toNat → (observeByte rules b Byte.lf r₁ s₀).told = []) ∧
      (Text.ofDigits d = (checksumOf p).toNat →
        feedText rules b (p ++ Byte.star :: (d ++ (g ++ e)) ++ [Byte.lf]) r s =
          feedText { rules with verifyChecksum := false } b (p ++ Byte.star :: (d ++ (g ++ e)) ++ [Byte.lf]) r s) := by
  obtain ⟨r₁, hread, hm₁, h₁⟩ := feedText_checksum hr hl hp hstar hm hne hd hg he hge
  obtain ⟨r₂, hr₂, h₂, hend⟩ := feed_lf_eq_endBlock hm₁ h₁
  have hiff := foldl_appendDeclared_eq_iff d (checksumOf p)
  have hwrong (hn : Text.ofDigits d ≠ (checksumOf p).toNat) :
      observeByte rules b Byte.lf r₁ s₀ = .of (r₂.fail .checksum Byte.lf, s₀, []) := by
    rw [observeByte, hend, h₂.endBlock_of_ne hv (fun h => hn (hiff.mp h))]
  refine ⟨r₁, hread, ⟨?_, ?_⟩, ?_, ?_⟩
  · rintro ⟨f, hf, hcause⟩ hn
    rw [fault_observeByte, hend, h₂.endBlock_of_eq (hiff.mpr hn)] at hf
    exact cause_endBlock_unverified hr₂ rfl hf hcause
  · intro hn
    rw [hwrong hn]
    exact ⟨_, rfl, rfl⟩
  · intro hn
    rw [hwrong hn]
    rfl
  · intro hn
    have hlf : Byte.lf ∉ p ++ Byte.star :: (d ++ (g ++ e)) := by
      have hdigits : Byte.lf ∉ d := fun h => absurd (hd _ h) (by decide)
      simp only [List.mem_append, List.mem_cons, not_or] at hge ⊢
      exact ⟨hp, by decide, hdigits, hge⟩
    have hread' := (feedText_unverified (p ++ Byte.star :: (d ++ (g ++ e))) r s hlf).trans hread
    rw [feedText_append_of_true hread, feedText_append_of_true hread', feedText_singleton, feedText_singleton, hend,
      hend, h₂.endBlock_of_eq (hiff.mpr hn)]

/-- A reader at the start of a line, after a line that was given up and one that ended a program. -/
def resumed : Reader := (run {} (refusing 0x58) [.text (ascii "G1 ?"), .skipBlock, .text (ascii "*7\n%*(\n")] ()).1

/-- The checksum of the line is 41; a declared one that has the same last eight bits is wrong. -/
theorem checksum_exact_resumed :
    checksumOf (ascii "N1 G1\r") = 41 ∧
      ∃ r₁, feedText {} (refusing 0x58) (ascii "N1 G1\r*000297 (*)\r;*x") resumed () = (true, r₁, ()) ∧
        ∃ f, (observeByte {} (refusing 0x58) Byte.lf r₁ ()).fault = some f ∧ f.cause = .checksum := by
  have hd : IsDigits (ascii "000297") := List.all_eq_true.mp (by decide)
  have hg : Gap (ascii " (*)\r") :=
    Gap.blank (Or.inl rfl) (Gap.comment (u := [Byte.star]) (by decide) (Gap.blank (Or.inr (Or.inr rfl)) Gap.nil))
  have he : Ending (ascii ";*x") := Ending.comment _
  obtain ⟨r₁, hread, hiff, -⟩ := checksum_exact {} rfl (refusing 0x58) (r := resumed) (p := ascii "N1 G1\r") (s := ())
    (reachable_run {} _ _ ()) (by decide) (by decide) rfl (by decide) (by decide) hd hg he (by decide)
  exact ⟨by decide, r₁, hread, hiff.mpr (by decide)⟩

end PartProgram.Block
