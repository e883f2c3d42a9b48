import PartProgram.Proofs.LiteralGrammar
import PartProgram.Proofs.LiteralSteps

/-!
# Reading decimal literals is exact

The literal that is being read is a function of the parts read so far (`Written.state`): the
significand is that of their value, the places too, and the reach counts the zeros at the end of
the fraction. One more byte either extends the parts, and then it is taken exactly if the new
value fits (`Extends.takes`), or it is not allowed (`offer_of_not_extends`). A whole text is then
read up to the first of its beginnings that is no beginning of a literal, or whose value does not
fit (`feed_outcome`, `FaultAt`).
-/

namespace PartProgram.Number

namespace Written

variable {a : Arithmetic} {w w' : Written} {c : UInt8}

/-! ### The literal of the parts -/

/-- How far a literal with these parts has got. -/
def phase (w : Written) : Literal.Phase :=
  match w.fraction, w.whole, w.sign with
  | none, [], none => .start
  | none, [], some _ => .sign
  | none, _ :: _, _ => .integer
  | some [], [], _ => .leadingPoint
  | some _, _, _ => .fraction

/-- The literal after the text of the parts. -/
def state (w : Written) : Literal where
  phase := w.phase
  sign := w.sign
  significand := w.value.significand
  places := w.value.places
  reach := endZeros w.fractionDigits + 1

theorem state_empty : ({} : Written).state = {} := rfl

theorem fits_empty (a : Arithmetic) : ({} : Written).Fits a where
  inRange := a.width.zero_inRange
  places_le := Nat.zero_le _
  no_run := by
    intro h
    have hl := h.length_le
    rw [List.length_replicate] at hl
    exact absurd hl (by decide)

/-- A literal is past its first digit if the parts have one. -/
theorem phase_of_complete (h : w.Complete) : w.phase = .integer ∨ w.phase = .fraction := by
  rw [phase]
  rcases h with h | ⟨f, hf, h⟩
  · obtain ⟨d, ds, hw⟩ := List.exists_cons_of_ne_nil h
    rw [hw]
    cases w.fraction <;> simp
  · obtain ⟨d, ds, rfl⟩ := List.exists_cons_of_ne_nil h
    rw [hf]
    simp

theorem phase_of_not_complete (h : ¬ w.Complete) :
    w.phase = .start ∨ w.phase = .sign ∨ w.phase = .leadingPoint := by
  simp only [Complete, not_or, not_not, not_exists, not_and] at h
  rw [phase, h.1]
  cases hf : w.fraction with
  | none => cases w.sign <;> simp
  | some f => simp [h.2 f hf]

/-- What the literal finishes with is the value, once the parts are those of a whole literal. -/
theorem finish_state_of_complete (h : w.Complete) : w.state.finish = .ok w.value := by
  rcases phase_of_complete h with hp | hp <;> simp [Literal.finish, state, hp]

theorem finish_state_of_not_complete (h : ¬ w.Complete) : w.state.finish = .error .incomplete := by
  rcases phase_of_not_complete h with hp | hp | hp <;> simp [Literal.finish, state, hp]

/-! ### How the value changes -/

theorem fractionDigits_of_none (h : w.fraction = none) : w.fractionDigits = [] := by
  simp [fractionDigits, h]

theorem fractionDigits_of_some {f : Bytes} (h : w.fraction = some f) : w.fractionDigits = f := by
  simp [fractionDigits, h]

theorem magnitude_appendWhole (h : w.fraction = none) (hc : Byte.isDigit c) :
    (w.appendWhole c hc).magnitude = w.magnitude * 10 + Byte.digitValue c := by
  simp only [magnitude, fractionDigits_appendWhole, whole_appendWhole, fractionDigits_of_none h, significant,
    List.rdropWhile_nil, List.append_nil]
  exact ofDigits_append_digit _ _

/-- A zero after the point leaves the value as it was. -/
theorem value_fraction_zero {f : Bytes} (h : w.fraction = some f) (hc : IsDigits (f ++ [Byte.zero])) :
    (w.withFraction (f ++ [Byte.zero]) hc).value = w.value := by
  simp only [value, magnitude, fractionDigits_withFraction, whole_withFraction, meantSign_withFraction,
    fractionDigits_of_some h, significant_append_zero]

/-- Another digit after the point goes past all zeros before it. -/
theorem magnitude_fraction_digit {f : Bytes} (h : w.fraction = some f) (hc : IsDigits (f ++ [c]))
    (h0 : c ≠ Byte.zero) :
    (w.withFraction (f ++ [c]) hc).magnitude = w.magnitude * 10 ^ (endZeros f + 1) + Byte.digitValue c := by
  have hz := ofDigits_append_zeros (w.whole ++ significant f) (endZeros f)
  rw [List.append_assoc, significant_append_endZeros] at hz
  simp only [magnitude, fractionDigits_withFraction, whole_withFraction, fractionDigits_of_some h,
    significant_append f h0]
  rw [← List.append_assoc, ofDigits_append_digit, hz, pow_succ, Nat.mul_assoc]

theorem places_fraction_digit {f : Bytes} (h : w.fraction = some f) (hc : IsDigits (f ++ [c]))
    (h0 : c ≠ Byte.zero) :
    (w.withFraction (f ++ [c]) hc).value.places = w.value.places + (endZeros f + 1) := by
  have hl := length_significant f
  simp only [value, fractionDigits_withFraction, fractionDigits_of_some h, significant_append f h0,
    List.length_append, List.length_singleton]
  omega

/-! ### When the longer parts fit -/

theorem significand_appendWhole (h : w.fraction = none) (hc : Byte.isDigit c) :
    (w.appendWhole c hc).value.significand = w.meantSign.signed (w.magnitude * 10 + Byte.digitValue c) := by
  rw [value, magnitude_appendWhole h, meantSign_appendWhole]

theorem fits_appendWhole (hw : w.Fits a) (h : w.fraction = none) (hc : Byte.isDigit c) :
    (w.appendWhole c hc).Fits a ↔
      a.width.InRange (w.meantSign.signed (w.magnitude * 10 + Byte.digitValue c)) := by
  rw [← significand_appendWhole h hc]
  exact ⟨Fits.inRange, fun hr => ⟨hr, hw.places_le, hw.no_run⟩⟩

theorem fits_withFraction_nil (hw : w.Fits a) (h : w.fraction = none) :
    (w.withFraction [] isDigits_nil).Fits a := by
  have hf : (w.withFraction [] isDigits_nil).fractionDigits = w.fractionDigits := (fractionDigits_of_none h).symm
  have hv : (w.withFraction [] isDigits_nil).value = w.value := by
    simp only [value, magnitude, hf, whole_withFraction, meantSign_withFraction]
  exact ⟨hv ▸ hw.inRange, hv ▸ hw.places_le, hf ▸ hw.no_run⟩

/-- A zero after the point fits as long as the run of zeros can be counted. -/
theorem fits_fraction_zero {f : Bytes} (hw : w.Fits a) (h : w.fraction = some f)
    (hc : IsDigits (f ++ [Byte.zero])) :
    (w.withFraction (f ++ [Byte.zero]) hc).Fits a ↔ endZeros f + 1 < Literal.maxPlaces := by
  have hrun : List.replicate Literal.maxPlaces Byte.zero <:+: f ++ [Byte.zero] ↔
      Literal.maxPlaces ≤ endZeros f + 1 := by
    rw [List.infix_concat_iff, replicate_suffix_iff, endZeros_append_zero]
    exact or_iff_left (fractionDigits_of_some h ▸ hw.no_run)
  constructor
  · intro hfit
    exact Nat.lt_of_not_le (fun hle => hfit.no_run (hrun.mpr hle))
  · intro hlt
    have hv := value_fraction_zero h hc
    exact ⟨hv ▸ hw.inRange, hv ▸ hw.places_le, fun hr => Nat.not_lt_of_le (hrun.mp hr) hlt⟩

/-- Another digit after the point fits if the significand and the places do. -/
theorem fits_fraction_digit {f : Bytes} (hw : w.Fits a) (h : w.fraction = some f) (hc : IsDigits (f ++ [c]))
    (h0 : c ≠ Byte.zero) :
    (w.withFraction (f ++ [c]) hc).Fits a ↔
      a.width.InRange (w.meantSign.signed (w.magnitude * 10 ^ (endZeros f + 1) + Byte.digitValue c)) ∧
        w.value.places + (endZeros f + 1) ≤ Literal.maxPlaces := by
  rw [← places_fraction_digit h hc h0, ← magnitude_fraction_digit h hc h0]
  constructor
  · exact fun hfit => ⟨hfit.inRange, hfit.places_le⟩
  · rintro ⟨hr, hp⟩
    refine ⟨hr, hp, ?_⟩
    rw [fractionDigits_withFraction, List.infix_concat_iff, replicate_suffix_iff, endZeros_append f h0]
    rintro (hz | hz)
    · exact absurd hz (by decide)
    · exact hw.no_run (fractionDigits_of_some h ▸ hz)

/-! ### One byte -/

/-- The byte `c` is taken after the parts `w`, and leads to `w'`, exactly if these fit. -/
def Takes (a : Arithmetic) (w : Written) (c : UInt8) (w' : Written) : Prop :=
  (w'.Fits a → w.state.offer a c = ⟨none, w'.state⟩) ∧ (¬ w'.Fits a → (w.state.offer a c).error = some .capacity)

theorem ne_of_isDigit {d : UInt8} (hc : Byte.isDigit c) (hd : Byte.isDigit d = false) : c ≠ d := by
  rintro rfl
  rw [hd] at hc
  exact absurd hc (by decide)

theorem phase_of_none (h : w.fraction = none) : w.phase = .start ∨ w.phase = .sign ∨ w.phase = .integer := by
  rw [phase, h]
  cases w.whole <;> cases w.sign <;> simp

theorem phase_of_some {f : Bytes} (h : w.fraction = some f) : w.phase = .leadingPoint ∨ w.phase = .fraction := by
  rw [phase, h]
  cases f <;> cases w.whole <;> simp

/-- Before the point, a digit is a digit of the whole part. -/
theorem offer_of_none (h : w.fraction = none) (hc : Byte.isDigit c) :
    w.state.offer a c = w.state.integerDigit a c := by
  have h1 := ne_of_isDigit hc (d := Byte.plus) (by decide)
  have h2 := ne_of_isDigit hc (d := Byte.minus) (by decide)
  have h3 := ne_of_isDigit hc (d := Byte.point) (by decide)
  have hp : w.state.phase = w.phase := rfl
  rcases phase_of_none h with h' | h' | h' <;> simp [Literal.offer, hp, h', h1, h2, h3, hc]

theorem takes_whole (hw : w.Fits a) (h : w.fraction = none) (hc : Byte.isDigit c) :
    Takes a w c (w.appendWhole c hc) := by
  have hphase : (w.appendWhole c hc).phase = .integer := by
    simp only [phase, appendWhole, h]
    cases hw : w.whole <;> rfl
  have hstate : (w.appendWhole c hc).state =
      { w.state with phase := .integer, significand := (w.appendWhole c hc).value.significand } := by
    rw [state, hphase]
    rfl
  have happ : a.appendDigit? w.state.significand 1 c w.state.effectiveSign =
      a.width.fit? (w.meantSign.signed (w.magnitude * 10 + Byte.digitValue c)) := by
    rw [← pow_one 10]
    exact a.appendDigit?_signed hw.inRange 1 hc
  rw [Takes, offer_of_none h hc, Literal.integerDigit, fits_appendWhole hw h hc, hstate,
    significand_appendWhole h hc]
  by_cases h0 : c = Byte.zero ∧ w.state.significand = 0
  · -- A leading zero changes nothing.
    have hm : w.magnitude = 0 := Sign.signed_eq_zero_iff.mp h0.2
    have hd : Byte.digitValue c = 0 := by rw [h0.1]; decide
    have hs : w.state.significand = w.meantSign.signed (w.magnitude * 10 + Byte.digitValue c) := by
      rw [h0.2, hm, hd, Nat.zero_mul, Nat.zero_add, Sign.signed_zero]
    rw [if_pos h0, ← hs]
    exact ⟨fun _ => rfl, fun hn => absurd (h0.2 ▸ a.width.zero_inRange) hn⟩
  · rw [if_neg h0, happ]
    refine ⟨fun hr => ?_, fun hn => ?_⟩
    · rw [Width.fit?_of_inRange hr]
    · rw [Width.fit?_of_not_inRange hn]

theorem takes_point (hw : w.Fits a) (h : w.fraction = none) :
    Takes a w Byte.point (w.withFraction [] isDigits_nil) := by
  refine ⟨fun _ => ?_, fun hn => absurd (fits_withFraction_nil hw h) hn⟩
  have hd : w.fractionDigits = [] := fractionDigits_of_none h
  have hstate : (w.withFraction [] isDigits_nil).state =
      { w.state with phase := (w.withFraction [] isDigits_nil).phase } := by
    simp only [state, value, magnitude, fractionDigits_withFraction, whole_withFraction, meantSign_withFraction, hd]
    rfl
  rw [hstate]
  have hp : w.state.phase = w.phase := rfl
  have h1 : Byte.point ≠ Byte.plus := by decide
  have h2 : Byte.point ≠ Byte.minus := by decide
  cases hwhole : w.whole with
  | nil =>
    have hp' : (w.withFraction [] isDigits_nil).phase = .leadingPoint := by simp [phase, withFraction, hwhole]
    have : w.phase = .start ∨ w.phase = .sign := by
      rw [phase, h, hwhole]
      cases w.sign <;> simp
    rcases this with h' | h' <;> simp [Literal.offer, hp, h', hp', h1, h2]
  | cons d ds =>
    have hp' : (w.withFraction [] isDigits_nil).phase = .fraction := by simp [phase, withFraction, hwhole]
    have : w.phase = .integer := by simp [phase, h, hwhole]
    simp [Literal.offer, hp, this, hp']

theorem phase_withFraction (w : Written) (f : Bytes) (hc : IsDigits (f ++ [c])) :
    (w.withFraction (f ++ [c]) hc).phase = .fraction := by
  simp only [phase, withFraction]
  cases f <;> simp

theorem takes_fraction_zero {f : Bytes} (hw : w.Fits a) (h : w.fraction = some f)
    (hc : IsDigits (f ++ [Byte.zero])) : Takes a w Byte.zero (w.withFraction (f ++ [Byte.zero]) hc) := by
  have hreach : w.state.reach = endZeros f + 1 := by rw [state, fractionDigits_of_some h]
  have hstate : (w.withFraction (f ++ [Byte.zero]) hc).state =
      { w.state with phase := .fraction, reach := w.state.reach + 1 } := by
    rw [hreach]
    simp only [state, phase_withFraction, value_fraction_zero h hc, fractionDigits_withFraction,
      endZeros_append_zero]
    rfl
  have hoffer : w.state.offer a Byte.zero = w.state.fractionZero := by
    have hp : w.state.phase = w.phase := rfl
    rcases phase_of_some h with h' | h' <;> simp [Literal.offer, hp, h']
  rw [Takes, hoffer, Literal.fractionZero, hstate, fits_fraction_zero hw h hc, hreach]
  exact ⟨fun hlt => if_pos hlt, fun hn => congrArg Literal.Response.error (if_neg hn)⟩

theorem takes_fraction_digit {f : Bytes} (hw : w.Fits a) (h : w.fraction = some f) (hc : IsDigits (f ++ [c]))
    (h0 : c ≠ Byte.zero) : Takes a w c (w.withFraction (f ++ [c]) hc) := by
  have hdigit : Byte.isDigit c := isDigits_singleton.mp (isDigits_append.mp hc).2
  have hreach : w.state.reach = endZeros f + 1 := by rw [state, fractionDigits_of_some h]
  have hoffer : w.state.offer a c = w.state.fractionDigit a c := by
    have hp : w.state.phase = w.phase := rfl
    rcases phase_of_some h with h' | h' <;> simp [Literal.offer, hp, h', h0, hdigit]
  have happ : a.appendDigit? w.state.significand w.state.reach c w.state.effectiveSign =
      a.width.fit? (w.meantSign.signed (w.magnitude * 10 ^ (endZeros f + 1) + Byte.digitValue c)) := by
    rw [hreach]
    exact a.appendDigit?_signed hw.inRange _ hdigit
  have hstate : (w.withFraction (f ++ [c]) hc).state =
      { w.state with
        phase := .fraction
        significand := w.meantSign.signed (w.magnitude * 10 ^ (endZeros f + 1) + Byte.digitValue c)
        places := w.state.places + w.state.reach
        reach := 1 } := by
    rw [hreach, state, phase_withFraction, fractionDigits_withFraction, endZeros_append f h0,
      places_fraction_digit h hc h0, value, magnitude_fraction_digit h hc h0]
    rfl
  rw [Takes, hoffer, Literal.fractionDigit, happ, hstate, fits_fraction_digit hw h hc h0, hreach]
  by_cases hr : a.width.InRange (w.meantSign.signed (w.magnitude * 10 ^ (endZeros f + 1) + Byte.digitValue c))
  · simp only [Width.fit?_of_inRange hr, hr, true_and]
    exact ⟨fun hp => if_pos hp, fun hn => congrArg Literal.Response.error (if_neg hn)⟩
  · simp only [Width.fit?_of_not_inRange hr, hr, false_and]
    exact ⟨fun hf => hf.elim, fun _ => trivial⟩

/-- A byte that extends the parts is taken exactly if the longer parts fit. -/
theorem Extends.takes (hw : w.Fits a) (h : Extends w c w') : Takes a w c w' := by
  cases h with
  | sign s =>
    have hfit : ({ sign := some s } : Written).Fits a := by
      refine ⟨?_, (fits_empty a).places_le, (fits_empty a).no_run⟩
      have : ({ sign := some s } : Written).value.significand = 0 := s.signed_zero
      exact this ▸ a.width.zero_inRange
    exact ⟨fun _ => by cases s <;> rfl, fun hn => absurd hfit hn⟩
  | whole h hc => exact takes_whole hw h hc
  | point h => exact takes_point hw h
  | @fraction _ f c h hc =>
    by_cases h0 : c = Byte.zero
    · subst h0
      exact takes_fraction_zero hw h hc
    · exact takes_fraction_digit hw h hc h0

/-- A byte that does not extend the parts is not allowed. -/
theorem offer_of_not_extends (h : ∀ w', ¬ Extends w c w') :
    w.state.offer a c = ⟨some .invalidCharacter, w.state⟩ := by
  have hp : w.state.phase = w.phase := rfl
  cases hf : w.fraction with
  | none =>
    have h1 : ¬ Byte.isDigit c := fun hc => h _ (Extends.whole hf hc)
    have h2 : c ≠ Byte.point := by
      rintro rfl
      exact h _ (Extends.point hf)
    rcases phase_of_none hf with h' | h' | h'
    · have hw : w = {} := by
        rw [phase, hf] at h'
        ext1
        · cases hs : w.sign <;> cases hw : w.whole <;> simp [hs, hw] at h' ⊢
        · cases hs : w.sign <;> cases hw : w.whole <;> simp [hs, hw] at h' ⊢
        · exact hf
      subst hw
      have h3 : c ≠ Byte.plus := by
        rintro rfl
        exact h _ (Extends.sign .positive)
      have h4 : c ≠ Byte.minus := by
        rintro rfl
        exact h _ (Extends.sign .negative)
      simp [Literal.offer, hp, h', h1, h2, h3, h4]
    · simp [Literal.offer, hp, h', h1, h2]
    · simp [Literal.offer, hp, h', h1, h2]
  | some f =>
    have h1 : ¬ Byte.isDigit c := fun hc =>
      h _ (Extends.fraction hf (isDigits_append.mpr ⟨w.fraction_digits f hf, isDigits_singleton.mpr hc⟩))
    have h2 : c ≠ Byte.zero := by
      rintro rfl
      exact h1 (by decide)
    rcases phase_of_some hf with h' | h' <;> simp [Literal.offer, hp, h', h1, h2]

end Written

/-! ### Whole texts -/

/-- `FaultAt a p e`: the last byte of `p` is refused with the error `e`. Either `p` is not the
beginning of a literal, or it is and its value does not fit. -/
def FaultAt (a : Arithmetic) (p : Bytes) : Literal.Error → Prop
  | .invalidCharacter => ¬ IsBeginning p
  | .capacity => IsBeginning p ∧ ¬ FitsText a p
  | .incomplete => False

section

variable {a : Arithmetic} {p : Bytes} {e e' : Literal.Error}

theorem FitsText.isBeginning (h : FitsText a p) : IsBeginning p := by
  obtain ⟨w, hw, -⟩ := h
  exact isBeginning_iff.mpr ⟨w, hw⟩

theorem FitsText.not_faultAt (h : FitsText a p) : ¬ FaultAt a p e := by
  intro he
  cases e with
  | invalidCharacter => exact he h.isBeginning
  | capacity => exact he.2 h
  | incomplete => exact he

theorem FaultAt.unique (h : FaultAt a p e) (h' : FaultAt a p e') : e = e' := by
  cases e with
  | invalidCharacter =>
    cases e' with
    | invalidCharacter => rfl
    | capacity => exact absurd h'.1 h
    | incomplete => exact h'.elim
  | capacity =>
    cases e' with
    | invalidCharacter => exact absurd h.1 h'
    | capacity => rfl
    | incomplete => exact h'.elim
  | incomplete => exact h.elim

end

/-- What can come of reading the text `s` after the text `p`: all of it is taken, and every
beginning fits, or it is taken up to the first byte `c` that is refused. -/
inductive Outcome (a : Arithmetic) (p s : Bytes) : Literal.Fed → Prop where
  /-- All of it is taken. -/
  | taken {w : Written} (hw : w.text = p ++ s) (hfit : ∀ q, q <+: s → FitsText a (p ++ q)) :
      Outcome a p s ⟨none, s.length, w.state⟩
  /-- A byte is refused. -/
  | refused {t u : Bytes} {c : UInt8} {e : Literal.Error} (l : Literal) (hs : s = t ++ c :: u)
      (hfit : ∀ q, q <+: t → FitsText a (p ++ q)) (he : FaultAt a (p ++ (t ++ [c])) e) :
      Outcome a p s ⟨some e, t.length, l⟩

section

variable {a : Arithmetic} {p s : Bytes} {c : UInt8} {fed : Literal.Fed}

/-- Every beginning of a text fits if the shortest does and every beginning of the rest does. -/
theorem fits_cons (hp : FitsText a p) (h : ∀ q, q <+: s → FitsText a (p ++ [c] ++ q)) :
    ∀ q, q <+: c :: s → FitsText a (p ++ q) := by
  intro q hq
  rcases List.prefix_cons_iff.mp hq with rfl | ⟨t, rfl, ht⟩
  · simpa using hp
  · simpa using h t ht

theorem Outcome.cons (hp : FitsText a p) (h : Outcome a (p ++ [c]) s fed) :
    Outcome a p (c :: s) { fed with consumed := fed.consumed + 1 } := by
  cases h with
  | taken hw hfit => exact .taken (by simpa using hw) (fits_cons hp hfit)
  | @refused t u d e l hs hfit he =>
    exact .refused (t := c :: t) (c := d) (u := u) l (by simp [hs]) (fits_cons hp hfit) (by simpa using he)

/-- Reading goes on from any parts that fit. -/
theorem feed_outcome (a : Arithmetic) (s : Bytes) :
    ∀ w : Written, w.Fits a → Outcome a w.text s (w.state.feed a s) := by
  induction s with
  | nil =>
    intro w hw
    refine .taken (List.append_nil _).symm fun q hq => ?_
    rw [List.prefix_nil.mp hq, List.append_nil]
    exact fitsText_text.mpr hw
  | cons c s ih =>
    intro w hw
    have hp := fitsText_text.mpr hw
    have hnil : ∀ q, q <+: [] → FitsText a (w.text ++ q) := by
      intro q hq
      rw [List.prefix_nil.mp hq, List.append_nil]
      exact hp
    by_cases hext : ∃ w', Written.Extends w c w'
    · obtain ⟨w', hext⟩ := hext
      by_cases hfit : w'.Fits a
      · rw [Literal.feed_cons_of_ok (Literal.step_eq_ok_iff.mpr ((hext.takes hw).1 hfit))]
        exact (hext.text ▸ ih w' hfit).cons hp
      · rw [Literal.feed_cons_of_error (Literal.step_eq_error_iff.mpr ((hext.takes hw).2 hfit))]
        refine .refused (t := []) _ rfl hnil ⟨isBeginning_iff.mpr ⟨w', hext.text⟩, ?_⟩
        rw [List.nil_append, ← hext.text, fitsText_text]
        exact hfit
    · have hinvalid := Written.offer_of_not_extends (a := a) (not_exists.mp hext)
      rw [Literal.feed_cons_of_error (Literal.step_eq_error_iff.mpr (congrArg Literal.Response.error hinvalid))]
      refine .refused (t := []) _ rfl hnil ?_
      intro hb
      obtain ⟨w', hw'⟩ := isBeginning_iff.mp hb
      exact hext ⟨w', Written.extends_iff.mpr hw'⟩

theorem Outcome.taken_iff (h : Outcome a [] s fed) :
    fed.error = none ∧ fed.consumed = s.length ↔ IsBeginning s ∧ ∀ p, p <+: s → FitsText a p := by
  cases h with
  | taken hw hfit => exact ⟨fun _ => ⟨(hfit s List.prefix_rfl).isBeginning, hfit⟩, fun _ => ⟨rfl, rfl⟩⟩
  | @refused t u c e l hs hfit he =>
    refine ⟨fun h => absurd h.1 (by simp), fun h => absurd he ?_⟩
    exact (h.2 (t ++ [c]) ⟨u, by simp [hs]⟩).not_faultAt

/-- The first beginning with a fault is the one that ends in the byte refused. -/
theorem Outcome.refused_iff (h : Outcome a [] s fed) (k : Nat) (e : Literal.Error) :
    fed.error = some e ∧ fed.consumed = k ↔
      k < s.length ∧ FaultAt a (s.take (k + 1)) e ∧ ∀ j < k, ∀ e', ¬ FaultAt a (s.take (j + 1)) e' := by
  cases h with
  | taken hw hfit =>
    refine ⟨fun h => absurd h.1 (by simp), fun h => absurd h.2.1 ?_⟩
    exact (hfit _ (List.take_prefix _ _)).not_faultAt
  | @refused t u c e₀ l hs hfit he =>
    have hlast : s.take (t.length + 1) = t ++ [c] := by
      rw [hs, ← List.singleton_append, ← List.append_assoc]
      exact List.take_left' (by simp)
    have hbefore : ∀ j < t.length, ∀ e', ¬ FaultAt a (s.take (j + 1)) e' := by
      intro j hj e'
      rw [hs, List.take_append_of_le_length hj]
      exact (hfit _ (List.take_prefix _ _)).not_faultAt
    rw [List.nil_append, ← hlast] at he
    constructor
    · rintro ⟨h1, rfl⟩
      obtain rfl : e₀ = e := by simpa using h1
      exact ⟨by simp [hs], he, hbefore⟩
    · rintro ⟨-, he', hfirst⟩
      rcases Nat.lt_trichotomy k t.length with hlt | rfl | hgt
      · exact absurd he' (hbefore k hlt e)
      · rw [he.unique he']
        exact ⟨rfl, rfl⟩
      · exact absurd he (hfirst _ hgt e₀)

theorem Outcome.finish_iff (h : Outcome a [] s fed) (hn : fed.error = none) :
    (∀ d, fed.literal.finish = .ok d ↔ IsLiteral s ∧ Denotes s d) ∧
      (fed.literal.finish = .error .incomplete ↔ ¬ IsLiteral s) := by
  cases h with
  | refused => exact absurd hn (by simp)
  | @taken w hw hfit =>
    obtain rfl : w.text = s := hw
    simp only [isLiteral_text, denotes_text]
    by_cases hc : w.Complete
    · simp [Written.finish_state_of_complete hc, hc]
    · simp [Written.finish_state_of_not_complete hc, hc]

end

/-- **Reading a literal is exact.** A text is taken whole exactly if it begins a literal and the
values of all its beginnings fit. Otherwise the byte refused is the last of the first beginning
with a fault, and the error is that fault. A text that was taken finishes with its value exactly if
it is a literal, and is incomplete exactly if it is not. -/
theorem feed_exact (a : Arithmetic) (s : Bytes) :
    ((Literal.feed a {} s).error = none ∧ (Literal.feed a {} s).consumed = s.length ↔
      IsBeginning s ∧ ∀ p, p <+: s → FitsText a p) ∧
    (∀ k e, (Literal.feed a {} s).error = some e ∧ (Literal.feed a {} s).consumed = k ↔
      k < s.length ∧ FaultAt a (s.take (k + 1)) e ∧ ∀ j < k, ∀ e', ¬ FaultAt a (s.take (j + 1)) e') ∧
    ((Literal.feed a {} s).error = none →
      (∀ d, (Literal.feed a {} s).literal.finish = .ok d ↔ IsLiteral s ∧ Denotes s d) ∧
      ((Literal.feed a {} s).literal.finish = .error .incomplete ↔ ¬ IsLiteral s)) := by
  have h : Outcome a [] s (Literal.feed a {} s) := feed_outcome a s {} (Written.fits_empty a)
  exact ⟨h.taken_iff, h.refused_iff, h.finish_iff⟩

/-! ### Reading on -/

/-- `Reached a p l`: the text `p` is taken without a fault and leaves the literal `l`. -/
def Reached (a : Arithmetic) (p : Bytes) (l : Literal) : Prop :=
  (Literal.feed a {} p).error = none ∧ (Literal.feed a {} p).literal = l

section

variable {a : Arithmetic} {p : Bytes} {l l' : Literal} {c : UInt8}

theorem reached_nil (a : Arithmetic) : Reached a [] {} := ⟨rfl, rfl⟩

theorem feed_append_step (a : Arithmetic) (p : Bytes) (c : UInt8) :
    ∀ l l' : Literal, (l.feed a p).error = none → (l.feed a p).literal.step a c = .ok l' →
      (l.feed a (p ++ [c])).error = none ∧ (l.feed a (p ++ [c])).literal = l' := by
  induction p with
  | nil =>
    intro l l' _ hc
    have hc' : l.step a c = .ok l' := hc
    rw [List.nil_append, Literal.feed_cons_of_ok hc']
    exact ⟨rfl, rfl⟩
  | cons d p ih =>
    intro l l' hp hc
    obtain ⟨l₁, hd, hp₁, hliteral⟩ := Literal.exists_step_of_feed_cons hp
    rw [List.cons_append, Literal.feed_cons_of_ok hd]
    exact ih l₁ l' hp₁ (hliteral ▸ hc)

theorem Reached.append (h : Reached a p l) (hc : l.step a c = .ok l') : Reached a (p ++ [c]) l' :=
  feed_append_step a p c {} l' h.1 (h.2 ▸ hc)

/-- The literal after a text is that of the parts of the text, and these fit. -/
theorem Reached.written (h : Reached a p l) : ∃ w : Written, w.text = p ∧ l = w.state ∧ w.Fits a := by
  have ho := feed_outcome a p {} (Written.fits_empty a)
  obtain ⟨he, hl⟩ := h
  rw [← Written.state_empty] at he hl
  cases hfed : Literal.feed a ({} : Written).state p
  rw [hfed] at he hl ho
  cases ho with
  | refused => exact absurd he (by simp)
  | @taken w hw hfit =>
    obtain rfl : w.text = p := hw
    exact ⟨w, rfl, hl.symm, fitsText_text.mp (hfit _ List.prefix_rfl)⟩

end

/-! ### Plain integers -/

/-- The parts of a literal that is nothing but digits. -/
def Written.ofDigits (ds : Bytes) (h : IsDigits ds) : Written where
  whole := ds
  whole_digits := h

section

variable {a : Arithmetic} {p ds : Bytes} {l : Literal}

theorem Written.text_ofDigits (h : IsDigits ds) : (Written.ofDigits ds h).text = ds := by
  simp [Written.ofDigits, Written.text, Written.signText, Written.pointText]

theorem Written.significand_ofDigits (h : IsDigits ds) :
    (Written.ofDigits ds h).value.significand = Text.ofDigits ds := by
  simp [Written.ofDigits, Written.value, Written.magnitude, Written.fractionDigits, Written.meantSign, significant,
    Sign.signed]

theorem Written.fits_ofDigits (h : IsDigits ds) (hr : a.width.InRange (Text.ofDigits ds)) :
    (Written.ofDigits ds h).Fits a :=
  ⟨Written.significand_ofDigits h ▸ hr, (Written.fits_empty a).places_le, (Written.fits_empty a).no_run⟩

/-- Digits that are put in front do not write a greater number than all. -/
theorem ofDigits_le_append (ds es : Bytes) : Text.ofDigits ds ≤ Text.ofDigits (ds ++ es) := by
  induction es using List.reverseRecOn with
  | nil => simp
  | append_singleton es c ih =>
    rw [← List.append_assoc, ofDigits_append_digit]
    omega

/-- Digits are taken if the number that they write fits. -/
theorem reached_ofDigits (h : IsDigits ds) (hr : a.width.InRange (Text.ofDigits ds)) :
    Reached a ds (Written.ofDigits ds h).state := by
  have ho := feed_outcome a ds {} (Written.fits_empty a)
  rw [Written.state_empty] at ho
  have hfit : ∀ q, q <+: ds → FitsText a q := by
    rintro q ⟨t, rfl⟩
    have hq := (isDigits_append.mp h).1
    have hle := ofDigits_le_append q t
    exact ⟨Written.ofDigits q hq, Written.text_ofDigits hq,
      Written.fits_ofDigits hq (hr.of_between (by omega))⟩
  have hn := (ho.taken_iff.mpr ⟨(hfit ds List.prefix_rfl).isBeginning, hfit⟩).1
  refine ⟨hn, ?_⟩
  obtain ⟨w, hw, hl, -⟩ := Reached.written (a := a) ⟨hn, rfl⟩
  rw [hl, Written.text_injective (hw.trans (Written.text_ofDigits h).symm)]

/-- Only digits have been read exactly if the text is digits, and not empty. -/
theorem Reached.isPlainInteger_iff (h : Reached a p l) : l.isPlainInteger ↔ p ≠ [] ∧ IsDigits p := by
  obtain ⟨w, rfl, rfl, -⟩ := h.written
  have hphase : w.state.phase = w.phase := rfl
  have hsign : w.state.sign = w.sign := rfl
  simp only [Literal.isPlainInteger, hphase, hsign, Bool.and_eq_true, beq_iff_eq, Option.isNone_iff_eq_none]
  constructor
  · rintro ⟨hp, hs⟩
    have hf : w.fraction = none := by
      cases hf : w.fraction with
      | none => rfl
      | some f => rcases Written.phase_of_some hf with h' | h' <;> simp [hp] at h'
    have hw : w.whole ≠ [] := by
      intro hw
      simp [Written.phase, hf, hw, hs] at hp
    have ht : w.text = w.whole := by
      simp [Written.text, Written.signText, Written.pointText, hs, hf]
    rw [ht]
    exact ⟨hw, w.whole_digits⟩
  · rintro ⟨hne, hd⟩
    have hw : w = Written.ofDigits w.text hd := Written.text_injective (Written.text_ofDigits hd).symm
    have hs : w.sign = none := by rw [hw]; rfl
    refine ⟨?_, hs⟩
    obtain ⟨d, ds, ht⟩ := List.exists_cons_of_ne_nil hne
    rw [hw]
    simp [Written.phase, Written.ofDigits, ht]

/-- The significand after digits is the number that they write, and it is in range. -/
theorem Reached.significand_of_isDigits (h : Reached a p l) (hd : IsDigits p) :
    l.significand = Text.ofDigits p ∧ a.width.InRange (Text.ofDigits p) := by
  obtain ⟨w, rfl, rfl, hfit⟩ := h.written
  have hw : w = Written.ofDigits w.text hd := Written.text_injective (Written.text_ofDigits hd).symm
  have hv : w.value.significand = Text.ofDigits w.text := by
    conv_lhs => rw [hw]
    exact Written.significand_ofDigits hd
  exact ⟨hv, hv ▸ hfit.inRange⟩

end

end PartProgram.Number
