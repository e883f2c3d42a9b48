import PartProgram.Proofs.LineGrammar

/-!
# The text of a number

The text of a decimal number is a literal (`Decimal.written`), so it can be read. What is read from
it is the number with as few places as it can have: the zeros that its fraction ends in are dropped
(`magnitude_written`, `places_written`). A number that was itself read from a literal has none
(`Canonical`), so its text gives it back (`isNumber_text`).

No part of the text does (`isNumber_take_iff`). A literal that goes on has more digits after the point or,
if it has no point, a greater magnitude; this is what `Begins` compares of a text and one that begins with it.
-/

namespace PartProgram.Text

open Number

/-! ### Numerals -/

/-- The byte of a digit. -/
def digitByte (d : Nat) : UInt8 := (Nat.digitChar d).toUInt8

theorem digitByte_spec : ∀ d < 10, Byte.isDigit (digitByte d) ∧ Byte.digitValue (digitByte d) = d := by
  decide

theorem numeral_of_lt {n : Nat} (h : n < 10) : numeral n = [digitByte n] := by
  rw [numeral, Nat.toDigits_of_lt_base h]
  rfl

theorem numeral_of_le {n : Nat} (h : 10 ≤ n) : numeral n = numeral (n / 10) ++ [digitByte (n % 10)] := by
  rw [numeral, Nat.toDigits_of_base_le (by decide) h, List.map_append]
  rfl

/-- A numeral consists of digits, and writes its number. -/
theorem numeral_spec (n : Nat) : IsDigits (numeral n) ∧ ofDigits (numeral n) = n := by
  induction n using Nat.strong_induction_on with
  | _ n ih =>
    by_cases h : n < 10
    · obtain ⟨hdigit, hvalue⟩ := digitByte_spec n h
      rw [numeral_of_lt h]
      exact ⟨isDigits_singleton.mpr hdigit, by simpa [ofDigits] using hvalue⟩
    · obtain ⟨hdigit, hvalue⟩ := digitByte_spec (n % 10) (Nat.mod_lt n (by decide))
      obtain ⟨ihdigits, ihvalue⟩ := ih (n / 10) (by omega)
      rw [numeral_of_le (by omega)]
      refine ⟨isDigits_append.mpr ⟨ihdigits, isDigits_singleton.mpr hdigit⟩, ?_⟩
      rw [ofDigits_append_digit, ihvalue, hvalue]
      omega

theorem isDigits_numeral (n : Nat) : IsDigits (numeral n) := (numeral_spec n).1

theorem ofDigits_numeral (n : Nat) : ofDigits (numeral n) = n := (numeral_spec n).2

theorem numeral_ne_nil (n : Nat) : numeral n ≠ [] := by
  by_cases h : n < 10
  · simp [numeral_of_lt h]
  · simp [numeral_of_le (Nat.le_of_not_lt h)]

end PartProgram.Text

namespace PartProgram.Number

/-! ### Texts that begin with one another -/

namespace Written

variable {a : Arithmetic} {w w' w'' : Written} {c : UInt8}

/-- What the parts `w` of a text are to the parts `w'` of a text that begins with it. -/
structure Begins (w w' : Written) : Prop where
  whole : w.whole <+: w'.whole
  fraction : w.fractionDigits <+: w'.fractionDigits
  magnitude : w.magnitude ≤ w'.magnitude
  places : w.value.places ≤ w'.value.places
  sign : w.meantSign = w'.meantSign ∨ w.magnitude = 0

theorem Begins.refl (w : Written) : Begins w w := ⟨List.prefix_rfl, List.prefix_rfl, le_rfl, le_rfl, Or.inl rfl⟩

theorem Begins.trans (h : Begins w w') (h' : Begins w' w'') : Begins w w'' where
  whole := h.whole.trans h'.whole
  fraction := h.fraction.trans h'.fraction
  magnitude := h.magnitude.trans h'.magnitude
  places := h.places.trans h'.places
  sign := by
    obtain hs | hz := h.sign
    · obtain hs' | hz' := h'.sign
      · exact Or.inl (hs.trans hs')
      · exact Or.inr (Nat.le_zero.mp (hz' ▸ h.magnitude))
    · exact Or.inr hz

theorem Extends.begins (h : Extends w c w') : Begins w w' := by
  cases h with
  | sign s => exact ⟨List.prefix_rfl, List.prefix_rfl, le_rfl, le_rfl, Or.inr rfl⟩
  | whole h hc =>
    refine ⟨List.prefix_append _ _, List.prefix_rfl, ?_, le_rfl, Or.inl rfl⟩
    rw [magnitude_appendWhole h hc]
    omega
  | point h =>
    have hf : w.fractionDigits = [] := fractionDigits_of_none h
    refine ⟨List.prefix_rfl, by simp [hf], ?_, ?_, Or.inl rfl⟩
    · simp [magnitude, hf]
    · simp [value, hf]
  | @fraction _ f c h hc =>
    have hprefix : w.fractionDigits <+: f ++ [c] := by
      rw [fractionDigits_of_some h]
      exact List.prefix_append f [c]
    by_cases h0 : c = Byte.zero
    · subst h0
      have hv := value_fraction_zero h hc
      have hm : w.magnitude = (w.withFraction (f ++ [Byte.zero]) hc).magnitude := by
        simp only [magnitude, fractionDigits_withFraction, fractionDigits_of_some h, significant_append_zero]
        rfl
      exact ⟨List.prefix_rfl, hprefix, hm.le, by rw [hv], Or.inl rfl⟩
    · refine ⟨List.prefix_rfl, hprefix, ?_, ?_, Or.inl rfl⟩
      · rw [magnitude_fraction_digit h hc h0]
        exact (Nat.le_mul_of_pos_right _ (by positivity)).trans (Nat.le_add_right _ _)
      · rw [places_fraction_digit h hc h0]
        omega

/-- The last byte of a text with digits after the point is one of these. -/
theorem Extends.fraction_lt (h : Extends w c w') (hf : w'.fractionDigits ≠ []) :
    w.fractionDigits.length < w'.fractionDigits.length := by
  cases h with
  | sign s => exact absurd rfl hf
  | whole h hc => exact absurd (fractionDigits_of_none h) hf
  | point h => exact absurd rfl hf
  | fraction h hc => simp [fractionDigits_of_some h]

/-- The last byte of a text with digits and no point is one of these, and the text writes ten times as much
with it. -/
theorem Extends.whole_lt (h : Extends w c w') (hf : w'.fraction = none) (hw : w'.whole ≠ []) :
    w.whole.length < w'.whole.length ∧ w.magnitude * 10 ≤ w'.magnitude := by
  cases h with
  | sign s => exact absurd rfl hw
  | whole h hc =>
    rw [magnitude_appendWhole h hc]
    exact ⟨by simp, Nat.le_add_right _ _⟩
  | point h => cases hf
  | fraction h hc => cases hf

/-- The bytes of `t` can be taken off the parts, from the last one on. -/
theorem exists_begins (t : Bytes) : ∀ {p : Bytes} {w' : Written}, w'.text = p ++ t → ∃ w, w.text = p ∧ Begins w w' := by
  induction t using List.reverseRecOn with
  | nil =>
    intro p w' h
    exact ⟨w', by simpa using h, Begins.refl w'⟩
  | append_singleton t c ih =>
    intro p w' h
    rw [← List.append_assoc] at h
    obtain ⟨v, hv, hext⟩ := exists_extends h
    obtain ⟨w, hw, hbegins⟩ := ih hv
    exact ⟨w, hw, hbegins.trans hext.begins⟩

theorem begins_of_text {t : Bytes} (h : w'.text = w.text ++ t) : Begins w w' := by
  obtain ⟨v, hv, hbegins⟩ := exists_begins t h
  exact text_injective hv ▸ hbegins

/-- What a text that fits begins with fits too. -/
theorem Fits.of_begins (h : w'.Fits a) (hb : Begins w w') : w.Fits a where
  inRange := by
    have hr : a.width.InRange (w'.meantSign.signed w.magnitude) := Sign.inRange_signed_of_le h.inRange hb.magnitude
    obtain hs | hz := hb.sign
    · rwa [value, hs]
    · rw [value, hz, Sign.signed_zero]
      exact a.width.zero_inRange
  places_le := hb.places.trans h.places_le
  no_run := fun hrun => h.no_run (hrun.trans hb.fraction.isInfix)

theorem natAbs_value (w : Written) : w.value.significand.natAbs = w.magnitude := by
  rw [value]
  cases w.meantSign <;> simp [Sign.signed]

theorem Complete.ne_nil (h : w.Complete) : w.whole ≠ [] ∨ w.fractionDigits ≠ [] := by
  obtain hw | ⟨f, hf, hne⟩ := h
  · exact Or.inl hw
  · exact Or.inr (by rwa [fractionDigits_of_some hf])

end Written

section

variable {a : Arithmetic} {p t : Bytes} {d : Decimal}

theorem FitsText.of_append (h : FitsText a (p ++ t)) : FitsText a p := by
  obtain ⟨w', hw', hfit⟩ := h
  obtain ⟨w, hw, hbegins⟩ := Written.exists_begins t hw'
  exact ⟨w, hw, hfit.of_begins hbegins⟩

/-- A number is a literal whose value fits; that all its beginnings fit goes without saying. -/
theorem isNumber_iff : Block.IsNumber a p d ↔ ∃ w : Written, w.text = p ∧ w.Complete ∧ w.Fits a ∧ w.value = d := by
  have houtcome : Outcome a [] p (Literal.feed a {} p) := feed_outcome a p {} (Written.fits_empty a)
  constructor
  · rintro ⟨he, hd⟩
    obtain ⟨w, rfl, hl, hfit⟩ := Reached.written (a := a) ⟨he, rfl⟩
    obtain ⟨hliteral, hdenotes⟩ := ((houtcome.finish_iff he).1 d).mp hd
    exact ⟨w, rfl, isLiteral_text.mp hliteral, hfit, denotes_text.mp hdenotes⟩
  · rintro ⟨w, rfl, hcomplete, hfit, hvalue⟩
    have hall : ∀ q, q <+: w.text → FitsText a q := by
      rintro q ⟨u, hu⟩
      exact FitsText.of_append (t := u) (hu ▸ fitsText_text.mpr hfit)
    have he := (houtcome.taken_iff.mpr ⟨isBeginning_iff.mpr ⟨w, rfl⟩, hall⟩).1
    exact ⟨he, ((houtcome.finish_iff he).1 d).mpr ⟨isLiteral_text.mpr hcomplete, denotes_text.mpr hvalue⟩⟩

end

/-! ### The digits of a literal -/

theorem digitValue_pos {c : UInt8} (hc : Byte.isDigit c) (h0 : c ≠ Byte.zero) :
    0 < Byte.digitValue c ∧ Byte.digitValue c < 10 := by
  have hne : c.toNat ≠ 48 := fun h => h0 (UInt8.toNat_inj.mp h)
  simp only [Byte.isDigit, Bool.and_eq_true, decide_eq_true_eq, UInt8.le_iff_toNat_le, UInt8.reduceToNat] at hc
  rw [Byte.digitValue]
  omega

/-- The significant digits of a fraction are none, or the last of them is not zero. -/
theorem significant_nil_or_append (f : Bytes) :
    significant f = [] ∨ ∃ g c, significant f = g ++ [c] ∧ c ∈ f ∧ c ≠ Byte.zero := by
  induction f using List.reverseRecOn with
  | nil => exact Or.inl rfl
  | append_singleton f c ih =>
    by_cases h0 : c = Byte.zero
    · subst h0
      rw [significant_append_zero]
      obtain hnil | ⟨g, c, hg, hmem, hc⟩ := ih
      · exact Or.inl hnil
      · exact Or.inr ⟨g, c, hg, List.mem_append_left _ hmem, hc⟩
    · exact Or.inr ⟨f, c, significant_append f h0, by simp, h0⟩

theorem Written.isDigits_fractionDigits (w : Written) : IsDigits w.fractionDigits := by
  rw [fractionDigits]
  cases hf : w.fraction with
  | none => exact isDigits_nil
  | some f => exact w.fraction_digits f hf

/-! ### The text of a number as a literal -/

namespace Decimal

variable {a : Arithmetic} {n : Bytes} {d : Decimal} {k : Nat}

/-- The digits after the point. -/
def fractionDigits (d : Decimal) : Bytes := List.replicate d.zeros Byte.zero ++ d.digits.drop d.wholeCount

theorem isDigits_digits (d : Decimal) : IsDigits d.digits := Text.isDigits_numeral _

theorem isDigits_zeros (k : Nat) : IsDigits (List.replicate k Byte.zero) := by
  intro c hc
  rw [List.eq_of_mem_replicate hc]
  decide

theorem isDigits_wholeText (d : Decimal) : IsDigits d.wholeText := by
  rw [wholeText]
  split_ifs
  · exact isDigits_zeros 1
  · exact fun c hc => d.isDigits_digits c (List.mem_of_mem_take hc)

theorem isDigits_fractionDigits (d : Decimal) : IsDigits d.fractionDigits :=
  isDigits_append.mpr ⟨isDigits_zeros _, fun c hc => d.isDigits_digits c (List.mem_of_mem_drop hc)⟩

theorem length_fractionDigits (d : Decimal) : d.fractionDigits.length = d.places := by
  rw [fractionDigits, List.length_append, List.length_replicate, List.length_drop, zeros, wholeCount]
  omega

/-- The digits before and after the point write the significand, without its sign. -/
theorem ofDigits_wholeText_append (d : Decimal) :
    Text.ofDigits (d.wholeText ++ d.fractionDigits) = d.significand.natAbs := by
  have hdigits : Text.ofDigits d.digits = d.significand.natAbs := Text.ofDigits_numeral _
  rw [wholeText, fractionDigits]
  split_ifs with h
  · -- All digits stand after the point, and only zeros before them.
    rw [h, List.drop_zero]
    have hzeros : ∀ k, Text.ofDigits ([Byte.zero] ++ (List.replicate k Byte.zero ++ d.digits)) =
        Text.ofDigits d.digits := by
      intro k
      induction k with
      | zero => rfl
      | succ k ih => rwa [List.replicate_succ, List.cons_append]
    rw [hzeros, hdigits]
  · have hz : d.zeros = 0 := by
      rw [zeros]
      rw [wholeCount] at h
      omega
    rw [hz, List.replicate_zero, List.nil_append, List.take_append_drop, hdigits]

/-- The text of the number as a literal. -/
def written (d : Decimal) : Written where
  sign := if d.significand < 0 then some .negative else none
  whole := d.wholeText
  fraction := if d.places = 0 then none else some d.fractionDigits
  whole_digits := d.isDigits_wholeText
  fraction_digits := by
    intro f hf
    split_ifs at hf with h
    · cases hf
    · cases hf
      exact d.isDigits_fractionDigits

theorem text_written (d : Decimal) : d.written.text = d.text := by
  rw [Written.text, Written.signText, Written.pointText, text, signText, fractionText, written]
  by_cases hs : d.significand < 0 <;> by_cases hp : d.places = 0 <;> simp [hs, hp, Sign.byte, fractionDigits]

theorem fractionDigits_written (d : Decimal) : d.written.fractionDigits = d.fractionDigits := by
  rw [Written.fractionDigits, written]
  by_cases h : d.places = 0
  · have hnil : d.fractionDigits = [] := List.eq_nil_of_length_eq_zero (h ▸ d.length_fractionDigits)
    simp [h, hnil]
  · simp [h]

theorem wholeText_ne_nil (d : Decimal) : d.wholeText ≠ [] := by
  rw [wholeText]
  split_ifs with h
  · simp
  · have hne : d.digits ≠ [] := Text.numeral_ne_nil _
    simp [h, hne]

theorem complete_written (d : Decimal) : d.written.Complete := Or.inl d.wholeText_ne_nil

/-- What is read from the text lacks the zeros that the fraction ends in. -/
theorem magnitude_written (d : Decimal) :
    d.written.magnitude * 10 ^ endZeros d.fractionDigits = d.significand.natAbs := by
  rw [Written.magnitude, fractionDigits_written, ← ofDigits_append_zeros, List.append_assoc,
    significant_append_endZeros]
  exact d.ofDigits_wholeText_append

theorem signed_natAbs_written (d : Decimal) : d.written.meantSign.signed d.significand.natAbs = d.significand := by
  rw [Written.meantSign, written]
  by_cases hneg : d.significand < 0
  · simp only [hneg, if_true, Option.getD_some, Sign.signed]
    omega
  · simp only [hneg, if_false, Option.getD_none, Sign.signed]
    omega

theorem significand_written (d : Decimal) :
    d.written.value.significand * 10 ^ endZeros d.fractionDigits = d.significand := by
  rw [Written.value, Sign.signed_mul_pow, magnitude_written, signed_natAbs_written]

theorem places_written (d : Decimal) : d.written.value.places + endZeros d.fractionDigits = d.places := by
  rw [Written.value, fractionDigits_written, length_significant, length_fractionDigits]

/-! ### Numbers without superfluous places -/

/-- The number has no place more than it needs. -/
def Canonical (d : Decimal) : Prop := d.places = 0 ∨ ¬ 10 ∣ d.significand

/-- What is read from a literal has no place more than it needs. -/
theorem canonical_value (w : Written) : w.value.Canonical := by
  obtain hnil | ⟨g, c, hg, hmem, h0⟩ := significant_nil_or_append w.fractionDigits
  · exact Or.inl (by simp [Written.value, hnil])
  · -- The last digit after the point is the last digit of the significand.
    refine Or.inr fun hdvd => ?_
    have hm : w.magnitude = Text.ofDigits (w.whole ++ g) * 10 + Byte.digitValue c := by
      rw [Written.magnitude, hg, ← List.append_assoc, ofDigits_append_digit]
    have hc := digitValue_pos (w.isDigits_fractionDigits c hmem) h0
    have hdvd' : 10 ∣ w.magnitude := w.natAbs_value ▸ Int.natAbs_dvd_natAbs.mpr hdvd
    omega

/-- The fraction of a number without superfluous places does not end in a zero. -/
theorem Canonical.endZeros_eq_zero (h : d.Canonical) : endZeros d.fractionDigits = 0 := by
  obtain hp | hs := h
  · have := d.places_written
    omega
  · by_contra hne
    refine hs ?_
    rw [← Int.natAbs_dvd_natAbs, ← d.magnitude_written]
    exact Dvd.dvd.mul_left (dvd_pow_self 10 hne) _

theorem Canonical.value_written (h : d.Canonical) : d.written.value = d := by
  have hs := d.significand_written
  have hp := d.places_written
  rw [h.endZeros_eq_zero, pow_zero, Int.mul_one] at hs
  rw [h.endZeros_eq_zero, Nat.add_zero] at hp
  exact congrArg₂ Decimal.mk hs hp

/-! ### Reading the text -/

theorem canonical_of_isNumber (h : Block.IsNumber a n d) : d.Canonical := by
  obtain ⟨w, -, -, -, rfl⟩ := isNumber_iff.mp h
  exact canonical_value w

/-- The text of a number that was read fits. -/
theorem fits_written (h : Block.IsNumber a n d) : d.written.Fits a := by
  have hcanonical := canonical_of_isNumber h
  obtain ⟨w, -, -, hfit, rfl⟩ := isNumber_iff.mp h
  refine ⟨?_, ?_, ?_⟩
  · rw [hcanonical.value_written]
    exact hfit.inRange
  · rw [hcanonical.value_written]
    exact hfit.places_le
  · -- A run of zeros that cannot be counted would be the whole fraction, which does not end in a zero.
    rw [fractionDigits_written]
    intro hrun
    have hlength : w.value.fractionDigits.length ≤ (List.replicate Literal.maxPlaces Byte.zero).length := by
      rw [length_fractionDigits, List.length_replicate]
      exact hfit.places_le
    have heq := hrun.eq_of_length_le hlength
    have hle : Literal.maxPlaces ≤ endZeros w.value.fractionDigits := replicate_suffix_iff.mp (heq ▸ List.suffix_rfl)
    rw [hcanonical.endZeros_eq_zero] at hle
    exact absurd hle (by decide)

/-- **A number that was read is given back by its text.** -/
theorem isNumber_text (h : Block.IsNumber a n d) : Block.IsNumber a d.text d :=
  isNumber_iff.mpr ⟨d.written, d.text_written, d.complete_written, fits_written h,
    (canonical_of_isNumber h).value_written⟩

/-- The text without its last byte, and whatever that begins with, has another value. -/
theorem value_ne_of_begins {u v : Written} {c : UInt8} (h : d.Canonical) (hext : u.Extends c d.written)
    (hbegins : v.Begins u) (hcomplete : v.Complete) : v.value ≠ d := by
  intro hvalue
  by_cases hp : d.places = 0
  · -- A numeral writes at least ten times what a part of it writes, so it is the numeral of zero.
    have hnone : d.written.fraction = none := if_pos hp
    obtain ⟨hlength, hten⟩ := hext.whole_lt hnone d.wholeText_ne_nil
    have hm : v.magnitude = d.written.magnitude := by
      rw [← v.natAbs_value, ← d.written.natAbs_value, hvalue, h.value_written]
    have hle := hbegins.magnitude
    have hzero : d.significand.natAbs = 0 := by
      rw [← h.value_written, d.written.natAbs_value]
      omega
    have hdigits : d.digits = [Text.digitByte 0] := by
      rw [digits, hzero]
      exact Text.numeral_of_lt (by decide)
    have hwhole : d.written.whole.length ≤ 1 := by
      have : d.written.whole = d.wholeText := rfl
      rw [this, wholeText]
      split_ifs <;> simp [hdigits]
    have hu : u.whole = [] := List.eq_nil_of_length_eq_zero (by omega)
    have huf : u.fractionDigits = [] := by
      have hd : d.written.fractionDigits = [] := Written.fractionDigits_of_none hnone
      exact List.prefix_nil.mp (hd ▸ hext.begins.fraction)
    obtain hne | hne := hcomplete.ne_nil
    · exact hne (List.prefix_nil.mp (hu ▸ hbegins.whole))
    · exact hne (List.prefix_nil.mp (huf ▸ hbegins.fraction))
  · -- A part of the text has fewer digits after the point.
    have hlength : d.written.fractionDigits.length = d.places := by
      rw [fractionDigits_written, length_fractionDigits]
    have hlt := hext.fraction_lt (List.ne_nil_of_length_pos (by omega))
    have hle := hbegins.fraction.length_le
    have hplaces : d.places = (significant v.fractionDigits).length := by rw [← hvalue, Written.value]
    have hsignificant := length_significant v.fractionDigits
    omega

/-- **No part of the text gives the number back.** -/
theorem isNumber_take_iff (h : Block.IsNumber a n d) (k : Nat) :
    Block.IsNumber a (d.text.take k) d ↔ d.text.length ≤ k := by
  constructor
  · intro hpart
    by_contra hk
    obtain ⟨v, hv, hcomplete, -, hvalue⟩ := isNumber_iff.mp hpart
    obtain hnil | ⟨t, c, ht⟩ := List.eq_nil_or_concat' (d.text.drop k)
    · exact hk (List.drop_eq_nil_iff.mp hnil)
    · have htext : d.written.text = v.text ++ t ++ [c] := by
        rw [text_written, hv, List.append_assoc, ← ht, List.take_append_drop]
      obtain ⟨u, hu, hext⟩ := Written.exists_extends htext
      exact value_ne_of_begins (canonical_of_isNumber h) hext (Written.begins_of_text hu) hcomplete hvalue
  · intro hk
    rw [List.take_of_length_le hk]
    exact isNumber_text h

end Decimal

end PartProgram.Number
