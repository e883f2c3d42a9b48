import PartProgram.Proofs.PlainNotation
import Mathlib.Logic.Relation

/-!
# Spellings of a number

A number can be written in many ways: with zeros in front, with a plus sign, with zeros at the end of the
fraction, with a point after which nothing stands, and zero with either sign. Nothing of this shows in what is
read. A number without superfluous places is determined by its value (`Canonical.eq_of_amount`), and what is
read from a literal has none and has the value of the literal (`Written.amount_value`). So two numbers that were read
are equal exactly if their literals denote the same rational number.
-/

namespace PartProgram.Number

/-! ### Numbers and their values -/

namespace Decimal

variable {d e : Decimal}

/-- No number of the same value has fewer places than one without superfluous places. -/
theorem Canonical.places_le (hd : d.Canonical) (h : d.amount = e.amount) : d.places ≤ e.places := by
  by_contra hlt
  obtain ⟨k, hk⟩ : ∃ k, d.places = e.places + (k + 1) := ⟨d.places - e.places - 1, by omega⟩
  -- The other significand, moved to the left, is that of `d`, which ten would then divide.
  have hs : d.significand = 10 ^ (k + 1) * e.significand := by
    rw [amount, amount, hk, pow_add] at h
    field_simp at h
    exact_mod_cast h
  obtain hp | hten := hd
  · omega
  · exact hten (hs ▸ Dvd.dvd.mul_right (dvd_pow_self 10 k.succ_ne_zero) _)

theorem Canonical.eq_of_amount (hd : d.Canonical) (he : e.Canonical) (h : d.amount = e.amount) : d = e := by
  have hp : d.places = e.places := le_antisymm (hd.places_le h) (he.places_le h.symm)
  have hs : d.significand = e.significand := by
    rw [amount, amount, hp, div_left_inj' (by positivity)] at h
    exact_mod_cast h
  exact congrArg₂ Decimal.mk hs hp

end Decimal

namespace Written

variable {a : Arithmetic} {w w' : Written} {d : Decimal}

/-- What is read from a literal has the value that the literal denotes. -/
theorem amount_value (w : Written) : w.value.amount = w.amount := by
  have hdigits : (Text.ofDigits w.fractionDigits : ℚ) =
      Text.ofDigits (significant w.fractionDigits) * 10 ^ endZeros w.fractionDigits := by
    conv_lhs => rw [← significant_append_endZeros w.fractionDigits]
    rw [ofDigits_append_zeros]
    push_cast
    rfl
  have hplaces : (10 : ℚ) ^ w.fractionDigits.length =
      10 ^ (significant w.fractionDigits).length * 10 ^ endZeros w.fractionDigits := by
    rw [← pow_add, length_significant]
  have hsign : (w.value.significand : ℚ) = w.meantSign.signed 1 * w.magnitude := by
    rw [value, ← Sign.signed_one_mul]
    push_cast
    rfl
  rw [amount, Decimal.amount, hdigits, hplaces, hsign, magnitude, Text.ofDigits_append]
  simp only [value]
  push_cast
  field_simp

theorem value_eq_of_amount (h : w'.amount = w.amount) : w'.value = w.value := by
  refine (Decimal.canonical_value w').eq_of_amount (Decimal.canonical_value w) ?_
  rw [amount_value, amount_value, h]

/-! ### What does not count -/

/-- `Respelling w w'`: in the parts `w'` stands something more than in `w`, or another sign, and it does not count. -/
inductive Respelling : Written → Written → Prop where
  /-- Zeros in front of the digits. -/
  | leadingZeros {w w' : Written} (k : Nat) (hsign : w'.sign = w.sign)
      (hwhole : w'.whole = List.replicate k Byte.zero ++ w.whole) (hfraction : w'.fraction = w.fraction) :
      Respelling w w'
  /-- A plus sign. -/
  | plus {w w' : Written} (hnone : w.sign = none) (hsign : w'.sign = some .positive)
      (hwhole : w'.whole = w.whole) (hfraction : w'.fraction = w.fraction) : Respelling w w'
  /-- Another sign of zero, or none. -/
  | signOfZero {w w' : Written} (hzero : ∀ c ∈ w.whole ++ w.fractionDigits, c = Byte.zero)
      (hwhole : w'.whole = w.whole) (hfraction : w'.fraction = w.fraction) : Respelling w w'
  /-- Zeros at the end of the fraction. -/
  | endZeros {w w' : Written} {f : Bytes} (k : Nat) (hsome : w.fraction = some f) (hsign : w'.sign = w.sign)
      (hwhole : w'.whole = w.whole) (hfraction : w'.fraction = some (f ++ List.replicate k Byte.zero)) :
      Respelling w w'
  /-- A point after which nothing stands. -/
  | point {w w' : Written} (hnone : w.fraction = none) (hsign : w'.sign = w.sign) (hwhole : w'.whole = w.whole)
      (hfraction : w'.fraction = some []) : Respelling w w'

theorem meantSign_congr (h : w'.sign = w.sign) : w'.meantSign = w.meantSign := by rw [meantSign, meantSign, h]

theorem fractionDigits_congr (h : w'.fraction = w.fraction) : w'.fractionDigits = w.fractionDigits := by
  rw [fractionDigits, fractionDigits, h]

theorem amount_congr (hsign : w'.meantSign = w.meantSign) (hwhole : Text.ofDigits w'.whole = Text.ofDigits w.whole)
    (hfraction : w'.fractionDigits = w.fractionDigits) : w'.amount = w.amount := by
  rw [amount, amount, hsign, hwhole, hfraction]

/-- Digits that are all zero write zero. -/
theorem ofDigits_eq_zero {ds : Bytes} (h : ∀ c ∈ ds, c = Byte.zero) : Text.ofDigits ds = 0 := by
  have hds : ds = List.replicate ds.length Byte.zero ++ [] := by
    rw [List.append_nil]
    exact List.eq_replicate_iff.mpr ⟨rfl, h⟩
  rw [hds, Text.ofDigits_zeros_append]
  rfl

theorem amount_of_zero (h : ∀ c ∈ w.whole ++ w.fractionDigits, c = Byte.zero) : w.amount = 0 := by
  have hwhole : Text.ofDigits w.whole = 0 := ofDigits_eq_zero fun c hc => h c (List.mem_append_left _ hc)
  have hfraction : Text.ofDigits w.fractionDigits = 0 := ofDigits_eq_zero fun c hc => h c (List.mem_append_right _ hc)
  rw [amount, hwhole, hfraction]
  simp

theorem Respelling.amount (h : Respelling w w') : w'.amount = w.amount := by
  cases h with
  | leadingZeros k hsign hwhole hfraction =>
    refine amount_congr (meantSign_congr hsign) ?_ (fractionDigits_congr hfraction)
    rw [hwhole, Text.ofDigits_zeros_append]
  | plus hnone hsign hwhole hfraction =>
    refine amount_congr ?_ (congrArg _ hwhole) (fractionDigits_congr hfraction)
    rw [meantSign, meantSign, hnone, hsign]
    rfl
  | signOfZero hzero hwhole hfraction =>
    rw [amount_of_zero hzero, amount_of_zero]
    rwa [hwhole, fractionDigits_congr hfraction]
  | @endZeros f k hsome hsign hwhole hfraction =>
    have hf : w.fractionDigits = f := fractionDigits_of_some hsome
    have hf' : w'.fractionDigits = f ++ List.replicate k Byte.zero := fractionDigits_of_some hfraction
    rw [Written.amount, Written.amount, meantSign_congr hsign, hwhole, hf, hf', ofDigits_append_zeros,
      List.length_append, List.length_replicate, pow_add]
    push_cast
    field_simp
  | point hnone hsign hwhole hfraction =>
    refine amount_congr (meantSign_congr hsign) (congrArg _ hwhole) ?_
    rw [fractionDigits_of_none hnone, fractionDigits_of_some hfraction]

theorem Respelling.complete (h : Respelling w w') (hw : w.Complete) : w'.Complete := by
  cases h with
  | leadingZeros k hsign hwhole hfraction =>
    rw [Complete, hwhole, hfraction]
    exact hw.imp_left fun hne => by simp [hne]
  | plus hnone hsign hwhole hfraction => rwa [Complete, hwhole, hfraction]
  | signOfZero hzero hwhole hfraction => rwa [Complete, hwhole, hfraction]
  | endZeros k hsome hsign hwhole hfraction =>
    rw [Complete, hwhole, hfraction]
    refine hw.imp_right ?_
    rintro ⟨g, hg, hne⟩
    obtain rfl := Option.some.inj (hsome.symm.trans hg)
    exact ⟨_, rfl, by simp [hne]⟩
  | point hnone hsign hwhole hfraction =>
    rw [Complete, hwhole]
    refine Or.inl (hw.resolve_right ?_)
    rintro ⟨g, hg, -⟩
    cases hnone.symm.trans hg

theorem isNumber_text_iff : Block.IsNumber a w.text d ↔ w.Complete ∧ w.Fits a ∧ w.value = d := by
  rw [isNumber_iff]
  constructor
  · rintro ⟨v, hv, h⟩
    exact text_injective hv ▸ h
  · exact fun h => ⟨w, rfl, h⟩

/-- What does not count is taken, unless it is more zeros than can be counted. -/
theorem Respelling.isNumber (h : Respelling w w') (hw : Block.IsNumber a w.text d)
    (hrun : ¬ List.replicate Literal.maxPlaces Byte.zero <:+: w'.fractionDigits) : Block.IsNumber a w'.text d := by
  obtain ⟨hcomplete, hfit, rfl⟩ := isNumber_text_iff.mp hw
  have hvalue : w'.value = w.value := value_eq_of_amount h.amount
  refine isNumber_text_iff.mpr ⟨h.complete hcomplete, ⟨?_, ?_, hrun⟩, hvalue⟩
  · rw [hvalue]
    exact hfit.inRange
  · rw [hvalue]
    exact hfit.places_le

end Written

/-! ### Texts -/

/-- The text is a literal, and denotes the rational number `q`. -/
def HasAmount (s : Bytes) (q : ℚ) : Prop := ∃ w : Written, w.Complete ∧ w.text = s ∧ w.amount = q

/-- The texts differ in what does not count, in any number of places. -/
def Respelled (s t : Bytes) : Prop :=
  ∃ w w' : Written, w.text = s ∧ w'.text = t ∧ Relation.EqvGen Written.Respelling w w'

section

variable {a : Arithmetic} {s t : Bytes} {d e : Decimal} {q : ℚ}

theorem amount_of_eqvGen {w w' : Written} (h : Relation.EqvGen Written.Respelling w w') : w'.amount = w.amount := by
  induction h with
  | rel w w' h => exact h.amount
  | refl w => rfl
  | symm w w' _ ih => exact ih.symm
  | trans w w' w'' _ _ ih ih' => exact ih'.trans ih

/-- A number that was read has the value that its literal denotes, and no other. -/
theorem hasAmount_iff (h : Block.IsNumber a s d) : HasAmount s q ↔ d.amount = q := by
  obtain ⟨w, rfl, hcomplete, -, rfl⟩ := isNumber_iff.mp h
  rw [Written.amount_value]
  constructor
  · rintro ⟨w', -, hw', rfl⟩
    rw [Written.text_injective hw']
  · exact fun hq => ⟨w, hcomplete, rfl, hq⟩

/-- **Numbers that were read are equal exactly if their literals denote the same rational number.** In particular they
are equal if the literals differ only in what does not count. Such a change of a literal is always taken, unless the zeros of
the fraction become more than can be counted. -/
theorem equal_iff_same_amount (hs : Block.IsNumber a s d) (ht : Block.IsNumber a t e) :
    (d = e ↔ ∃ q, HasAmount s q ∧ HasAmount t q) ∧ (Respelled s t → d = e) ∧
    ∀ w w' : Written, w.text = s → Written.Respelling w w' →
      ¬ List.replicate Literal.maxPlaces Byte.zero <:+: w'.fractionDigits → Block.IsNumber a w'.text d := by
  have hiff : d = e ↔ ∃ q, HasAmount s q ∧ HasAmount t q := by
    simp only [hasAmount_iff hs, hasAmount_iff ht, exists_eq_left']
    constructor
    · exact fun h => h ▸ rfl
    · exact fun h => (Decimal.canonical_of_isNumber hs).eq_of_amount (Decimal.canonical_of_isNumber ht) h.symm
  refine ⟨hiff, ?_, ?_⟩
  · rintro ⟨w, w', rfl, rfl, h⟩
    obtain ⟨hw, -, -⟩ := Written.isNumber_text_iff.mp hs
    obtain ⟨hw', -, -⟩ := Written.isNumber_text_iff.mp ht
    exact hiff.mpr ⟨w.amount, ⟨w, hw, rfl, rfl⟩, ⟨w', hw', rfl, amount_of_eqvGen h⟩⟩
  · rintro w w' rfl h hrun
    exact h.isNumber hs hrun

/-- Both literals denote seven and a half. -/
theorem equal_iff_same_amount_padded :
    Block.IsNumber ⟨.w16, .shiftAdd⟩ (ascii "+007.50") ⟨75, 1⟩ ∧ Block.IsNumber ⟨.w16, .shiftAdd⟩ (ascii "7.5") ⟨75, 1⟩ ∧
      ∃ q, HasAmount (ascii "+007.50") q ∧ HasAmount (ascii "7.5") q := by
  have hs : Block.IsNumber ⟨.w16, .shiftAdd⟩ (ascii "+007.50") ⟨75, 1⟩ := ⟨by decide, by decide⟩
  have ht : Block.IsNumber ⟨.w16, .shiftAdd⟩ (ascii "7.5") ⟨75, 1⟩ := ⟨by decide, by decide⟩
  exact ⟨hs, ht, (equal_iff_same_amount hs ht).1.mp rfl⟩

end

end PartProgram.Number
