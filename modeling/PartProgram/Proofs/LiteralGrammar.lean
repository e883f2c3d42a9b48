import PartProgram.Number.Literal
import PartProgram.Proofs.Scaling
import Mathlib.Data.List.DropRight
import Mathlib.Data.List.Infix

/-!
# The grammar of decimal literals

A decimal literal is `[+-]?(D+(.D*)?|.D+)`, where `D` is a digit. A text that a literal begins
with consists of the same parts, some of them missing: a sign, digits, and after a point more
digits. `Written` has these parts, and the literals are the texts of the complete ones
(`IsLiteral`). That every beginning of a literal has parts, and only one choice of them, is
`isBeginning_iff` and `Written.text_injective`.

The value of the parts is read off them without regard to the order of reading
(`Written.value`): zeros at the end of the fraction are dropped, and the significand is the number
that all remaining digits write. It fits (`Written.Fits`) if the significand is in range, the
places can be counted, and so can every run of zeros in the fraction.
-/

namespace PartProgram.Number

/-! ### The parts of a literal -/

/-- All bytes are digits. -/
def IsDigits (ds : Bytes) : Prop := ∀ c ∈ ds, Byte.isDigit c

theorem isDigits_nil : IsDigits [] := fun _ h => absurd h List.not_mem_nil

theorem isDigits_append {ds es : Bytes} : IsDigits (ds ++ es) ↔ IsDigits ds ∧ IsDigits es := by
  simp only [IsDigits, List.mem_append]
  exact ⟨fun h => ⟨fun c hc => h c (Or.inl hc), fun c hc => h c (Or.inr hc)⟩,
    fun h c hc => hc.elim (h.1 c) (h.2 c)⟩

theorem isDigits_singleton {c : UInt8} : IsDigits [c] ↔ Byte.isDigit c := by
  simp [IsDigits]

/-- The byte that a sign is written with. -/
def Sign.byte : Sign → UInt8
  | .positive => Byte.plus
  | .negative => Byte.minus

/-- The parts of a literal, or of the beginning of one. -/
structure Written where
  /-- The sign, if one is written. -/
  sign : Option Sign := none
  /-- The digits before the point. -/
  whole : Bytes := []
  /-- The digits after the point, if there is one. -/
  fraction : Option Bytes := none
  whole_digits : IsDigits whole := by exact isDigits_nil
  fraction_digits : ∀ f ∈ fraction, IsDigits f := by simp

namespace Written

variable {w w' : Written} {c : UInt8} {p : Bytes}

@[ext] theorem ext (h₁ : w.sign = w'.sign) (h₂ : w.whole = w'.whole) (h₃ : w.fraction = w'.fraction) :
    w = w' := by
  cases w; cases w'; simp_all

/-- The sign as text. -/
def signText (w : Written) : Bytes := (w.sign.map Sign.byte).toList

/-- The point and the digits after it. -/
def pointText (w : Written) : Bytes :=
  match w.fraction with
  | none => []
  | some f => Byte.point :: f

/-- The text of the parts. -/
def text (w : Written) : Bytes := w.signText ++ (w.whole ++ w.pointText)

/-- The parts are those of a whole literal: there is a digit. -/
def Complete (w : Written) : Prop := w.whole ≠ [] ∨ ∃ f, w.fraction = some f ∧ f ≠ []

/-! ### One byte more -/

/-- Another digit before the point. -/
def appendWhole (w : Written) (c : UInt8) (hc : Byte.isDigit c) : Written where
  sign := w.sign
  whole := w.whole ++ [c]
  fraction := w.fraction
  whole_digits := isDigits_append.mpr ⟨w.whole_digits, isDigits_singleton.mpr hc⟩
  fraction_digits := w.fraction_digits

@[simp] theorem whole_appendWhole (w : Written) (c : UInt8) (hc : Byte.isDigit c) :
    (w.appendWhole c hc).whole = w.whole ++ [c] := rfl

/-- The given digits after the point. -/
def withFraction (w : Written) (f : Bytes) (hf : IsDigits f) : Written where
  sign := w.sign
  whole := w.whole
  fraction := some f
  whole_digits := w.whole_digits
  fraction_digits := by
    rintro _ ⟨⟩
    exact hf

@[simp] theorem whole_withFraction (w : Written) (f : Bytes) (hf : IsDigits f) :
    (w.withFraction f hf).whole = w.whole := rfl

/-- `Extends w c w'`: writing the byte `c` after the parts `w` gives the parts `w'`. -/
inductive Extends : Written → UInt8 → Written → Prop where
  /-- A sign, before anything else. -/
  | sign (s : Sign) : Extends {} s.byte { sign := some s }
  /-- A digit before the point. -/
  | whole {w : Written} {c : UInt8} (h : w.fraction = none) (hc : Byte.isDigit c) :
      Extends w c (w.appendWhole c hc)
  /-- The point. -/
  | point {w : Written} (h : w.fraction = none) : Extends w Byte.point (w.withFraction [] isDigits_nil)
  /-- A digit after the point. -/
  | fraction {w : Written} {f : Bytes} {c : UInt8} (h : w.fraction = some f) (hc : IsDigits (f ++ [c])) :
      Extends w c (w.withFraction (f ++ [c]) hc)

theorem Extends.text (h : Extends w c w') : w'.text = w.text ++ [c] := by
  cases h with
  | sign s => simp [Written.text, signText, pointText]
  | whole h hc => simp [Written.text, signText, pointText, appendWhole, h]
  | point h => simp [Written.text, signText, pointText, withFraction, h]
  | fraction h hc => simp [Written.text, signText, pointText, withFraction, h]

/-- The last byte of a text can be taken off its parts. -/
theorem exists_extends (h : w'.text = p ++ [c]) : ∃ w, w.text = p ∧ Extends w c w' := by
  suffices ∃ w d, Extends w d w' by
    obtain ⟨w, d, hw⟩ := this
    obtain ⟨rfl, hd⟩ := List.append_inj' (h.symm.trans hw.text) rfl
    obtain rfl : c = d := by simpa using hd
    exact ⟨w, rfl, hw⟩
  obtain ⟨sign, whole, fraction, hwhole, hfraction⟩ := w'
  cases fraction with
  | some f =>
    rcases List.eq_nil_or_concat' f with rfl | ⟨g, d, rfl⟩
    · exact ⟨⟨sign, whole, none, hwhole, by simp⟩, _, Extends.point rfl⟩
    · have hg := hfraction _ rfl
      exact ⟨⟨sign, whole, some g, hwhole, by simpa using (isDigits_append.mp hg).1⟩, d, Extends.fraction rfl hg⟩
  | none =>
    rcases List.eq_nil_or_concat' whole with rfl | ⟨ds, d, rfl⟩
    · cases sign with
      | none => simp [Written.text, signText, pointText] at h
      | some s => exact ⟨{}, _, Extends.sign s⟩
    · have hd := isDigits_append.mp hwhole
      exact ⟨⟨sign, ds, none, hd.1, by simp⟩, d, Extends.whole rfl (isDigits_singleton.mp hd.2)⟩

/-! ### The parts of a text are determined by it -/

theorem not_isDigit_point : Byte.isDigit Byte.point = false := by decide

theorem not_isDigit_sign (s : Sign) : Byte.isDigit s.byte = false := by cases s <;> decide

theorem sign_byte_ne_point (s : Sign) : s.byte ≠ Byte.point := by cases s <;> decide

theorem sign_byte_injective {s s' : Sign} (h : s.byte = s'.byte) : s = s' := by
  revert h
  cases s <;> cases s' <;> decide

/-- What stands after the sign does not start with a sign. -/
theorem ne_sign_of_mem_head (w : Written) (s : Sign) : (w.whole ++ w.pointText).head? ≠ some s.byte := by
  intro h
  cases hw : w.whole with
  | nil =>
    rw [hw, List.nil_append, pointText] at h
    split at h
    · simp at h
    · simp only [List.head?_cons, Option.some.injEq] at h
      exact sign_byte_ne_point s h.symm
  | cons d ds =>
    simp only [hw, List.cons_append, List.head?_cons, Option.some.injEq] at h
    have hd := w.whole_digits d (by simp [hw])
    rw [h, not_isDigit_sign] at hd
    exact absurd hd (by decide)

/-- The digits before the point are all digits that the rest starts with. -/
theorem takeWhile_isDigit (w : Written) : (w.whole ++ w.pointText).takeWhile Byte.isDigit = w.whole := by
  rw [List.takeWhile_append_of_pos w.whole_digits]
  have : w.pointText.takeWhile Byte.isDigit = [] := by
    rw [pointText]
    split
    · rfl
    · exact List.takeWhile_cons_of_neg (by simp [not_isDigit_point])
  rw [this, List.append_nil]

theorem fraction_eq_of_pointText (h : w.pointText = w'.pointText) : w.fraction = w'.fraction := by
  cases hf : w.fraction <;> cases hf' : w'.fraction <;> simp_all [pointText]

/-- A text has one choice of parts. -/
theorem text_injective (h : w.text = w'.text) : w = w' := by
  have hsign : w.sign = w'.sign := by
    cases hs : w.sign with
    | none =>
      cases hs' : w'.sign with
      | none => rfl
      | some s =>
        refine absurd ?_ (ne_sign_of_mem_head w s)
        simp only [text, signText, hs, hs', Option.map_none, Option.map_some, Option.toList_none,
          Option.toList_some, List.nil_append, List.singleton_append] at h
        simp [h]
    | some s =>
      cases hs' : w'.sign with
      | none =>
        refine absurd ?_ (ne_sign_of_mem_head w' s)
        simp only [text, signText, hs, hs', Option.map_none, Option.map_some, Option.toList_none,
          Option.toList_some, List.nil_append, List.singleton_append] at h
        simp [← h]
      | some s' =>
        simp only [text, signText, hs, hs', Option.map_some, Option.toList_some, List.singleton_append,
          List.cons.injEq] at h
        rw [sign_byte_injective h.1]
  have hrest : w.whole ++ w.pointText = w'.whole ++ w'.pointText := by
    simpa [text, signText, hsign] using h
  have hwhole : w.whole = w'.whole := by
    rw [← takeWhile_isDigit w, ← takeWhile_isDigit w', hrest]
  rw [hwhole] at hrest
  exact ext hsign hwhole (fraction_eq_of_pointText (List.append_cancel_left hrest))

/-- What the parts can be written on to. -/
theorem extends_iff : Extends w c w' ↔ w'.text = w.text ++ [c] := by
  constructor
  · exact Extends.text
  · intro h
    obtain ⟨v, hv, he⟩ := exists_extends h
    exact text_injective hv ▸ he

end Written

/-! ### Literals and their beginnings -/

/-- The literals, `[+-]?(D+(.D*)?|.D+)`. -/
def IsLiteral (s : Bytes) : Prop := ∃ w : Written, w.Complete ∧ w.text = s

/-- A text that some literal begins with. -/
def IsBeginning (p : Bytes) : Prop := ∃ t, IsLiteral (p ++ t)

/-- Any parts become those of a literal with one more digit. -/
theorem Written.exists_complete (w : Written) : ∃ w' : Written, w'.Complete ∧ w'.text = w.text ++ [Byte.zero] := by
  cases hf : w.fraction with
  | none =>
    refine ⟨w.appendWhole Byte.zero (by decide), Or.inl ?_, (Extends.whole hf _).text⟩
    simp [appendWhole]
  | some f =>
    have hd : IsDigits (f ++ [Byte.zero]) :=
      isDigits_append.mpr ⟨w.fraction_digits f hf, isDigits_singleton.mpr (by decide)⟩
    exact ⟨w.withFraction _ hd, Or.inr ⟨_, rfl, by simp⟩, (Extends.fraction hf hd).text⟩

/-- The beginnings of literals are the texts that have parts. -/
theorem isBeginning_iff {p : Bytes} : IsBeginning p ↔ ∃ w : Written, w.text = p := by
  constructor
  · rintro ⟨t, w, -, hw⟩
    -- Take the bytes of `t` off the parts, from the last one on.
    induction t using List.reverseRecOn generalizing w with
    | nil => exact ⟨w, by simpa using hw⟩
    | append_singleton t c ih =>
      rw [← List.append_assoc] at hw
      obtain ⟨v, hv, -⟩ := Written.exists_extends hw
      exact ih v hv
  · rintro ⟨w, rfl⟩
    obtain ⟨w', hc, ht⟩ := w.exists_complete
    exact ⟨[Byte.zero], w', hc, ht⟩

/-! ### Values -/

/-- The digits of a fraction without the zeros at its end. -/
def significant (f : Bytes) : Bytes := f.rdropWhile (· == Byte.zero)

/-- How many zeros a fraction ends in. -/
def endZeros (f : Bytes) : Nat := (f.rtakeWhile (· == Byte.zero)).length

theorem length_significant (f : Bytes) : (significant f).length + endZeros f = f.length := by
  rw [significant, endZeros, ← List.length_append, List.rdropWhile_append_rtakeWhile]

theorem significant_append_zero (f : Bytes) : significant (f ++ [Byte.zero]) = significant f :=
  List.rdropWhile_concat_pos _ _ _ (by simp)

theorem significant_append {c : UInt8} (f : Bytes) (hc : c ≠ Byte.zero) : significant (f ++ [c]) = f ++ [c] :=
  List.rdropWhile_concat_neg _ _ _ (by simpa using hc)

theorem endZeros_append_zero (f : Bytes) : endZeros (f ++ [Byte.zero]) = endZeros f + 1 := by
  rw [endZeros, List.rtakeWhile_concat_pos _ _ _ (by simp), List.length_append, List.length_singleton, endZeros]

theorem endZeros_append {c : UInt8} (f : Bytes) (hc : c ≠ Byte.zero) : endZeros (f ++ [c]) = 0 := by
  rw [endZeros, List.rtakeWhile_concat_neg _ _ _ (by simpa using hc), List.length_nil]

/-- A fraction is its significant digits and the zeros at its end. -/
theorem significant_append_endZeros (f : Bytes) :
    significant f ++ List.replicate (endZeros f) Byte.zero = f := by
  have hz : f.rtakeWhile (· == Byte.zero) = List.replicate (endZeros f) Byte.zero :=
    List.eq_replicate_iff.mpr ⟨rfl, fun c hc => by simpa using List.mem_rtakeWhile_imp hc⟩
  rw [significant, ← hz, List.rdropWhile_append_rtakeWhile]

/-- The zeros at the end are all that a run of zeros can end with. -/
theorem replicate_suffix_iff {n : Nat} {f : Bytes} :
    List.replicate n Byte.zero <:+ f ↔ n ≤ endZeros f := by
  constructor
  · rintro ⟨t, rfl⟩
    rw [endZeros, List.rtakeWhile, List.length_reverse, List.reverse_append, List.reverse_replicate,
      List.takeWhile_append_of_pos (by simp), List.length_append, List.length_replicate]
    exact Nat.le_add_right _ _
  · intro h
    refine ⟨significant f ++ List.replicate (endZeros f - n) Byte.zero, ?_⟩
    rw [List.append_assoc, ← List.replicate_add, Nat.sub_add_cancel h, significant_append_endZeros]

theorem ofDigits_append_digit (ds : Bytes) (c : UInt8) :
    Text.ofDigits (ds ++ [c]) = Text.ofDigits ds * 10 + Byte.digitValue c := by
  simp [Text.ofDigits, List.foldl_append, Nat.mul_comm]

theorem ofDigits_append_zeros (ds : Bytes) (k : Nat) :
    Text.ofDigits (ds ++ List.replicate k Byte.zero) = Text.ofDigits ds * 10 ^ k := by
  induction k with
  | zero => simp
  | succ k ih =>
    have hz : Byte.digitValue Byte.zero = 0 := by decide
    rw [List.replicate_succ', ← List.append_assoc, ofDigits_append_digit, ih, hz, pow_succ, Nat.mul_assoc,
      Nat.add_zero]

namespace Written

/-- The digits after the point, none if there is no point. -/
def fractionDigits (w : Written) : Bytes := w.fraction.getD []

/-- The sign that is meant. -/
def meantSign (w : Written) : Sign := w.sign.getD .positive

/-- The number that the digits write, without the zeros at the end of the fraction. -/
def magnitude (w : Written) : Nat := Text.ofDigits (w.whole ++ significant w.fractionDigits)

@[simp] theorem fractionDigits_appendWhole (w : Written) (c : UInt8) (hc : Byte.isDigit c) :
    (w.appendWhole c hc).fractionDigits = w.fractionDigits := rfl

@[simp] theorem fractionDigits_withFraction (w : Written) (f : Bytes) (hf : IsDigits f) :
    (w.withFraction f hf).fractionDigits = f := rfl

@[simp] theorem meantSign_appendWhole (w : Written) (c : UInt8) (hc : Byte.isDigit c) :
    (w.appendWhole c hc).meantSign = w.meantSign := rfl

@[simp] theorem meantSign_withFraction (w : Written) (f : Bytes) (hf : IsDigits f) :
    (w.withFraction f hf).meantSign = w.meantSign := rfl

/-- The value of the parts. -/
def value (w : Written) : Decimal where
  significand := w.meantSign.signed w.magnitude
  places := (significant w.fractionDigits).length

/-- The value fits: the significand is in range, the places can be counted, and so could every
run of zeros after the point. -/
structure Fits (a : Arithmetic) (w : Written) : Prop where
  inRange : a.width.InRange w.value.significand
  places_le : w.value.places ≤ Literal.maxPlaces
  no_run : ¬ List.replicate Literal.maxPlaces Byte.zero <:+: w.fractionDigits

end Written

/-- `Denotes p d`: the value of the text `p`, a literal or the beginning of one, is `d`. -/
def Denotes (p : Bytes) (d : Decimal) : Prop := ∃ w : Written, w.text = p ∧ w.value = d

/-- The text is a literal or the beginning of one, and its value fits. -/
def FitsText (a : Arithmetic) (p : Bytes) : Prop := ∃ w : Written, w.text = p ∧ w.Fits a

theorem fitsText_text {a : Arithmetic} {w : Written} : FitsText a w.text ↔ w.Fits a := by
  constructor
  · rintro ⟨w', h, hw'⟩
    exact Written.text_injective h ▸ hw'
  · intro h
    exact ⟨w, rfl, h⟩

theorem denotes_text {w : Written} {d : Decimal} : Denotes w.text d ↔ w.value = d := by
  constructor
  · rintro ⟨w', h, hw'⟩
    exact Written.text_injective h ▸ hw'
  · intro h
    exact ⟨w, rfl, h⟩

theorem isLiteral_text {w : Written} : IsLiteral w.text ↔ w.Complete := by
  constructor
  · rintro ⟨w', h, hw'⟩
    exact Written.text_injective hw' ▸ h
  · intro h
    exact ⟨w, h, rfl⟩

end PartProgram.Number
