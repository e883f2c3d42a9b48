import PartProgram.Host.Moment
import PartProgram.Proofs.PlainNotation
import Mathlib.Algebra.BigOperators.Intervals
import Mathlib.Tactic.IntervalCases

/-!
# Dates and times of day

What it means that a text tells a moment, without a word about how the text is made (`Tells`): it has a date, which
is so many days after the start of 1970 as the years, the months and the days before it have together (`IsDay`), the
hours, minutes and seconds of the day, and the microseconds. The text of every moment tells it (`tells_text`).
-/

namespace PartProgram

namespace Text

open Number

variable {width n : Nat}

/-- Digits that denote a number, `width` of them, or more if the number has more. -/
structure IsPadded (width n : Nat) (t : Bytes) : Prop where
  digits : IsDigits t
  number : ofDigits t = n
  length : width ≤ t.length
  short : width < t.length → t.head? ≠ some Byte.zero

/-- The same for an integer. A minus sign counts for the width. -/
def IsSigned (width : Nat) (i : Int) (t : Bytes) : Prop :=
  if i < 0 then ∃ u, t = Byte.minus :: u ∧ IsPadded (width - 1) i.natAbs u else IsPadded width i.natAbs t

theorem isPadded_paddedNumeral (hn : 1 ≤ width ∨ 0 < n) : IsPadded width n (paddedNumeral width n) where
  digits := by
    rw [paddedNumeral, isDigits_append]
    exact ⟨Decimal.isDigits_zeros _, isDigits_numeral n⟩
  number := by rw [paddedNumeral, ofDigits_zeros_append, ofDigits_numeral]
  length := by
    rw [paddedNumeral, List.length_append, List.length_replicate]
    omega
  short := by
    rw [paddedNumeral, List.length_append, List.length_replicate]
    intro hlong
    have hfill : width - (numeral n).length = 0 := by omega
    rw [hfill, List.replicate_zero, List.nil_append]
    apply head?_numeral_ne_zero
    by_contra hzero
    have hnil : n = 0 := by omega
    subst hnil
    have hone : (numeral 0).length = 1 := rfl
    omega

theorem isSigned_paddedIntNumeral (hwidth : 1 ≤ width) (i : Int) : IsSigned width i (paddedIntNumeral width i) := by
  rw [IsSigned, paddedIntNumeral]
  split_ifs with hi
  · exact ⟨_, rfl, isPadded_paddedNumeral (by omega)⟩
  · exact isPadded_paddedNumeral (Or.inl hwidth)

/-- A numeral is never shorter than one digit. -/
theorem intNumeral_eq_padded (i : Int) : intNumeral i = paddedIntNumeral 1 i := by
  have hfill (n : Nat) : 1 - (numeral n).length = 0 := by
    have := List.length_pos_iff.mpr (numeral_ne_nil n)
    omega
  rw [intNumeral, paddedIntNumeral, paddedNumeral, paddedNumeral, hfill]
  simp

end Text

namespace Moment

open Text

/-! ### The calendar -/

/-- Every fourth year has a leap day, but of the years that end a century only every fourth one. -/
def IsLeap (year : Int) : Prop := 4 ∣ year ∧ (100 ∣ year → 400 ∣ year)

instance (year : Int) : Decidable (IsLeap year) := inferInstanceAs (Decidable (_ ∧ _))

/-- The days of a year. -/
def yearLength (year : Int) : Nat := if IsLeap year then 366 else 365

/-- The days of a month. -/
def monthLength (year : Int) (month : Nat) : Nat :=
  if month = 2 then if IsLeap year then 29 else 28
  else if month = 4 ∨ month = 6 ∨ month = 9 ∨ month = 11 then 30
  else 31

/-- The days from the start of 1970 to that of a year. They are negative for the years before. -/
def daysToYear (year : Int) : Int :=
  ∑ i ∈ Finset.range (year - 1970).toNat, (yearLength (1970 + i) : Int) -
    ∑ i ∈ Finset.range (1970 - year).toNat, (yearLength (1969 - i) : Int)

/-- The date is a day of the calendar, and comes so many days after the start of 1970. -/
structure Date.IsDay (date : Date) (days : Int) : Prop where
  month : 1 ≤ date.month ∧ date.month ≤ 12
  day : 1 ≤ date.day ∧ date.day ≤ monthLength date.year date.month
  count : days = daysToYear date.year + ∑ m ∈ Finset.Ico 1 date.month, (monthLength date.year m : Int) + (date.day - 1)

/-- The leap days of the years from 1 on, counted backwards for years before. -/
def leapDays (year : Int) : Int := year / 4 - year / 100 + year / 400

theorem leapDays_add_one (year : Int) :
    leapDays (year + 1) = leapDays year + if IsLeap (year + 1) then 1 else 0 := by
  simp only [leapDays, IsLeap]
  split_ifs <;> omega

theorem yearLength_eq (year : Int) : (yearLength year : Int) = 365 + leapDays year - leapDays (year - 1) := by
  have hleap := leapDays_add_one (year - 1)
  rw [sub_add_cancel] at hleap
  rw [yearLength]
  split_ifs at hleap ⊢ <;> omega

theorem sum_yearLength_later (n : Nat) :
    ∑ i ∈ Finset.range n, (yearLength (1970 + i) : Int) = 365 * n + leapDays (1969 + n) - leapDays 1969 := by
  induction n with
  | zero => simp
  | succ n ih =>
    rw [Finset.sum_range_succ, ih, yearLength_eq]
    have hpred : (1970 : Int) + n - 1 = 1969 + n := by omega
    have hsucc : (1969 : Int) + (n + 1 : Nat) = 1970 + n := by omega
    rw [hpred, hsucc]
    omega

theorem sum_yearLength_earlier (n : Nat) :
    ∑ i ∈ Finset.range n, (yearLength (1969 - i) : Int) = 365 * n + leapDays 1969 - leapDays (1969 - n) := by
  induction n with
  | zero => simp
  | succ n ih =>
    rw [Finset.sum_range_succ, ih, yearLength_eq]
    have hpred : (1969 : Int) - (n + 1 : Nat) = 1969 - n - 1 := by omega
    rw [hpred]
    omega

theorem daysToYear_eq (year : Int) : daysToYear year = 365 * (year - 1970) + leapDays (year - 1) - leapDays 1969 := by
  rw [daysToYear, sum_yearLength_later, sum_yearLength_earlier]
  rcases le_total 1970 year with hyear | hyear
  · have hlater : (1969 : Int) + (year - 1970).toNat = year - 1 := by omega
    have hearlier : (1970 - year).toNat = 0 := by omega
    rw [hlater, hearlier, Nat.cast_zero, sub_zero]
    omega
  · have hlater : (year - 1970).toNat = 0 := by omega
    have hearlier : (1969 : Int) - (1970 - year).toNat = year - 1 := by omega
    rw [hlater, hearlier, Nat.cast_zero, add_zero]
    omega

/-! ### Dates from days -/

/-- The months from March on, up to December. -/
theorem monthLength_from_march (year : Int) {m : Nat} (hm : m < 10) :
    monthLength year (m + 3) = (153 * (m + 1) + 2) / 5 - (153 * m + 2) / 5 := by
  interval_cases m <;> rfl

theorem sum_monthLength (year : Int) {m : Nat} (hm : m < 10) :
    ∑ i ∈ Finset.Ico 1 (m + 3), (monthLength year i : Int) =
      59 + (if IsLeap year then 1 else 0) + ((153 * m + 2) / 5 : Nat) := by
  induction m with
  | zero =>
    rw [Finset.sum_Ico_succ_top (by decide), Finset.sum_Ico_succ_top (by decide)]
    have hjanuary : monthLength year 1 = 31 := rfl
    have hfebruary : monthLength year 2 = if IsLeap year then 29 else 28 := rfl
    rw [Finset.Ico_self, Finset.sum_empty, hjanuary, hfebruary]
    split_ifs <;> rfl
  | succ m ih =>
    rw [Finset.sum_Ico_succ_top (by omega), ih (by omega), monthLength_from_march year (by omega)]
    omega

/-- The first of March of a year. -/
theorem daysToYear_add_winter (year : Int) :
    daysToYear year + (59 + if IsLeap year then 1 else 0) = 365 * year + leapDays year - 719468 := by
  have hepoch : leapDays 1969 = 477 := by decide
  have hleap := leapDays_add_one (year - 1)
  rw [sub_add_cancel] at hleap
  rw [daysToYear_eq, hepoch, hleap]
  omega

/-- The end of the year, 306 days after the first of March. -/
theorem daysToYear_add_one (year : Int) : daysToYear (year + 1) = 365 * year + leapDays year - 719468 + 306 := by
  have hepoch : leapDays 1969 = 477 := by decide
  rw [daysToYear_eq, add_sub_cancel_right, hepoch]
  omega

/-- The days after the first of March of a year, through to the end of the next February. -/
theorem Date.isDay_ofMarch (year : Int) {days : Nat} (hdays : days < 365 + if IsLeap (year + 1) then 1 else 0) :
    (Date.ofMarch year days).IsDay (365 * year + leapDays year - 719468 + days) := by
  rw [Date.ofMarch]
  split_ifs with hmonth
  · refine ⟨⟨by simp, by simp; omega⟩, ⟨by simp, ?_⟩, ?_⟩
    · simp only [monthLength_from_march year hmonth]
      omega
    · simp only [← daysToYear_add_winter, sum_monthLength year hmonth]
      omega
  · -- January and February are of the next year.
    have hcases : (5 * days + 2) / 153 = 10 ∨ (5 * days + 2) / 153 = 11 := by
      split_ifs at hdays <;> omega
    rcases hcases with hjanuary | hfebruary
    · rw [hjanuary] at hmonth ⊢
      have hlength : monthLength (year + 1) 1 = 31 := rfl
      refine ⟨by simp, ⟨by simp, ?_⟩, ?_⟩
      · simp only [hlength]
        omega
      · simp only [daysToYear_add_one, Finset.Ico_self, Finset.sum_empty]
        omega
    · rw [hfebruary] at hmonth ⊢
      have hlength : monthLength (year + 1) 2 = if IsLeap (year + 1) then 29 else 28 := rfl
      refine ⟨by simp, ⟨by simp, ?_⟩, ?_⟩
      · simp only [hlength]
        split_ifs at hdays ⊢ <;> omega
      · have hbefore : ∑ i ∈ Finset.Ico 1 2, (monthLength (year + 1) i : Int) = 31 := rfl
        simp only [daysToYear_add_one, hbefore]
        omega

section

variable {era : Int} {century cycle year : Nat}

/-- A century has 24 leap days, and the last one of four has one more. -/
theorem leapDays_cycles (hcentury : century ≤ 3) (hcycle : cycle ≤ 24) (hyear : year ≤ 3) :
    leapDays (400 * era + 100 * century + 4 * cycle + year) = 97 * era + 24 * century + cycle := by
  rw [leapDays]
  omega

theorem isLeap_cycles_add_one (hcentury : century ≤ 3) (hcycle : cycle ≤ 24) (hyear : year ≤ 3) :
    IsLeap (400 * era + 100 * century + 4 * cycle + year + 1) ↔ year = 3 ∧ (cycle = 24 → century = 3) := by
  rw [IsLeap]
  omega

end

theorem Date.isDay_ofDays (days : Int) : (Date.ofDays days).IsDay days := by
  rw [Date.ofDays, Int.fdiv_eq_ediv_of_nonneg _ (by decide), Int.fmod_eq_emod_of_nonneg _ (by decide)]
  generalize hera : (days + 719468) / 146097 = era
  generalize hdayOfEra : ((days + 719468) % 146097).toNat = dayOfEra
  generalize hcentury : min 3 (dayOfEra / 36524) = century
  generalize hdayOfCentury : dayOfEra - 36524 * century = dayOfCentury
  generalize hcycle : dayOfCentury / 1461 = cycle
  generalize hdayOfCycle : dayOfCentury % 1461 = dayOfCycle
  generalize hyear : min 3 (dayOfCycle / 365) = year
  obtain ⟨hcentury', hcycle', hyear'⟩ : century ≤ 3 ∧ cycle ≤ 24 ∧ year ≤ 3 := by omega
  have hleap : IsLeap (400 * era + 100 * century + 4 * cycle + year + 1) ↔ year = 3 ∧ (cycle = 24 → century = 3) :=
    isLeap_cycles_add_one hcentury' hcycle' hyear'
  have hday : dayOfCycle - 365 * year <
      365 + if IsLeap (400 * era + 100 * century + 4 * cycle + year + 1) then 1 else 0 := by
    simp only [hleap]
    split_ifs <;> omega
  convert Date.isDay_ofMarch _ hday using 1
  rw [leapDays_cycles hcentury' hcycle' hyear']
  omega

/-! ### Texts -/

/-- The text tells the moment: a date, a time of day, and six digits for the microseconds. -/
inductive Tells (moment : Moment) : Bytes → Prop where
  | intro {date : Date} {days : Int} {hour minute second : Nat} {year month day h m s micros : Bytes}
      (hdate : date.IsDay days) (hhour : hour < 24) (hminute : minute < 60) (hsecond : second < 60)
      (hseconds : moment.seconds = ((days * 24 + hour) * 60 + minute) * 60 + second)
      (hyear : IsSigned 1 date.year year) (hmonth : IsPadded 2 date.month month) (hday : IsPadded 2 date.day day)
      (hh : IsPadded 2 hour h) (hm : IsPadded 2 minute m) (hs : IsPadded 2 second s)
      (hmicros : IsSigned 6 moment.micros micros) :
      Tells moment (year ++ ascii "-" ++ month ++ ascii "-" ++ day ++ ascii " " ++ h ++ ascii ":" ++ m ++ ascii ":" ++
        s ++ ascii "." ++ micros)

/-- **The text of a moment tells it.** -/
theorem tells_text (moment : Moment) : moment.Tells moment.text := by
  have hclock : (moment.secondOfDay : Int) = moment.seconds % 86400 := by
    rw [secondOfDay, Int.fmod_eq_emod_of_nonneg _ (by decide), Int.toNat_of_nonneg (by omega)]
  have htwo (n : Nat) : IsPadded 2 n (paddedNumeral 2 n) := isPadded_paddedNumeral (Or.inl (by decide))
  rw [text]
  refine .intro (Date.isDay_ofDays _) ?_ ?_ ?_ ?_ ?_ (htwo _) (htwo _) (htwo _) (htwo _) (htwo _)
    (isSigned_paddedIntNumeral (by decide) _)
  · omega
  · omega
  · omega
  · rw [Int.fdiv_eq_ediv_of_nonneg _ (by decide)]
    omega
  · rw [intNumeral_eq_padded]
    exact isSigned_paddedIntNumeral le_rfl _

end Moment

end PartProgram
