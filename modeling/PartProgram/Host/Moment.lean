import PartProgram.Text.Numeral

/-!
# Moments

A moment is a number of seconds since the start of 1970, in universal time, and a number of
microseconds. It is written as a date and a time of day with six places.

For the date, the days are counted from the first of March of the year 0, so that a leap day
is the last day of its year, of its four years and, every fourth time, of its century, and four
hundred years always have 146097 days.
-/

namespace PartProgram

/-- A reading of the clock. -/
structure Moment where
  /-- Seconds since the start of 1970. -/
  seconds : Int := 0
  /-- Microseconds after that. -/
  micros : Int := 0
  deriving DecidableEq, Repr, Inhabited

namespace Moment

/-- A date of the Gregorian calendar. -/
structure Date where
  /-- The year. -/
  year : Int
  /-- The month, from one. -/
  month : Nat
  /-- The day of the month, from one. -/
  day : Nat
  deriving DecidableEq, Repr

/-- The date with the given number of days after the first of March of a year. The months from March on have
31, 30, 31, 30 and 31 days, over and over. -/
def Date.ofMarch (year : Int) (days : Nat) : Date :=
  let month := (5 * days + 2) / 153
  let day := days - (153 * month + 2) / 5 + 1
  if month < 10 then { year, month := month + 3, day } else { year := year + 1, month := month - 9, day }

/-- The date with the given number of days after the start of 1970. The last of four centuries, and the last of four
years, can have one day more than the others. -/
def Date.ofDays (days : Int) : Date :=
  let sinceMarch0 := days + 719468
  let era := sinceMarch0.fdiv 146097
  let dayOfEra := (sinceMarch0.fmod 146097).toNat
  let century := min 3 (dayOfEra / 36524)
  let dayOfCentury := dayOfEra - 36524 * century
  let leapCycle := dayOfCentury / 1461
  let dayOfCycle := dayOfCentury % 1461
  let year := min 3 (dayOfCycle / 365)
  .ofMarch (400 * era + 100 * century + 4 * leapCycle + year) (dayOfCycle - 365 * year)

/-- The date of a moment. -/
def date (m : Moment) : Date := .ofDays (m.seconds.fdiv 86400)

/-- The seconds of a moment's day that are over. -/
def secondOfDay (m : Moment) : Nat := (m.seconds.fmod 86400).toNat

/-- The moment as `YYYY-MM-DD HH:MM:SS.uuuuuu`. -/
def text (m : Moment) : Bytes :=
  let d := m.date
  let s := m.secondOfDay
  Text.intNumeral d.year ++ ascii "-" ++ Text.paddedNumeral 2 d.month ++ ascii "-" ++
    Text.paddedNumeral 2 d.day ++ ascii " " ++ Text.paddedNumeral 2 (s / 3600) ++ ascii ":" ++
    Text.paddedNumeral 2 (s / 60 % 60) ++ ascii ":" ++ Text.paddedNumeral 2 (s % 60) ++
    ascii "." ++ Text.paddedIntNumeral 6 m.micros

end Moment

end PartProgram
