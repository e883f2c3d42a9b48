import PartProgram.Host.Moment

/-!
# Durations

The summary tells how long the work took, in seconds with three places. The duration is
computed with binary fractions of 53 significant digits, and every step is rounded to one: the
differences of seconds and of microseconds, the microseconds divided down, and the sum. Half
a thousandth is therefore rounded by the binary fraction nearest to it, not by the decimal
one. A half goes to the even neighbour everywhere.
-/

namespace PartProgram.Tool

/-- The integer nearest to `x`, the even one of two. -/
def nearestInt (x : Rat) : Int :=
  let below := x.floor
  let rest := x - below
  if rest < 1 / 2 then below
  else if 1 / 2 < rest then below + 1
  else if below % 2 = 0 then below
  else below + 1

/-- The magnitude of a number. -/
def magnitude (x : Rat) : Rat := if x < 0 then -x else x

/-- The exponent of the greatest power of two that is not above `x`, for `x` above zero. -/
def binaryExponent (x : Rat) : Int :=
  let e : Int := (x.num.natAbs.log2 : Int) - x.den.log2
  if (2 : Rat) ^ e ≤ x then e else e - 1

/-- The binary fraction of 53 significant digits nearest to `x`. -/
def nearestBinary (x : Rat) : Rat :=
  if x = 0 then 0
  else
    let scale := (2 : Rat) ^ (52 - binaryExponent (magnitude x))
    nearestInt (x * scale) / scale

/-- The difference of two counts in 64 bits. -/
def difference (later earlier : Int) : Int := (later - earlier).bmod 0x10000000000000000

/-- The seconds between two moments. -/
def duration (start stop : Moment) : Rat :=
  let seconds := nearestBinary (difference stop.seconds start.seconds)
  let micros := nearestBinary (difference stop.micros start.micros)
  nearestBinary (seconds + nearestBinary (micros / 1000000))

/-- A number with three places. -/
def threePlaces (x : Rat) : Bytes :=
  let thousandths := (nearestInt (magnitude x * 1000)).natAbs
  (if x < 0 then [Byte.minus] else []) ++ Text.numeral (thousandths / 1000) ++ ascii "." ++
    Text.paddedNumeral 3 (thousandths % 1000)

end PartProgram.Tool
