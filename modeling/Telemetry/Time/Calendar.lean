/-!
# Dates and times of day

Milliseconds since the epoch as a date of the proleptic Gregorian calendar with a time of day in
universal time, and its text after RFC 3339. A year outside 0 to 9999 is written with its sign.
-/

namespace Telemetry

/-- A date of the proleptic Gregorian calendar. -/
structure CivilDate where
  year : Int
  month : Nat
  day : Nat
deriving DecidableEq

/-- A date with a time of day. -/
structure CivilTime where
  date : CivilDate
  hour : Nat
  minute : Nat
  second : Nat
  milli : Nat
deriving DecidableEq

namespace CivilDate

/-- The date `n` days after the first of January 1970. Years are counted from March, in eras of
400 years, so that the leap day comes last. -/
def ofDays (n : Int) : CivilDate :=
  let shifted := n + 719468
  let era := shifted / 146097
  let dayOfEra := (shifted % 146097).toNat
  let yearOfEra :=
    (dayOfEra - dayOfEra / 1460 + dayOfEra / 36524 - dayOfEra / 146096) / 365
  let dayOfYear := dayOfEra - (365 * yearOfEra + yearOfEra / 4 - yearOfEra / 100)
  let marchMonth := (5 * dayOfYear + 2) / 153
  let month := if marchMonth < 10 then marchMonth + 3 else marchMonth - 9
  { year := era * 400 + yearOfEra + (if month ≤ 2 then 1 else 0)
    month
    day := dayOfYear - (153 * marchMonth + 2) / 5 + 1 }

end CivilDate

namespace CivilTime

/-- The first millisecond that a date is given for, at the start of the year -262143. -/
def minMillis : Int := -8334601228800000

/-- The last millisecond that a date is given for, at the end of the year 262142. -/
def maxMillis : Int := 8210266876799999

def ofMillis (n : Int) : CivilTime :=
  let milliOfDay := (n % 86400000).toNat
  { date := .ofDays (n / 86400000)
    hour := milliOfDay / 3600000
    minute := milliOfDay / 60000 % 60
    second := milliOfDay / 1000 % 60
    milli := milliOfDay % 1000 }

/-- `n` in decimal, filled up with zeros to `width` digits. -/
def padded (width n : Nat) : String :=
  let digits := toString n
  String.ofList (List.replicate (width - digits.length) '0') ++ digits

def yearText (y : Int) : String :=
  if y < 0 then "-" ++ padded 4 y.natAbs
  else if 9999 < y then "+" ++ padded 4 y.natAbs
  else padded 4 y.natAbs

/-- The text after RFC 3339, with milliseconds only where there are any. -/
def rfc3339 (t : CivilTime) : String :=
  let fraction := if t.milli = 0 then "" else "." ++ padded 3 t.milli
  yearText t.date.year ++ "-" ++ padded 2 t.date.month ++ "-" ++ padded 2 t.date.day ++ "T"
    ++ padded 2 t.hour ++ ":" ++ padded 2 t.minute ++ ":" ++ padded 2 t.second
    ++ fraction ++ "+00:00"

end CivilTime

end Telemetry
