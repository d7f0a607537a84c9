/-!
# Units of time

Instants and spans are counts of some unit. A count is a signed 64-bit number, and a count that
would leave that range stops at its end.
-/

namespace Telemetry

/-- The granularity in which a time is counted. -/
inductive TimeUnit
  | nanoseconds
  | microseconds
  | milliseconds
  | seconds
  | minutes
  | hours
  | days
deriving DecidableEq

/-- The least count a time can hold. -/
def minTicks : Int := -9223372036854775808

/-- The greatest count a time can hold. -/
def maxTicks : Int := 9223372036854775807

/-- The count nearest to `n` that a time can hold. -/
def clampTicks (n : Int) : Int :=
  max minTicks (min n maxTicks)

theorem minTicks_le_clampTicks (n : Int) : minTicks ≤ clampTicks n := by
  simp only [clampTicks]; omega

theorem clampTicks_le_maxTicks (n : Int) : clampTicks n ≤ maxTicks := by
  simp only [clampTicks, minTicks, maxTicks]; omega

theorem clampTicks_of_mem {n : Int} (hl : minTicks ≤ n) (hu : n ≤ maxTicks) :
    clampTicks n = n := by
  simp only [clampTicks]; omega

/-- Whether `n` lies outside the range of a count. Where a program multiplies, adds or subtracts
counts without stopping at the ends of the range, it breaks off there. -/
def overflows (n : Int) : Bool :=
  n < minTicks || maxTicks < n

namespace TimeUnit

/-- The length of one unit in nanoseconds. -/
def nanos : TimeUnit → Int
  | nanoseconds => 1
  | microseconds => 1000
  | milliseconds => 1000000
  | seconds => 1000000000
  | minutes => 60000000000
  | hours => 3600000000000
  | days => 86400000000000

theorem nanos_pos (u : TimeUnit) : 0 < u.nanos := by
  cases u <;> decide

/-- The finer of two units. -/
def finest (u v : TimeUnit) : TimeUnit :=
  if u.nanos ≤ v.nanos then u else v

theorem finest_comm (u v : TimeUnit) : u.finest v = v.finest u := by
  cases u <;> cases v <;> rfl

/-- `n` times the unit `source`, counted in `u`. A finer count stops at the ends of the range, a
coarser one drops its fraction. -/
def convert (u : TimeUnit) (n : Int) (source : TimeUnit) : Int :=
  if u.nanos ≤ source.nanos then clampTicks (n * (source.nanos / u.nanos))
  else n.tdiv (u.nanos / source.nanos)

/-- The mark written behind a count. -/
def suffix : TimeUnit → String
  | nanoseconds => "ns"
  | microseconds => "us"
  | milliseconds => "ms"
  | seconds => "s"
  | minutes => "m"
  | hours => "h"
  | days => "d"

/-- The unit's name. -/
def name : TimeUnit → String
  | nanoseconds => "nanoseconds"
  | microseconds => "microseconds"
  | milliseconds => "milliseconds"
  | seconds => "seconds"
  | minutes => "minutes"
  | hours => "hours"
  | days => "days"

def all : List TimeUnit :=
  [nanoseconds, microseconds, milliseconds, seconds, minutes, hours, days]

def ofSuffix? (s : String) : Option TimeUnit :=
  all.find? (·.suffix = s)

def ofName? (s : String) : Option TimeUnit :=
  all.find? (·.name = s)

end TimeUnit

end Telemetry
