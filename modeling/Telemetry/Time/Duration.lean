import Telemetry.Time.Unit

/-!
# Spans of time

A span remembers the unit it was given in. Two spans are combined in the finer of their units and
compared by their exact length, so `1s` and `1000ms` are different values of the same length.
-/

namespace Telemetry

/-- A span of time: a count of some unit, never negative. -/
structure Duration where
  ticks : Int
  unit : TimeUnit
  nonneg : 0 ≤ ticks
  le_max : ticks ≤ maxTicks
deriving DecidableEq

namespace Duration

theorem clamped_nonneg (n : Int) : 0 ≤ max 0 (min n maxTicks) := by omega

theorem clamped_le_max (n : Int) : max 0 (min n maxTicks) ≤ maxTicks := by
  simp only [maxTicks]
  omega

/-- The span of `n` units; a negative count gives none at all. -/
def ofTicks (n : Int) (u : TimeUnit) : Duration where
  ticks := max 0 (min n maxTicks)
  unit := u
  nonneg := clamped_nonneg n
  le_max := clamped_le_max n

theorem ofTicks_ticks (d : Duration) : ofTicks d.ticks d.unit = d := by
  obtain ⟨n, u, h0, hm⟩ := d
  simp only [ofTicks, mk.injEq, and_true]
  omega

def zero : Duration := ofTicks 0 .milliseconds

instance : Inhabited Duration := ⟨zero⟩

/-- The exact length in nanoseconds. -/
def nanos (d : Duration) : Int :=
  d.ticks * d.unit.nanos

/-- The count in another unit. -/
def ticksIn (d : Duration) (u : TimeUnit) : Int :=
  u.convert d.ticks d.unit

/-- Whole milliseconds. -/
def millis (d : Duration) : Int :=
  d.ticksIn .milliseconds

/-- Whole seconds. -/
def seconds (d : Duration) : Int :=
  d.ticksIn .seconds

/-- Seconds with their fraction. -/
def toSeconds (d : Duration) : Float :=
  Float.ofInt d.ticks * Float.ofInt d.unit.nanos / Float.ofInt TimeUnit.seconds.nanos

def isZero (d : Duration) : Bool :=
  d.ticks == 0

instance : LE Duration := ⟨fun a b => a.nanos ≤ b.nanos⟩

instance : LT Duration := ⟨fun a b => a.nanos < b.nanos⟩

instance (a b : Duration) : Decidable (a ≤ b) :=
  inferInstanceAs (Decidable (a.nanos ≤ b.nanos))

instance (a b : Duration) : Decidable (a < b) :=
  inferInstanceAs (Decidable (a.nanos < b.nanos))

instance : Ord Duration := ⟨fun a b => compare a.nanos b.nanos⟩

/-- The unit in which two spans are combined. -/
def commonUnit (a b : Duration) : TimeUnit :=
  a.unit.finest b.unit

def add (a b : Duration) : Duration :=
  let u := a.commonUnit b
  ofTicks (a.ticksIn u + b.ticksIn u) u

instance : Add Duration := ⟨add⟩

/-- The difference, if it is not negative. -/
def sub? (a b : Duration) : Option Duration :=
  let u := a.commonUnit b
  let rest := a.ticksIn u - b.ticksIn u
  if 0 ≤ rest then some (ofTicks rest u) else none

/-- `k` times the span; a negative factor gives none at all. -/
def scale (d : Duration) (k : Int) : Duration :=
  ofTicks (d.ticks * k) d.unit

/-- How many times `b` goes into `a`. -/
def ratio (a b : Duration) : Float :=
  let u := a.commonUnit b
  Float.ofInt (a.ticksIn u) / Float.ofInt (b.ticksIn u)

/-- Whether `a` is `b` taken a whole number of times, once at least, and `b` is not empty. -/
def isMultipleOf (a b : Duration) : Bool :=
  let u := a.commonUnit b
  let whole := a.ticksIn u
  let part := b.ticksIn u
  decide (0 < part ∧ part ≤ whole ∧ whole % part = 0)

end Duration

end Telemetry
