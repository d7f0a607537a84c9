import Telemetry.Time.Duration

/-!
# Instants

An instant is a count of some unit since the start of 1970, in universal time. Like a span it
remembers its unit, is combined in the finer unit and compared by the exact instant.
-/

namespace Telemetry

/-- An instant: a count of some unit since the epoch. -/
structure Timestamp where
  ticks : Int
  unit : TimeUnit
  min_le : minTicks ≤ ticks
  le_max : ticks ≤ maxTicks

namespace Timestamp

theorem eq_iff {a b : Timestamp} : a.ticks = b.ticks ∧ a.unit = b.unit ↔ a = b := by
  cases a
  cases b
  simp

instance : DecidableEq Timestamp :=
  fun _ _ => decidable_of_iff _ eq_iff

/-- The instant `n` units after the epoch, or the end of the range that lies nearest to it. -/
def ofTicks (n : Int) (u : TimeUnit) : Timestamp where
  ticks := clampTicks n
  unit := u
  min_le := minTicks_le_clampTicks n
  le_max := clampTicks_le_maxTicks n

theorem ofTicks_ticks (t : Timestamp) : ofTicks t.ticks t.unit = t := by
  obtain ⟨n, u, hl, hu⟩ := t
  simp [ofTicks, clampTicks_of_mem hl hu]

def epoch : Timestamp := ofTicks 0 .seconds

instance : Inhabited Timestamp := ⟨epoch⟩

/-- The exact distance from the epoch in nanoseconds. -/
def nanos (t : Timestamp) : Int :=
  t.ticks * t.unit.nanos

/-- The count in another unit. -/
def ticksIn (t : Timestamp) (u : TimeUnit) : Int :=
  u.convert t.ticks t.unit

/-- Whole milliseconds since the epoch. -/
def millis (t : Timestamp) : Int :=
  t.ticksIn .milliseconds

/-- Whole seconds since the epoch. -/
def seconds (t : Timestamp) : Int :=
  t.ticksIn .seconds

instance : LE Timestamp := ⟨fun a b => a.nanos ≤ b.nanos⟩

instance : LT Timestamp := ⟨fun a b => a.nanos < b.nanos⟩

instance (a b : Timestamp) : Decidable (a ≤ b) :=
  inferInstanceAs (Decidable (a.nanos ≤ b.nanos))

instance (a b : Timestamp) : Decidable (a < b) :=
  inferInstanceAs (Decidable (a.nanos < b.nanos))

instance : Ord Timestamp := ⟨fun a b => compare a.nanos b.nanos⟩

/-- The later of two instants. -/
def later (a b : Timestamp) : Timestamp :=
  if b < a then a else b

/-- The instant `d` after `t`. -/
def add (t : Timestamp) (d : Duration) : Timestamp :=
  let u := t.unit.finest d.unit
  ofTicks (t.ticksIn u + d.ticksIn u) u

/-- The instant `d` before `t`. -/
def sub (t : Timestamp) (d : Duration) : Timestamp :=
  let u := t.unit.finest d.unit
  ofTicks (t.ticksIn u - d.ticksIn u) u

instance : HAdd Timestamp Duration Timestamp := ⟨add⟩

instance : HSub Timestamp Duration Timestamp := ⟨sub⟩

/-- The span from `earlier` to `t`, if `earlier` is not the later one. It means something only where
`sinceOverflows` does not hold. -/
def since? (t earlier : Timestamp) : Option Duration :=
  if t < earlier then none
  else
    let u := t.unit.finest earlier.unit
    some (.ofTicks (t.ticksIn u - earlier.ticksIn u) u)

/-- Whether the difference of the counts leaves their range. -/
def sinceOverflows (t earlier : Timestamp) : Bool :=
  let u := t.unit.finest earlier.unit
  !decide (t < earlier) && overflows (t.ticksIn u - earlier.ticksIn u)

/-- Whole milliseconds from `earlier` to `t`, each instant taken in whole milliseconds. Counts of
stretches are not bounded here; where they are used, it is told whether they overflow. -/
def millisSince (t earlier : Timestamp) : Int :=
  t.millis - earlier.millis

/-- The greatest multiple of `step`, counted from the epoch, that is not after `t`. It means
something only where `floorOverflows` does not hold. -/
def floor (t : Timestamp) (step : Duration) : Timestamp :=
  let u := t.unit.finest step.unit
  let n := t.ticksIn u
  let s := step.ticksIn u
  if s = 0 then ofTicks n u else ofTicks (n / s * s) u

/-- Whether the multiple leaves the range of counts. -/
def floorOverflows (t : Timestamp) (step : Duration) : Bool :=
  let u := t.unit.finest step.unit
  let n := t.ticksIn u
  let s := step.ticksIn u
  s ≠ 0 && overflows (n / s * s)

/-- The least multiple of `step`, counted from the epoch, that is not before `t`. It means something
only where `ceilOverflows` does not hold. -/
def ceil (t : Timestamp) (step : Duration) : Timestamp :=
  let u := t.unit.finest step.unit
  let n := t.ticksIn u
  let s := step.ticksIn u
  if s = 0 ∨ n % s = 0 then ofTicks n u else ofTicks ((n / s + 1) * s) u

/-- Whether the multiple leaves the range of counts. -/
def ceilOverflows (t : Timestamp) (step : Duration) : Bool :=
  let u := t.unit.finest step.unit
  let n := t.ticksIn u
  let s := step.ticksIn u
  s ≠ 0 && n % s ≠ 0 && overflows ((n / s + 1) * s)

end Timestamp

end Telemetry
