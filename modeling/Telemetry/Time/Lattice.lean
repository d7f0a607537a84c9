import Telemetry.Time.Timestamp

/-!
# Evenly spaced instants

A lattice yields the instants from one end of a range towards the other, one interval apart, as
long as they lie within the range.
-/

namespace Telemetry

/-- A walk over evenly spaced instants. -/
structure Lattice where
  interval : Duration
  start : Timestamp
  finish : Timestamp
  /-- The instant that is yielded next. -/
  current : Option Timestamp
  reversed : Bool

namespace Lattice

/-- The walk from `start` up to `finish`. -/
def ascending (start finish : Timestamp) (interval : Duration) : Lattice :=
  { interval, start, finish, reversed := false
    current := if start ≤ finish then some start else none }

/-- The walk from `finish` down to `start`. -/
def descending (start finish : Timestamp) (interval : Duration) : Lattice :=
  { interval, start, finish, reversed := true
    current := if start ≤ finish then some finish else none }

def hasNext (l : Lattice) : Bool :=
  l.current.isSome

/-- The instant that follows `t`, if it lies within the range. An empty interval leads nowhere. -/
def following? (l : Lattice) (t : Timestamp) : Option Timestamp :=
  if l.interval.isZero then none
  else if l.reversed then
    let next := t - l.interval
    if l.start ≤ next then some next else none
  else
    let next := t + l.interval
    if next ≤ l.finish then some next else none

/-- The next instant and the rest of the walk. -/
def next? (l : Lattice) : Option (Timestamp × Lattice) :=
  l.current.map fun t => (t, { l with current := l.following? t })

/-- What is left of the range ahead of `t`. -/
def ahead? (l : Lattice) (t : Timestamp) : Option Duration :=
  if l.reversed then t.since? l.start else l.finish.since? t

/-- How many instants are left, told by the ratio of what is left of the range to the interval. -/
def remaining (l : Lattice) : Nat :=
  match l.current with
  | none => 0
  | some t =>
    if l.interval.isZero then 1
    else
      match l.ahead? t with
      | some span => (span.ratio l.interval).toUInt64.toNat + 1
      | none => 0

/-- How many instants are left, counted exactly. -/
def count (l : Lattice) : Nat :=
  match l.current with
  | none => 0
  | some t =>
    if l.interval.isZero then 1
    else
      let span := if l.reversed then t.nanos - l.start.nanos else l.finish.nanos - t.nanos
      (span / l.interval.nanos).toNat + 1

/-- The next instants, `n` of them if so many are left. -/
def take (l : Lattice) : Nat → List Timestamp
  | 0 => []
  | n + 1 =>
    match l.next? with
    | none => []
    | some (t, rest) => t :: rest.take n

def toList (l : Lattice) : List Timestamp :=
  l.take l.count

end Lattice

end Telemetry
