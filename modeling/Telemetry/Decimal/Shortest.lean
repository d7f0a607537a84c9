/-!
# The shortest decimal of a binary number

A positive binary number `m * 2 ^ q` of double precision stands for all real numbers that round to
it. `shortest` finds, with as few digits as possible, the decimal among them that lies nearest to
the number itself. All arithmetic is exact.
-/

namespace Telemetry

/-- The decimal number `digits * 10 ^ exponent`. -/
structure Decimal where
  digits : Nat
  exponent : Int
deriving DecidableEq

/-- The same number without zeros at its end, as far as `fuel` of them. -/
def Decimal.trim (d : Decimal) : Nat → Decimal
  | 0 => d
  | fuel + 1 => if d.digits % 10 = 0 then trim ⟨d.digits / 10, d.exponent + 1⟩ fuel else d

/-- A positive double `significand * 2 ^ exponent`. Below a power of two the next smaller number
is only half as far away as the next greater one. -/
structure Binary where
  significand : Nat
  exponent : Int
  closeBelow : Bool
deriving DecidableEq

namespace Binary

/-- Significand and exponent of the bits of a positive finite double. -/
def ofBits (bits : Nat) : Binary :=
  let fraction : Nat := bits % 0x10000000000000
  let power : Nat := bits / 0x10000000000000 % 0x800
  if power = 0 then ⟨fraction, -1074, false⟩
  else ⟨0x10000000000000 + fraction, (power : Int) - 1075, fraction = 0 && 1 < power⟩

/-- The numerators, over one denominator, of the number and of the ends of the interval of reals
that round to it. -/
structure Interval where
  lower : Nat
  value : Nat
  upper : Nat
  denominator : Nat
  endsIncluded : Bool

/-- The interval in quarters of the last place. -/
def interval (b : Binary) : Interval :=
  let scale := Nat.pow 2 (b.exponent - 2).toNat
  { lower := (4 * b.significand - (if b.closeBelow then 1 else 2)) * scale
    value := 4 * b.significand * scale
    upper := (4 * b.significand + 2) * scale
    denominator := Nat.pow 2 (2 - b.exponent).toNat
    endsIncluded := b.significand % 2 = 0 }

namespace Interval

/-- Whether `n` units of `10 ^ place` lie in the interval. -/
def holds (i : Interval) (n : Nat) (place : Int) : Bool :=
  let point := n * Nat.pow 10 place.toNat * i.denominator
  let unit := Nat.pow 10 (-place).toNat
  if i.endsIncluded then i.lower * unit ≤ point && point ≤ i.upper * unit
  else i.lower * unit < point && point < i.upper * unit

/-- The number in units of `10 ^ place`, rounded down, and twice the part left over with the
unit it is part of. -/
def divide (i : Interval) (place : Int) : Nat × Nat × Nat :=
  let numerator := i.value * Nat.pow 10 (-place).toNat
  let unit := i.denominator * Nat.pow 10 place.toNat
  (numerator / unit, 2 * (numerator % unit), unit)

/-- The neighbour of the number on the grid of `10 ^ place` that lies in the interval, the nearer
one if both do. Midway the even one is taken. -/
def nearest? (i : Interval) (place : Int) : Option Decimal :=
  let (below, twice, unit) := i.divide place
  let lowerHolds := 0 < below && i.holds below place
  let upperHolds := i.holds (below + 1) place
  let preferUpper := unit < twice || (twice = unit && below % 2 = 1)
  if lowerHolds && upperHolds then some ⟨if preferUpper then below + 1 else below, place⟩
  else if lowerHolds then some ⟨below, place⟩
  else if upperHolds then some ⟨below + 1, place⟩
  else none

/-- The exponent of the first decimal digit, counted down from zero while the number is less
than one. -/
def leadBelowOne (i : Interval) : Nat → Nat → Int
  | 0, k => -k
  | fuel + 1, k =>
    if i.denominator ≤ i.value * Nat.pow 10 k then -k else leadBelowOne i fuel (k + 1)

/-- The exponent of the number's first decimal digit. -/
def lead (i : Interval) : Int :=
  let whole := i.value / i.denominator
  if whole = 0 then i.leadBelowOne 330 1 else ((Nat.toDigits 10 whole).length : Int) - 1

/-- The first grid, from coarse to fine, that has a point in the interval. Seventeen digits
always have one. -/
def search (i : Interval) (lead : Int) : Nat → Nat → Decimal
  | 0, _ => ⟨(i.divide (lead - 16)).1, lead - 16⟩
  | fuel + 1, count =>
    match i.nearest? (lead - count) with
    | some d => d
    | none => search i lead fuel (count + 1)

end Interval

/-- The nearest of the shortest decimals that round to the number. A grid point may be a power of
ten, which needs one digit only. -/
def shortest (b : Binary) : Decimal :=
  let i := b.interval
  (i.search i.lead 17 0).trim 17

end Binary

end Telemetry
