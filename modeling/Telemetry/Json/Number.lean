import Telemetry.Decimal.Reader
import Telemetry.Decimal.Text

/-!
# Numbers in JSON

A number is kept as it is written until it is known what it is wanted for: a 64-bit integer has to
be written without point and exponent, a floating point number may be written in any way.

The value of a number with point or exponent is built from as many leading digits as a 64-bit word
holds, by one multiplication with or division by a power of ten. Further digits are left out.

A floating point number is written with its shortest digits: with an exponent from `1e+16` up and
below `0.00001`, and else with a point.
-/

namespace Telemetry

/-- A number as it is written. -/
structure NumberLiteral where
  negative : Bool
  whole : List Char
  fraction : Option (List Char)
  /-- The sign and the digits of the exponent. -/
  exponent : Option (Bool × List Char)

namespace NumberLiteral

/-- The greatest 64-bit word. -/
def maxWord : Nat := 18446744073709551615

/-- The greatest exponent that is read. -/
def maxExponent : Nat := 2147483647

/-- Appends digits to a word, as long as it has room for them. Answers with the word and with how
many digits found room. -/
def accumulate : Nat → List Char → Nat × Nat
  | w, [] => (w, 0)
  | w, c :: cs =>
    let next := 10 * w + (c.toNat - '0'.toNat)
    if maxWord < next then (w, 0)
    else
      let (w, n) := accumulate next cs
      (w, n + 1)

/-- A number scaled by a power of ten. Powers beyond the range of doubles are applied in parts;
after three of them nothing is left of a word. -/
def scaleBy (exponent : Int) : Nat → Float → Option Float
  | 0, x => some x
  | fuel + 1, x =>
    if exponent.natAbs ≤ 308 then
      let power := nearestFloat 1 exponent.natAbs
      if 0 ≤ exponent then
        let y := x * power
        if y.isInf then none else some y
      else some (x / power)
    else if x == 0 then some x
    else if 0 ≤ exponent then none
    else scaleBy (exponent + 308) fuel (x / nearestFloat 1 308)

/-- The magnitude as a double, unless it is too great. -/
def magnitude? (l : NumberLiteral) : Option Float :=
  let (word, used) := accumulate 0 l.whole
  let (word, behind) := accumulate word (l.fraction.getD [])
  let shift : Int := ((l.whole.length - used : Nat) : Int) - (behind : Int)
  match l.exponent with
  | none => scaleBy shift 4 word.toUInt64.toFloat
  | some (negative, digits) =>
    let e := digitsValue digits
    if maxExponent < e then
      if word ≠ 0 ∧ !negative then none else some 0
    else
      scaleBy (shift + (if negative then -(e : Int) else e)) 4 word.toUInt64.toFloat

/-- The number as a double, unless it is too great. -/
def float? (l : NumberLiteral) : Option Float :=
  l.magnitude?.map fun x => if l.negative then -x else x

/-- The number as an integer, if it is written as one and is not a negative zero. -/
def integer? (l : NumberLiteral) : Option Int :=
  if l.fraction.isSome || l.exponent.isSome then none
  else
    let n := digitsValue l.whole
    if l.negative then (if n = 0 then none else some (-(n : Int))) else some n

/-- The number as a signed 64-bit integer. -/
def signed? (l : NumberLiteral) : Option Int :=
  l.integer?.filter fun n => minTicks ≤ n && n ≤ maxTicks

/-- The number as a 64-bit word. -/
def word? (l : NumberLiteral) : Option UInt64 :=
  (l.integer?.filter fun n => 0 ≤ n && n ≤ (maxWord : Int)).map fun n => n.toNat.toUInt64

/-! ## Writing -/

/-- The literal of an integer. -/
def ofInt (n : Int) : NumberLiteral :=
  ⟨n < 0, Nat.toDigits 10 n.natAbs, none, none⟩

/-- At least two digits of an exponent. -/
def exponentDigits (n : Nat) : List Char :=
  match Nat.toDigits 10 n with
  | [c] => ['0', c]
  | cs => cs

/-- The literal of a decimal. -/
def ofDecimal (negative : Bool) (d : Decimal) : NumberLiteral :=
  if -5 ≤ d.lead ∧ d.lead ≤ 15 then
    match d.split with
    | (whole, []) => ⟨negative, whole, some ['0'], none⟩
    | (whole, fraction) => ⟨negative, whole, some fraction, none⟩
  else
    let exponent := some (decide (d.lead < 0), exponentDigits d.lead.natAbs)
    match d.digitChars with
    | c :: c' :: cs => ⟨negative, [c], some (c' :: cs), exponent⟩
    | cs => ⟨negative, cs, none, exponent⟩

/-- The literal of a floating point number. Infinity and what is no number have none. -/
def ofFloat? (x : Float) : Option NumberLiteral :=
  if x.isNaN || x.isInf then none
  else
    match shortestDecimal? x with
    | none => some ⟨isNegative x, ['0'], some ['0'], none⟩
    | some d => some (ofDecimal (isNegative x) d)

/-- The text of a literal; an exponent shows its sign. -/
def chars (l : NumberLiteral) : List Char :=
  let sign := if l.negative then ['-'] else []
  let fraction := match l.fraction with
    | none => []
    | some ds => '.' :: ds
  let exponent := match l.exponent with
    | none => []
    | some (negative, ds) => 'e' :: (if negative then '-' else '+') :: ds
  sign ++ l.whole ++ fraction ++ exponent

end NumberLiteral

end Telemetry
