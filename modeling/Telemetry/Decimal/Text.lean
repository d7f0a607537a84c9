import Telemetry.Decimal.Shortest

/-!
# Floating point numbers as text

A number is written with the fewest digits that read back as the same number, and without an
exponent. Whether a whole number shows a point, and how what is no number is spelled, is up to a
`NumberStyle`.
-/

namespace Telemetry

/-- How numbers are laid out in one kind of text. -/
structure NumberStyle where
  /-- Whether a whole number ends in `.0`. -/
  pointZero : Bool
  /-- The word for what is no number. -/
  unknown : String

namespace NumberStyle

/-- Running text: whole numbers bare. -/
def plain : NumberStyle := ⟨false, "NaN"⟩

/-- Configuration text: whole numbers with `.0`. -/
def document : NumberStyle := ⟨true, "nan"⟩

end NumberStyle

namespace Decimal

/-- The digits in order. A decimal of the fewest digits does not end in zero. -/
def digitChars (d : Decimal) : List Char :=
  Nat.toDigits 10 d.digits

/-- The exponent of the first digit. -/
def lead (d : Decimal) : Int :=
  d.exponent + ((d.digitChars.length : Int) - 1)

/-- The digits before and behind the point. -/
def split (d : Decimal) : List Char × List Char :=
  let ds := d.digitChars
  if 0 ≤ d.exponent then (ds ++ List.replicate d.exponent.toNat '0', [])
  else if 0 ≤ d.lead then ds.splitAt (d.lead + 1).toNat
  else (['0'], List.replicate (-d.lead - 1).toNat '0' ++ ds)

/-- Digits with the point in its place. -/
def positional (d : Decimal) (pointZero : Bool) : List Char :=
  match d.split with
  | (whole, []) => whole ++ (if pointZero then ['.', '0'] else [])
  | (whole, fraction) => whole ++ '.' :: fraction

end Decimal

/-- Whether the sign bit of a number is set. -/
def isNegative (x : Float) : Bool :=
  0x8000000000000000 ≤ x.toBits.toNat

/-- The shortest decimal of the magnitude of a number, unless it is zero. -/
def shortestDecimal? (x : Float) : Option Decimal :=
  let bits := x.toBits.toNat
  if bits % 0x8000000000000000 = 0 then none else some (Binary.ofBits bits).shortest

/-- The text of a number in a style. -/
def floatText (style : NumberStyle) (x : Float) : String :=
  let sign := if isNegative x then "-" else ""
  if x.isNaN then style.unknown
  else if x.isInf then sign ++ "inf"
  else
    match shortestDecimal? x with
    | none => sign ++ (if style.pointZero then "0.0" else "0")
    | some d => sign ++ String.ofList (d.positional style.pointZero)

end Telemetry
