import Telemetry.Text
import Telemetry.Time.Unit

/-!
# Reading decimal numbers

A decimal literal is taken apart into digits and an exponent, and the nearest double is its value.
-/

namespace Telemetry

def infinity : Float := Float.ofBits 0x7FF0000000000000

/-- The double nearest to `digits * 10 ^ exponent`. Exponents far out of range are decided at once:
what exceeds `10 ^ 310` is infinite, and what lies below `10 ^ (-330)` is zero, which is seen from
`digits` being less than `10 ^ (digits.log2 / 3 + 1)`. -/
def nearestFloat (digits : Nat) (exponent : Int) : Float :=
  if digits = 0 then 0
  else if 310 < exponent then infinity
  else if exponent + (digits.log2 / 3 + 1 : Nat) < -330 then 0
  else Float.ofScientific digits (exponent < 0) exponent.natAbs

/-- The parts of an unsigned decimal literal: the digits before and behind the point, and the
exponent. -/
structure DecimalLiteral where
  whole : List Char
  fraction : List Char
  exponent : Int

/-- What stands at the start of a text. -/
inductive DecimalScan
  /-- No number. -/
  | nothing
  /-- A number whose exponent lacks its digits; they are missing where `rest` begins. -/
  | unfinished (rest : List Char)
  /-- A number, and the text behind it. -/
  | literal (number : DecimalLiteral) (rest : List Char)

namespace DecimalLiteral

/-- The double nearest to the number that the literal stands for. -/
def value (l : DecimalLiteral) : Float :=
  nearestFloat (digitsValue (l.whole ++ l.fraction)) (l.exponent - l.fraction.length)

/-- A sign, if there is one, and the text behind it. -/
def splitSign : List Char → Bool × List Char
  | '-' :: r => (true, r)
  | '+' :: r => (false, r)
  | r => (false, r)

/-- Goes on behind the mantissa with an exponent, if one begins there. -/
def scanExponent (whole fraction : List Char) : List Char → DecimalScan
  | [] => .literal ⟨whole, fraction, 0⟩ []
  | c :: r =>
    if c = 'e' || c = 'E' then
      let (negative, behind) := splitSign r
      let digits := behind.takeWhile Char.isDigit
      if digits.isEmpty then .unfinished behind
      else
        let n : Int := digitsValue digits
        .literal ⟨whole, fraction, if negative then -n else n⟩ (behind.dropWhile Char.isDigit)
    else .literal ⟨whole, fraction, 0⟩ (c :: r)

/-- Finds the number at the start of a text: `12`, `12.`, `.5` or `12.5`, with an exponent behind
it. -/
def scan (s : List Char) : DecimalScan :=
  let whole := s.takeWhile Char.isDigit
  match s.dropWhile Char.isDigit with
  | '.' :: r =>
    let fraction := r.takeWhile Char.isDigit
    if whole.isEmpty && fraction.isEmpty then .nothing
    else scanExponent whole fraction (r.dropWhile Char.isDigit)
  | r => if whole.isEmpty then .nothing else scanExponent whole [] r

theorem length_splitSign_le (s : List Char) : (splitSign s).2.length ≤ s.length := by
  unfold splitSign
  split <;> simp

theorem length_dropWhile_le (p : Char → Bool) (s : List Char) :
    (s.dropWhile p).length ≤ s.length :=
  (List.dropWhile_sublist p).length_le

theorem length_rest_scanExponent {whole fraction s rest : List Char} {l : DecimalLiteral}
    (h : scanExponent whole fraction s = .literal l rest) : rest.length ≤ s.length := by
  cases s with
  | nil => simp_all [scanExponent]
  | cons c r =>
    simp only [scanExponent] at h
    split at h
    · split at h
      · cases h
      · cases h
        have := length_dropWhile_le Char.isDigit (splitSign r).2
        have := length_splitSign_le r
        simp only [List.length_cons]
        omega
    · cases h
      exact Nat.le_refl _

/-- A number takes up text. -/
theorem length_rest_scan {s rest : List Char} {l : DecimalLiteral}
    (h : scan s = .literal l rest) : rest.length < s.length := by
  have hsplit : (s.takeWhile Char.isDigit).length + (s.dropWhile Char.isDigit).length
      = s.length := by
    rw [← List.length_append, List.takeWhile_append_dropWhile]
  simp only [scan] at h
  split at h
  next r heq =>
    split at h
    · cases h
    · have := length_rest_scanExponent h
      have := length_dropWhile_le Char.isDigit r
      rw [heq, List.length_cons] at hsplit
      omega
  next r _ =>
    split at h
    · cases h
    next hne =>
      have := length_rest_scanExponent h
      have : 0 < (s.takeWhile Char.isDigit).length := by
        cases hw : s.takeWhile Char.isDigit with
        | nil => simp [hw] at hne
        | cons => simp
      omega

end DecimalLiteral

/-- A number without its sign, or one of the words for what has no digits, in any case. -/
def readMagnitude? (s : List Char) : Option Float :=
  let word := String.ofList (s.map Char.toLower)
  if word = "inf" || word = "infinity" then some infinity
  else if word = "nan" then some (Float.ofBits 0x7FF8000000000000)
  else
    match DecimalLiteral.scan s with
    | .literal l [] => some l.value
    | _ => none

/-- Reads a number with an optional sign; nothing else may stand in the text. -/
def readFloat? (s : List Char) : Option Float :=
  let (negative, digits) := DecimalLiteral.splitSign s
  (readMagnitude? digits).map fun x => if negative then -x else x

/-- Reads a whole number with an optional sign that a 64-bit count can hold. -/
def readTicks? (s : List Char) : Option Int :=
  let (negative, digits) := DecimalLiteral.splitSign s
  if digits.isEmpty || !digits.all Char.isDigit then none
  else
    let n : Int := if negative then -(digitsValue digits : Int) else digitsValue digits
    if minTicks ≤ n ∧ n ≤ maxTicks then some n else none

end Telemetry
