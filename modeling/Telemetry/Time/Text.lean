import Telemetry.Text
import Telemetry.Time.Timestamp
import Telemetry.Time.Calendar

/-!
# Times as text

A span is written as its count and its unit, `250ms`, and read back with blanks around it. An
instant is written as a date with a time of day.
-/

namespace Telemetry

namespace Duration

/-- `250ms`: the count and the unit's mark. -/
def text (d : Duration) : String :=
  toString d.ticks ++ d.unit.suffix

instance : ToString Duration := ⟨text⟩

/-- A count with a unit's mark. A week is seven days. -/
def ofCount? (n : Nat) (mark : String) : Option Duration :=
  if mark = "w" then some (ofTicks (clampTicks (n * 7)) .days)
  else (TimeUnit.ofSuffix? mark).map (ofTicks n)

/-- Reads a span: blanks, digits of a number that a count can hold, a unit's mark, blanks. -/
def parse? (s : String) : Option Duration :=
  let body := s.toList.dropWhile isBlank
  let digits := body.takeWhile Char.isDigit
  let rest := body.dropWhile Char.isDigit
  let mark := rest.takeWhile (! isBlank ·)
  if digits.isEmpty || maxTicks < digitsValue digits then none
  else if (rest.dropWhile (! isBlank ·)).all isBlank then
    ofCount? (digitsValue digits) (String.ofList mark)
  else none

end Duration

namespace Timestamp

/-- The milliseconds of the instant, where the calendar has a date for it. -/
def dateMillis? (t : Timestamp) : Option Int :=
  if CivilTime.minMillis ≤ t.millis ∧ t.millis ≤ CivilTime.maxMillis then some t.millis else none

/-- The date and time of day, or the bare count where the calendar has no date. -/
def text (t : Timestamp) : String :=
  match t.dateMillis? with
  | some n => (CivilTime.ofMillis n).rfc3339
  | none => toString t.ticks ++ t.unit.suffix

instance : ToString Timestamp := ⟨text⟩

/-- The instant `nanos` nanoseconds after `seconds`, in whole milliseconds. Within a leap second
`nanos` exceeds one second. -/
def ofSecondsAndNanos (seconds : Int) (nanos : Nat) : Timestamp :=
  ofTicks (seconds * 1000 + (nanos / 1000000 : Nat)) .milliseconds

end Timestamp

end Telemetry
