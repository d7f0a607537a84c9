import Telemetry.Decimal.Text

/-!
# Values of samples

A gauge is a plain number. The other kinds are 64-bit words that only mean something as a change
since the word before: counters and absolutes grow and wrap around, derives move both ways.
-/

namespace Telemetry

/-- What kind of metric a value belongs to. -/
inductive MetricKind
  | gauge
  | counter
  | derive
  | absolute
deriving DecidableEq

namespace MetricKind

def name : MetricKind → String
  | gauge => "GAUGE"
  | counter => "COUNTER"
  | derive => "DERIVE"
  | absolute => "ABSOLUTE"

def all : List MetricKind := [gauge, counter, derive, absolute]

def ofName? (s : String) : Option MetricKind :=
  all.find? (·.name = s)

/-- Reads a kind's name in any case. -/
def parse? (s : String) : Option MetricKind :=
  ofName? s.toUpper

/-- What is said of a text that names no kind. -/
def unknownMessage (s : String) : String :=
  "unknown metric type '" ++ s.toUpper ++ "'"

/-- Whether only the rate of change is meaningful. -/
def accumulates : MetricKind → Bool
  | gauge => false
  | counter | derive | absolute => true

end MetricKind

/-- The integer part of a number as a signed word, stopping at the ends of the range. What is no
number gives zero. -/
def signedWord (x : Float) : UInt64 :=
  if x < 0 then 0 - min (-x).toUInt64 0x8000000000000000
  else min x.toUInt64 0x7FFFFFFFFFFFFFFF

/-- A word read as a signed number. -/
def signedNumber (w : UInt64) : Float :=
  if w < 0x8000000000000000 then w.toFloat else -(0 - w).toFloat

/-- A word read as a signed integer. -/
def signedInt (w : UInt64) : Int :=
  if w < 0x8000000000000000 then w.toNat else (w.toNat : Int) - 0x10000000000000000

/-- A typed sample value. -/
inductive Value
  | gauge (x : Float)
  | counter (w : UInt64)
  | derive (w : UInt64)
  | absolute (w : UInt64)

namespace Value

instance : Inhabited Value := ⟨gauge 0⟩

instance : BEq Value where
  beq
    | gauge x, gauge y => x == y
    | counter v, counter w => v == w
    | derive v, derive w => v == w
    | absolute v, absolute w => v == w
    | _, _ => false

def kind : Value → MetricKind
  | gauge _ => .gauge
  | counter _ => .counter
  | derive _ => .derive
  | absolute _ => .absolute

/-- A value of the given kind from a plain number. -/
def compose (x : Float) : MetricKind → Value
  | .gauge => gauge x
  | .counter => counter (signedWord x)
  | .derive => derive (signedWord x)
  | .absolute => absolute (signedWord x)

/-- The value as a plain number. -/
def number : Value → Float
  | gauge x => x
  | counter w | absolute w => w.toFloat
  | derive w => signedNumber w

/-- The value as a word; a gauge gives its integer part. -/
def word : Value → UInt64
  | gauge x => signedWord x
  | counter w | derive w | absolute w => w

def isUnknown : Value → Bool
  | gauge x => x.isNaN
  | _ => false

/-- The sum, of the first value's kind. -/
def add (v u : Value) : Value :=
  match v with
  | gauge x => gauge (x + u.number)
  | counter w => counter (w + u.word)
  | derive w => derive (w + u.word)
  | absolute w => absolute (w + u.word)

/-- The product with a number, of the same kind. -/
def scale (v : Value) (k : Float) : Value :=
  match v with
  | gauge x => gauge (x * k)
  | counter w => counter (w.toFloat * k).toUInt64
  | derive w => derive (signedWord (signedNumber w * k))
  | absolute w => absolute (w.toFloat * k).toUInt64

/-- The quotient by a number, always a gauge. -/
def divide (v : Value) (k : Float) : Value :=
  gauge (v.number / k)

/-- Whether a counter went backwards. -/
def wrapped (v previous : Value) : Bool :=
  match v with
  | counter w | absolute w => w < previous.word
  | gauge _ | derive _ => false

/-- How far a counter moved. One that went backwards has wrapped around: at 32 bits, unless the
earlier word is further ahead than a wrap at 32 bits can explain, and else at 64 bits. -/
def counterDelta (current previous : UInt64) : UInt64 :=
  if previous ≤ current then current - previous
  else if current.toNat + 0x100000000 < previous.toNat then current - previous
  else 0x100000000 - previous + current

/-- The change since `previous`, of the first value's kind. -/
def delta (v previous : Value) : Value :=
  match v with
  | gauge x => gauge (x - previous.number)
  | counter w => counter (counterDelta w previous.word)
  | absolute w => absolute (counterDelta w previous.word)
  | derive w => derive (w - previous.word)

def text : Value → String
  | gauge x => floatText .plain x
  | counter w | absolute w => toString w.toNat
  | derive w => toString (signedInt w)

instance : ToString Value := ⟨text⟩

end Value

end Telemetry
