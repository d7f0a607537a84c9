import Telemetry.Feed.Basic

/-!
# Rates

Of the requested metrics, and of no others, samples that accumulate are replaced by their change
per second since the sample before. Gauges stay as they are.
-/

namespace Telemetry

/-- What becomes of a counter that went backwards. -/
inductive CounterWrap
  /-- It is taken to have wrapped around. -/
  | wrap
  /-- Nothing is known about its rate. -/
  | unknown
deriving DecidableEq

namespace CounterWrap

def name : CounterWrap → String
  | wrap => "wrap"
  | unknown => "unknown"

def all : List CounterWrap := [wrap, unknown]

def ofName? (s : String) : Option CounterWrap :=
  all.find? (·.name = s)

end CounterWrap

/-- When a metric was last seen, and what it showed. -/
structure Sighting where
  timestamp : Timestamp
  value : Value

namespace Feed

/-- The change per second since the sample before; unknown if there was none, or none earlier, or
if the counter went backwards and is not taken to have wrapped around. -/
def ratePerSecond (policy : CounterWrap) (s : Sample) (previous : Option Sighting) : Float :=
  match previous with
  | none => unknown
  | some p =>
    match s.timestamp.since? p.timestamp with
    | none => unknown
    | some elapsed =>
      if elapsed.isZero then unknown
      else if s.value.wrapped p.value && policy = .unknown then unknown
      else (s.value.delta p.value).number / elapsed.toSeconds

/-- The sample with its rate in place of a value that accumulates. -/
def rated (policy : CounterWrap) (s : Sample) (previous : Option Sighting) : Sample :=
  if s.value.kind.accumulates then { s with value := .gauge (ratePerSecond policy s previous) }
  else s

/-- One requested metric with what it showed last. -/
structure Tracked where
  metric : String
  last : Option Sighting

/-- Takes the tracked metrics out of the samples of a row, in the order of the metrics. A metric
that is tracked twice finds its sample gone the second time. -/
def extract (policy : CounterWrap) :
    List Tracked → List Sample → List Sample × List Tracked
  | [], _ => ([], [])
  | t :: rest, samples =>
    match samples.find? (·.name = t.metric) with
    | none =>
      let (out, tracked) := extract policy rest samples
      (out, t :: tracked)
    | some s =>
      let (out, tracked) := extract policy rest (swapRemove (·.name = t.metric) samples)
      (rated policy s t.last :: out, { t with last := some ⟨s.timestamp, s.value⟩ } :: tracked)

/-- Whether the time between a sample and the one before it overflows. Samples that do not
accumulate are not compared. -/
def ratedOverflows (s : Sample) (previous : Option Sighting) : Bool :=
  s.value.kind.accumulates && previous.any (s.timestamp.sinceOverflows ·.timestamp)

def extractOverflows : List Tracked → List Sample → Bool
  | [], _ => false
  | t :: rest, samples =>
    match samples.find? (·.name = t.metric) with
    | none => extractOverflows rest samples
    | some s =>
      ratedOverflows s t.last || extractOverflows rest (swapRemove (·.name = t.metric) samples)

/-- The row of the tracked metrics. -/
def rateRow (policy : CounterWrap) (tracked : List Tracked) (row : Row Value) :
    Row Value × List Tracked :=
  let (samples, tracked) := extract policy tracked row.readings
  ((Row.empty row.timestamp row.resource).insertAll samples, tracked)

/-- The requested metrics of every row, with rates in place of what accumulates. -/
def rates (policy : CounterWrap) (metrics : List String) (feed : Feed Value) : Feed Value :=
  scanRows (rateRow policy) (metrics.map (⟨·, none⟩)) feed

/-- The rates as they are computed: where a difference of instants overflows, nothing more is handed
out. -/
def checkedRatesFrom (policy : CounterWrap) : List Tracked → Feed Value → Feed Value
  | _, [] => []
  | tracked, .ok row :: rest =>
    if extractOverflows tracked row.readings then [.error (.abandoned .overflow)]
    else
      let (row, tracked) := rateRow policy tracked row
      .ok row :: checkedRatesFrom policy tracked rest
  | tracked, .error e :: rest => .error e :: checkedRatesFrom policy tracked rest

def checkedRates (policy : CounterWrap) (metrics : List String) (feed : Feed Value) : Feed Value :=
  checkedRatesFrom policy (metrics.map (⟨·, none⟩)) feed

end Feed

end Telemetry
