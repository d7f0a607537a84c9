import Telemetry.Proofs.Descriptor
import Telemetry.Proofs.Points.Local

/-!
# Points told from the whole timeline

A timeline is all samples of one metric, each as its instant in milliseconds and its number. The
bucket from `f` to `c` divides into stretches: one for each sample in it that has a predecessor, and
one for the rest of the bucket behind its last sample. `Timeline.average` is what they amount to.

The points that are made from rows one after the other, with rows read ahead and samples carried
over from one bucket to the next, hold just these averages. Times are in milliseconds or coarser
units, so that milliseconds are exact.
-/

namespace Telemetry

/-- A sample of a timeline. -/
structure Observation where
  millis : Int
  value : Float

/-- A part of a bucket, with the number that speaks for it. -/
structure Stretch where
  millis : Int
  known : Bool
  value : Float

namespace Timeline

/-- The stretches that end with a sample of the bucket. The very first sample ends none. -/
def closed (f c heartbeat : Int) (samples : List Observation) : List Stretch :=
  (samples.zip samples.tail).filterMap fun (p, s) =>
    if f < s.millis ∧ s.millis ≤ c then
      some ⟨s.millis - max p.millis f, s.millis - p.millis < heartbeat, s.value⟩
    else none

/-- The stretch behind the last sample of the bucket. The next sample speaks for it; where there is
none, it is unknown if a heartbeat is seen to have lapsed, and left out otherwise. -/
def behind (f c heartbeat last : Int) (next : Option Observation) (lapsed : Bool) : List Stretch :=
  if last < c then
    match next with
    | some next => [⟨c - max last f, next.millis - last < heartbeat, next.value⟩]
    | none => if lapsed then [⟨c - max last f, false, unknown⟩] else []
  else []

/-- What the samples up to `c` leave of the bucket. Where no sample follows, a row does if it comes
a heartbeat or more behind the last one. -/
def rest (f c heartbeat : Int) (samples : List Observation) (rows : List Int) : List Stretch :=
  match (samples.filter (·.millis ≤ c)).getLast? with
  | none => []
  | some last =>
    behind f c heartbeat last.millis (samples.find? (c < ·.millis))
      (rows.any fun row => c < row ∧ last.millis + heartbeat ≤ row)

def knownMillis (stretches : List Stretch) : Int :=
  ((stretches.filter (·.known)).map (·.millis)).sum

def unknownMillis (stretches : List Stretch) : Int :=
  ((stretches.filter (!·.known)).map (·.millis)).sum

/-- The sum over the known stretches, in the order of time. -/
def weighted (stretches : List Stretch) : Float :=
  (stretches.filter (·.known)).foldl (fun sum s => sum + s.value * Float.ofInt s.millis) 0

/-- The average over the known time, if more is known than not. -/
def average (stretches : List Stretch) : Float :=
  if knownMillis stretches = 0 ∨ knownMillis stretches ≤ unknownMillis stretches then unknown
  else weighted stretches / Float.ofInt (knownMillis stretches)

end Timeline

/-- The samples of a metric, in the order of their rows. -/
def samplesOf (metric : String) (rows : List (Row Value)) : List Sample :=
  rows.filterMap (·.get? metric)

theorem samplesOf_concat (metric : String) (rows : List (Row Value)) (row : Row Value) :
    samplesOf metric (rows ++ [row]) = samplesOf metric rows ++ (row.get? metric).toList := by
  cases h : row.get? metric <;> simp [samplesOf, h]

theorem samplesOf_concat_of_none {metric : String} {row : Row Value} (h : row.get? metric = none)
    (rows : List (Row Value)) : samplesOf metric (rows ++ [row]) = samplesOf metric rows := by
  rw [samplesOf_concat, h, Option.toList_none, List.append_nil]

def Observation.ofSample (s : Sample) : Observation :=
  ⟨s.timestamp.exactMillis, s.value.number⟩

/-- What the whole timeline of a datasource says about the bucket of one step that ends with `c`. -/
def Datasource.batch (ds : Datasource) (step : Duration) (rows : List (Row Value)) (c : Timestamp) :
    Float :=
  let samples := (samplesOf ds.source rows).map .ofSample
  let floor := c.exactMillis - step.exactMillis
  Timeline.average
    (Timeline.closed floor c.exactMillis ds.heartbeat.exactMillis samples ++
      Timeline.rest floor c.exactMillis ds.heartbeat.exactMillis samples
        (rows.map (·.timestamp.exactMillis)))

/-! ## A gauge that is sampled every second -/

def Row.gauge (t : Timestamp) (resource metric : String) (x : Float) : Row Value :=
  (Row.empty t resource).insert
    { timestamp := t, resource, name := metric, value := .gauge x, attributes := none }

def Draft.load : Draft :=
  ({ step := .ofTicks 1 .seconds } : Draft).datasource "load" "cpu" .average
    (some (.ofTicks 2 .seconds)) none |>.exporting ["load"]

/-- What `Draft.load` is built into. -/
def Descriptor.load : Descriptor :=
  { step := .ofTicks 1 .seconds
    datasources := [⟨"load", "cpu", .ofTicks 2 .seconds, defaultXff, .average⟩]
    calculations := []
    exports := ["load"] }

theorem Draft.build_load : Draft.load.build = .ok .load := rfl

/-- A gauge whose samples are due every second. -/
def Draft.punctual : Draft :=
  ({ step := .ofTicks 1 .seconds } : Draft).datasource "load" "cpu" .average
    (some (.ofTicks 1 .seconds)) none |>.exporting ["load"]

def Datasource.punctual : Datasource :=
  ⟨"load", "cpu", .ofTicks 1 .seconds, defaultXff, .average⟩

/-- What `Draft.punctual` is built into. -/
def Descriptor.punctual : Descriptor :=
  { Descriptor.load with datasources := [.punctual] }

theorem Draft.build_punctual : Draft.punctual.build = .ok .punctual := rfl

/-- A gauge that shows how many seconds have gone by. -/
def loadRows : List (Row Value) :=
  (List.range 9).map fun n : Nat => .gauge (.ofTicks n .seconds) "host" "cpu" (.ofNat n)

/-- Samples that come 999.5 ms and 500 ms after each other. -/
def punctualRows : List (Row Value) :=
  [500900, 1500400, 2000400].map fun n : Int =>
    .gauge (.ofTicks n .microseconds) "host" "cpu" (.ofNat 5)

end Telemetry
