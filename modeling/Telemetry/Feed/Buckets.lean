import Telemetry.Feed.Basic
import Telemetry.Descriptor
import Telemetry.Time.Lattice

/-!
# Consolidated buckets

Primary points are gathered into buckets of one resolution each. The bucket that ends with `c`
holds the points after `c` less the resolution, up to and with `c`. Where the known points do not
exceed the part that a datasource asks for, the bucket is unknown.
-/

namespace Telemetry

/-- A datasource and what the current bucket holds of it. -/
structure Bucket where
  datasource : Datasource
  values : List Float
  attributes : Option Attributes

namespace Bucket

/-- Adds the datasource's measurement in a row; one that is missing is unknown. -/
def add (b : Bucket) (row : Row Float) : Bucket :=
  match row.get? b.datasource.label with
  | some m =>
    { b with
      values := b.values ++ [m.value]
      attributes := Attributes.merge? b.attributes m.attributes }
  | none => { b with values := b.values ++ [unknown] }

/-- The value of the bucket, if enough of its points are known. -/
def value (b : Bucket) (pointsPerBucket : Float) : Float :=
  let known := (Consolidation.known b.values).length.toUInt64.toFloat
  if b.datasource.xff < known / pointsPerBucket then b.datasource.function.apply b.values
  else unknown

def measurement (b : Bucket) (resource : String) (ceiling : Timestamp)
    (pointsPerBucket : Float) : Measurement :=
  { timestamp := ceiling
    resource
    name := b.datasource.label
    value := b.value pointsPerBucket
    attributes := b.attributes }

end Bucket

/-- The filling of buckets. -/
structure Bucketing where
  resource : String
  resolution : Duration
  pointsPerBucket : Float
  points : Lattice
  buckets : List Bucket
  /-- Whether the rows before the first bucket have been left behind. -/
  primed : Bool
  input : Feed Float

namespace Bucketing

/-- The filling of buckets over a range, widened to whole resolutions. -/
def start (d : Descriptor) (resource : String) (start finish : Timestamp) (resolution : Duration)
    (input : Feed Float) : Bucketing :=
  { resource
    resolution
    pointsPerBucket := resolution.ratio d.step
    points := .ascending (start.floor resolution) (finish.ceil resolution) resolution
    buckets := d.datasources.map (⟨·, [], none⟩)
    primed := false
    input }

/-- Leaves behind the rows up to `limit`. -/
def skip (limit : Timestamp) : Feed Float → Option QueryError × Feed Float
  | [] => (none, [])
  | .error e :: rest => (some e, rest)
  | .ok row :: rest => if row.timestamp ≤ limit then skip limit rest else (none, .ok row :: rest)

/-- Adds the rows up to `ceiling` to the buckets. -/
def fill (ceiling : Timestamp) :
    List Bucket → Feed Float → List Bucket × Option QueryError × Feed Float
  | buckets, [] => (buckets, none, [])
  | buckets, .error e :: rest => (buckets, some e, rest)
  | buckets, .ok row :: rest =>
    if row.timestamp ≤ ceiling then fill ceiling (buckets.map (·.add row)) rest
    else (buckets, none, .ok row :: rest)

/-- Leaves behind the rows before the first bucket, once. -/
def prime (b : Bucketing) (ceiling : Timestamp) : Option QueryError × Bucketing :=
  if b.primed then (none, b)
  else
    match skip (ceiling - b.resolution) b.input with
    | (some e, input) => (some e, { b with input })
    | (none, input) => (none, { b with input, primed := true })

/-- The next bucket's row, or the error that was met on the way. -/
def next? (b : Bucketing) : Option (Except QueryError (Row Float) × Bucketing) :=
  b.points.next?.map fun (ceiling, points) =>
    match { b with points }.prime ceiling with
    | (some e, b) => (.error e, b)
    | (none, b) =>
      match fill ceiling (b.buckets.map ({ · with values := [] })) b.input with
      | (buckets, some e, input) => (.error e, { b with buckets, input })
      | (buckets, none, input) =>
        let row := (Row.empty ceiling b.resource).insertAll
          (buckets.map (·.measurement b.resource ceiling b.pointsPerBucket))
        (.ok row, { b with buckets := buckets.map ({ · with attributes := none }), input })

end Bucketing

/-- A resolution has to be a whole multiple of the step. -/
def checkResolution (resolution step : Duration) : Except DescriptorError Unit :=
  if resolution.isMultipleOf step then .ok ()
  else .error (.resolutionNotMultiple resolution.text step.text)

namespace Feed

/-- The buckets over a range, widened to whole resolutions. The walk is followed for as many
instants as fit into the range. -/
def buckets (d : Descriptor) (resource : String) (start finish : Timestamp)
    (resolution : Duration) (input : Feed Float) : Feed Float :=
  let b := Bucketing.start d resource start finish resolution input
  unfold Bucketing.next? b.points.count b

/-- The buckets as they are filled, on at most `n` requests. -/
def checkedBuckets (n : Nat) (d : Descriptor) (resource : String) (start finish : Timestamp)
    (resolution : Duration) (input : Feed Float) : Feed Float :=
  run Bucketing.next? n (.start d resource start finish resolution input)

/-- The buckets over a range, if the resolution is admissible. -/
def buckets? (d : Descriptor) (resource : String) (start finish : Timestamp)
    (resolution : Duration) (input : Feed Float) : Except QueryError (Feed Float) :=
  match checkResolution resolution d.step with
  | .error e => .error (.rejected e)
  | .ok () => .ok (buckets d resource start finish resolution input)

end Feed

end Telemetry
