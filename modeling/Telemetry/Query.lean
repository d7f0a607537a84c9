import Telemetry.Feed.Scan
import Telemetry.Feed.Rates
import Telemetry.Feed.Points
import Telemetry.Feed.Buckets
import Telemetry.Feed.Calculated
import Telemetry.Feed.Exported
import Telemetry.Store

/-!
# Queries

A query asks for one resource over a range of time at a resolution, in the shape that a descriptor
gives. Samples become rates, primary points, buckets, calculations and exported rows in turn.
Primary points are made from one resolution before the start on, so that the first bucket is
filled.
-/

namespace Telemetry

/-- A checked query. -/
structure Query where
  resource : String
  start : Timestamp
  finish : Timestamp
  resolution : Duration
  descriptor : Descriptor
  counterWrap : CounterWrap

namespace Query

/-- Checks the range, and then the resolution. -/
def check (resource : String) (start finish : Timestamp) (resolution : Duration)
    (descriptor : Descriptor) (counterWrap : CounterWrap) : Except QueryError Query :=
  if finish < start then .error (.rejected (.invertedRange start.text finish.text))
  else
    match checkResolution resolution descriptor.step with
    | .error e => .error (.rejected e)
    | .ok () => .ok { resource, start, finish, resolution, descriptor, counterWrap }

/-- Where the primary points begin. -/
def primaryStart (q : Query) : Timestamp :=
  q.start - q.resolution

/-- The primary points of the samples. -/
def points (q : Query) (samples : Feed Value) : Feed Float :=
  (samples.rates q.counterWrap q.descriptor.sources).points q.descriptor q.resource
    q.primaryStart q.finish

/-- The exported rows of the samples. -/
def rows (q : Query) (samples : Feed Value) : Feed Float :=
  (((q.points samples).buckets q.descriptor q.resource q.start q.finish q.resolution).calculated
    q.descriptor.calculations).exported q.descriptor.exports

/-- All exported rows, or the first error. -/
def process (q : Query) (samples : Feed Value) : Except QueryError (List (Row Float)) :=
  (q.rows samples).collect

/-! ## Runs

`rows` are computed with integers, and the walks over points and buckets are followed for as many
instants as fit into their ranges. A run counts in 64 bits. It breaks off where a count overflows,
and since the instant of a walk may get stuck at the end of the range of counts, it need not come to
an end at all. -/

/-- Whether an end of the range overflows when it is widened to whole steps or whole resolutions. -/
def boundsOverflow (q : Query) : Bool :=
  q.primaryStart.floorOverflows q.descriptor.step || q.finish.ceilOverflows q.descriptor.step ||
    q.start.floorOverflows q.resolution || q.finish.ceilOverflows q.resolution

/-- The buckets that a run hands out if each stage is asked no more than `n` times. -/
def checkedBuckets (q : Query) (n : Nat) (samples : Feed Value) : Feed Float :=
  if q.boundsOverflow then [.error (.abandoned .overflow)]
  else
    ((samples.checkedRates q.counterWrap q.descriptor.sources).checkedPoints n q.descriptor
      q.resource q.primaryStart q.finish).checkedBuckets n q.descriptor q.resource q.start q.finish
      q.resolution

/-- The rows that a run hands out if each stage is asked no more than `n` times. -/
def checkedRows (q : Query) (n : Nat) (samples : Feed Value) : Feed Float :=
  ((q.checkedBuckets n samples).calculated q.descriptor.calculations).exported
    q.descriptor.exports

/-- What a run returns if each stage is asked no more than `n` times. -/
def run (q : Query) (n : Nat) (samples : Feed Value) : Except QueryError (List (Row Float)) :=
  (q.checkedRows n samples).collect

/-- A run over the stored samples that the query needs. -/
def runSelect (q : Query) (n : Nat) (store : Store) : Except QueryError (List (Row Float)) :=
  q.run n ((Feed.ofRows (store.select q.resource q.primaryStart q.finish)).scan q.resource)

end Query

end Telemetry
