import Telemetry.Proofs.Attributes
import Telemetry.Proofs.Buckets.Window
import Telemetry.Proofs.Points.Timeline

/-!
# What the buckets of points say

Over ascending points, each bucket gives one measurement of each datasource. It is made of the
points in the bucket's window: their values, in order, with what is missing taken as unknown, are
reduced to one if enough of them are known, and what is attached to them is merged. Points outside
of all windows have no influence.
-/

namespace Telemetry

/-- The measurement that a datasource gets from some points. -/
structure Datasource.Consolidates (ds : Datasource) (pointsPerBucket : Float)
    (points : List (Row Float)) (m : Measurement) : Prop where
  value_eq :
    let values := points.map (·.valueOf ds.label)
    m.value =
      if ds.xff < (Consolidation.known values).length.toUInt64.toFloat / pointsPerBucket then
        ds.function.apply values
      else unknown
  merged : Attributes.Merged (points.map fun point => (point.get? ds.label).bind (·.attributes))
    m.attributes

variable {d : Descriptor} {ds : Datasource} {start finish : Timestamp} {resolution : Duration}
  {points : List (Row Float)}

theorem Bucket.consolidates_measurement (ds : Datasource) (resource : String) (c : Timestamp)
    (pointsPerBucket : Float) (points : List (Row Float)) :
    ds.Consolidates pointsPerBucket points
      (((⟨ds, [], none⟩ : Bucket).addAll points).measurement resource c pointsPerBucket) := by
  rw [Bucket.addAll_eq]
  refine ⟨?_, ?_⟩
  · simp only [measurement, value, List.nil_append]
  · simpa [measurement] using Attributes.Merged.nil.foldl _

/-- The points that lie in the window of some bucket over a range. -/
def Row.within (start finish : Timestamp) (resolution : Duration) (points : List (Row Float)) :
    List (Row Float) :=
  points.filter fun point =>
    floorTo start.nanos resolution.nanos - resolution.nanos < point.timestamp.nanos ∧
      point.timestamp.nanos ≤ ceilTo finish.nanos resolution.nanos

theorem Row.window_within (hfits : RangeFits start finish resolution)
    (hres : 0 < resolution.nanos) {c : Timestamp}
    (hc : c ∈ (Lattice.covering start finish resolution).toList) :
    window resolution c (within start finish resolution points) = window resolution c points := by
  obtain ⟨hlo, hhi, -⟩ := hfits.nanos_of_mem hres hc
  rw [window, within, List.filter_filter, window]
  apply List.filter_congr
  intro point _
  rw [← Bool.decide_and, decide_eq_decide]
  omega

/-- The buckets over a range end one resolution apart, from the start rounded down to the end
rounded up, and each of them consolidates the points of its window. -/
theorem Feed.buckets?_consolidates {draft : Draft} (hd : draft.build = .ok d) (resource : String)
    (hmultiple : resolution.isMultipleOf d.step = true) (hfits : RangeFits start finish resolution)
    (hfirst : (start.floor resolution).SubFits resolution) (hasc : Row.Ascending points) :
    ∃ buckets,
      Feed.buckets? d resource start finish resolution (.ofRows points) = .ok (.ofRows buckets) ∧
      Feed.buckets? d resource start finish resolution
        (.ofRows (Row.within start finish resolution points)) = .ok (.ofRows buckets) ∧
      buckets.map (·.timestamp) = (Lattice.covering start finish resolution).toList ∧
      buckets.map (·.timestamp.nanos) =
        spaced (floorTo start.nanos resolution.nanos) (ceilTo finish.nanos resolution.nanos)
          resolution.nanos ∧
      ∀ bucket ∈ buckets,
        bucket.Shaped resource bucket.timestamp (d.datasources.map (·.label)) ∧
        ∀ ds ∈ d.datasources, ∃ m, bucket.get? ds.label = some m ∧
          ds.Consolidates (resolution.ratio d.step)
            (Row.window resolution bucket.timestamp points) m := by
  have hnodup := (Draft.wellFormed_of_build hd).datasources_nodup
  have hres := Duration.pos_of_isMultipleOf hmultiple
  have hchecked (points : List (Row Float)) :
      Feed.buckets? d resource start finish resolution (.ofRows points) =
        .ok (Feed.buckets d resource start finish resolution (.ofRows points)) := by
    rw [buckets?, checkResolution, if_pos hmultiple]
  have hwithin : Row.Ascending (Row.within start finish resolution points) :=
    hasc.sublist List.filter_sublist
  let made (points : List (Row Float)) (c : Timestamp) : Row Float :=
    d.consolidated resource (resolution.ratio d.step) (Row.window resolution c points) c
  have hstamp (c : Timestamp) : (made points c).timestamp = c := Row.timestamp_insertAll
  refine ⟨(Lattice.covering start finish resolution).toList.map (made points), ?_, ?_, ?_, ?_, ?_⟩
  · rw [hchecked, Feed.buckets_eq_window resource hfits hres hfirst hasc]
  · rw [hchecked, Feed.buckets_eq_window resource hfits hres hfirst hwithin]
    congr 2
    apply List.map_congr_left
    intro c hc
    simp only [made, Row.window_within hfits hres hc]
  · simp only [List.map_map, Function.comp_def, hstamp, List.map_id']
  · simp only [List.map_map, Function.comp_def, hstamp, hfits.nanos_toList hres]
  · intro bucket hbucket
    obtain ⟨c, -, rfl⟩ := List.mem_map.1 hbucket
    rw [hstamp]
    refine ⟨Descriptor.consolidated_shaped hnodup _ _ _ c, fun ds hds => ?_⟩
    exact ⟨_, Descriptor.get?_consolidated hnodup hds _ _ _ c,
      Bucket.consolidates_measurement ds resource c _ _⟩

/-- A point on the lower bound of the first bucket, two points in it, a point without a measurement,
one without a value, and one behind the last bucket. -/
def gappyPoints : List (Row Float) :=
  let point (n : Int) (x : Float) (attributes : Option Attributes) : Row Float :=
    (Row.empty (.ofTicks n .seconds) "host").insert
      ⟨.ofTicks n .seconds, "host", "load", x, attributes⟩
  [point 2 100 none, point 3 1 (some (.ofList [("zone", "a")])), point 4 5 none,
    Row.empty (.ofTicks 5 .seconds) "host", point 6 unknown none, point 7 100 none]

theorem Feed.buckets?_consolidates_gappy :
    Draft.load.build = .ok .load ∧
    (Duration.ofTicks 2 .seconds).isMultipleOf Descriptor.load.step = true ∧
    RangeFits (.ofTicks 4 .seconds) (.ofTicks 5 .seconds) (.ofTicks 2 .seconds) ∧
    Row.Ascending gappyPoints ∧
    ∃ first second m,
      Feed.buckets? .load "host" (.ofTicks 4 .seconds) (.ofTicks 5 .seconds)
        (.ofTicks 2 .seconds) (.ofRows gappyPoints) = .ok (.ofRows [first, second]) ∧
      first.get? "load" = some m ∧ m.value = 3 ∧
      m.attributes = some (.ofList [("zone", "a")]) := by
  have hmultiple : (Duration.ofTicks 2 .seconds).isMultipleOf Descriptor.load.step = true := by
    decide
  have hfits : RangeFits (.ofTicks 4 .seconds) (.ofTicks 5 .seconds) (.ofTicks 2 .seconds) := by
    decide
  have hfirst : ((Timestamp.ofTicks 4 .seconds).floor (.ofTicks 2 .seconds)).SubFits
      (.ofTicks 2 .seconds) := by decide
  have hasc : Row.Ascending gappyPoints := by decide
  obtain ⟨buckets, hbuckets, -, -, hinstants, hsay⟩ :=
    buckets?_consolidates Draft.build_load "host" hmultiple hfits hfirst hasc
  have hspaced : spaced (floorTo (Timestamp.ofTicks 4 .seconds).nanos
      (Duration.ofTicks 2 .seconds).nanos) (ceilTo (Timestamp.ofTicks 5 .seconds).nanos
      (Duration.ofTicks 2 .seconds).nanos) (Duration.ofTicks 2 .seconds).nanos =
      [4000000000, 6000000000] := by decide
  rw [hspaced] at hinstants
  obtain ⟨first, _, rfl, hfour, hrest⟩ := List.map_eq_cons_iff.1 hinstants
  obtain ⟨second, _, rfl, -, hnil⟩ := List.map_eq_cons_iff.1 hrest
  obtain rfl := List.map_eq_nil_iff.1 hnil
  obtain ⟨-, hmeasured⟩ := hsay first List.mem_cons_self
  obtain ⟨m, hm, hvalue, hmerged⟩ := hmeasured _ List.mem_cons_self
  refine ⟨Draft.build_load, hmultiple, hfits, hasc, first, second, m, hbuckets, hm, ?_, ?_⟩
  · rw [hvalue, Row.window, hfour]
    decide +kernel
  · rw [Row.window, hfour] at hmerged
    exact (hmerged.unique (Attributes.Merged.nil.foldl _)).trans (by decide +kernel)

end Telemetry
