import Telemetry.Proofs.Buckets.Consolidated
import Telemetry.Proofs.Consolidation

/-!
# Buckets without a known point

A search for an extreme that finds nothing ends where it started, with a number that is no point at
all. A bucket is safe from that: the known points have to exceed a part of the bucket that is never
negative, and no points at all do not. So what is consolidated always has a known point in it, and a
bucket without one is unknown. This holds of any points, in whatever order they come.
-/

namespace Telemetry

/-- The points that the buckets which end with the given instants take up, one bucket after the
other: those before the first that is later than the end of the bucket. -/
def heldPoints {α : Type} : List Timestamp → List (Row α) → List (List (Row α))
  | [], _ => []
  | c :: rest, points => Row.upTo c points :: heldPoints rest (Row.after c points)

theorem forall₂_heldPoints (d : Descriptor) (resource : String) (pointsPerBucket : Float)
    (cs : List Timestamp) (points : List (Row Float)) :
    List.Forall₂ (fun held bucket => ∃ c, bucket = d.consolidated resource pointsPerBucket held c)
      (heldPoints cs points) (bucketRows d resource pointsPerBucket cs points) := by
  induction cs generalizing points with
  | nil => exact .nil
  | cons c rest ih => exact .cons ⟨c, rfl⟩ (ih _)

/-- Some point has a number under the label. -/
def Row.Knows (label : String) (points : List (Row Float)) : Prop :=
  ∃ point ∈ points, ∃ m, point.get? label = some m ∧ m.value.isNaN = false

namespace Datasource

variable {ds : Datasource} {pointsPerBucket : Float} {points : List (Row Float)} {m : Measurement}

theorem knows_iff {label : String} :
    Row.Knows label points ↔ Consolidation.known (points.map (·.valueOf label)) ≠ [] := by
  rw [Ne, List.eq_nil_iff_forall_not_mem, not_forall_not]
  constructor
  · rintro ⟨point, hpoint, m, hm, hvalue⟩
    have hshown : point.valueOf label = m.value := by rw [Row.valueOf, hm]; rfl
    refine ⟨point.valueOf label, Consolidation.mem_known_iff.2 ⟨List.mem_map_of_mem hpoint, ?_⟩⟩
    rwa [hshown]
  · rintro ⟨x, hx⟩
    obtain ⟨hmem, hvalue⟩ := Consolidation.mem_known_iff.1 hx
    obtain ⟨point, hpoint, rfl⟩ := List.mem_map.1 hmem
    unfold Row.valueOf at hvalue
    cases hget : point.get? label with
    | none =>
      rw [hget] at hvalue
      cases hvalue
    | some m =>
      rw [hget] at hvalue
      exact ⟨point, hpoint, m, hget, hvalue⟩

/-- The known points make up more of a bucket than the datasource asks to be exceeded. -/
def Enough (ds : Datasource) (pointsPerBucket : Float) (points : List (Row Float)) : Prop :=
  let values := points.map (·.valueOf ds.label)
  ds.xff < (Consolidation.known values).length.toUInt64.toFloat / pointsPerBucket

/-- Enough of the points are known only where one of them is. -/
theorem knows_of_enough (hxff : 0 ≤ ds.xff) (henough : ds.Enough pointsPerBucket points) :
    Row.Knows ds.label points := by
  refine knows_iff.2 fun hnone => ?_
  have hzero : ([] : List Float).length.toUInt64.toFloat = 0 := by decide +kernel
  simp only [Enough, hnone, hzero] at henough
  exact Number.not_lt_zero_div hxff _ henough

/-- The measurement of a bucket is made of the points that the bucket holds. They are consolidated
only if one of them is known, and otherwise the measurement is unknown. -/
structure Grounded (ds : Datasource) (pointsPerBucket : Float) (held : List (Row Float))
    (m : Measurement) : Prop extends ds.Consolidates pointsPerBucket held m where
  knows : ds.Enough pointsPerBucket held → Row.Knows ds.label held
  unknown : ¬ Row.Knows ds.label held → m.value.isNaN = true

theorem Consolidates.grounded (h : ds.Consolidates pointsPerBucket points m)
    (hxff : 0 ≤ ds.xff) : ds.Grounded pointsPerBucket points m := by
  refine ⟨h, knows_of_enough hxff, fun hnone => ?_⟩
  have hfew : ¬ ds.Enough pointsPerBucket points := fun henough =>
    hnone (knows_of_enough hxff henough)
  rw [h.value_eq]
  exact (congrArg Float.isNaN (if_neg hfew)).trans isNaN_unknown

end Datasource

variable {d : Descriptor} {resolution : Duration}

/-- Whatever points come, no bucket of a descriptor that was built consolidates points of which none
is known; it gives a measurement that is unknown instead. -/
theorem Feed.buckets?_grounded {draft : Draft} (hd : draft.build = .ok d) (resource : String)
    (start finish : Timestamp) (hmultiple : resolution.isMultipleOf d.step = true)
    (points : List (Row Float)) :
    ∃ buckets,
      Feed.buckets? d resource start finish resolution (.ofRows points) = .ok (.ofRows buckets) ∧
      List.Forall₂ (fun held bucket => ∀ ds ∈ d.datasources, ∃ m,
          bucket.get? ds.label = some m ∧ ds.Grounded (resolution.ratio d.step) held m)
        (heldPoints (Lattice.covering start finish resolution).toList
          (Row.after (start.floor resolution - resolution) points))
        buckets := by
  have hnodup := (Draft.wellFormed_of_build hd).datasources_nodup
  refine ⟨_, by rw [buckets?, checkResolution, if_pos hmultiple, buckets_ofRows], ?_⟩
  refine (forall₂_heldPoints d resource _ _ _).imp ?_
  rintro held bucket ⟨c, rfl⟩ ds hds
  have hxff := (Draft.admissible_of_build hd ds hds).nonneg
  exact ⟨_, Descriptor.get?_consolidated hnodup hds _ _ _ c,
    (Bucket.consolidates_measurement ds resource c _ _).grounded hxff⟩

/-! ## A search for the least number among none -/

/-- A datasource for which one known point is enough. -/
def Draft.lowest : Draft :=
  ({ step := .ofTicks 1 .seconds } : Draft).datasource "low" "cpu" .min
    (some (.ofTicks 2 .seconds)) (some 0) |>.exporting ["low"]

/-- What `Draft.lowest` is built into. -/
def Descriptor.lowest : Descriptor :=
  { step := .ofTicks 1 .seconds
    datasources := [⟨"low", "cpu", .ofTicks 2 .seconds, 0, .min⟩]
    calculations := []
    exports := ["low"] }

/-- A point without a number and one without a measurement, and only then a known one. -/
def silentPoints : List (Row Float) :=
  let point (n : Int) (x : Float) : Row Float :=
    (Row.empty (.ofTicks n .seconds) "host").insert
      ⟨.ofTicks n .seconds, "host", "low", x, none⟩
  [point 3 unknown, Row.empty (.ofTicks 4 .seconds) "host", point 5 7]

theorem Feed.buckets?_grounded_silent :
    Draft.lowest.build = .ok .lowest ∧
    (Duration.ofTicks 2 .seconds).isMultipleOf Descriptor.lowest.step = true ∧
    Consolidation.min.apply [unknown, unknown] = Consolidation.greatestFinite ∧
    ∃ first second m,
      Feed.buckets? .lowest "host" (.ofTicks 4 .seconds) (.ofTicks 6 .seconds)
        (.ofTicks 2 .seconds) (.ofRows silentPoints) = .ok (.ofRows [first, second]) ∧
      first.get? "low" = some m ∧ m.value.isNaN = true := by
  have hbuild : Draft.lowest.build = .ok .lowest := rfl
  have hmultiple : (Duration.ofTicks 2 .seconds).isMultipleOf Descriptor.lowest.step = true := by
    decide
  obtain ⟨buckets, hbuckets, hgrounded⟩ := buckets?_grounded hbuild "host" (.ofTicks 4 .seconds)
    (.ofTicks 6 .seconds) hmultiple silentPoints
  have hheld : heldPoints (Lattice.covering (.ofTicks 4 .seconds) (.ofTicks 6 .seconds)
      (.ofTicks 2 .seconds)).toList (Row.after ((Timestamp.ofTicks 4 .seconds).floor
        (.ofTicks 2 .seconds) - Duration.ofTicks 2 .seconds) silentPoints) =
      [silentPoints.take 2, silentPoints.drop 2] := by
    rfl
  rw [hheld] at hgrounded
  obtain ⟨first, others, hfirst, hothers, rfl⟩ := List.forall₂_cons_left_iff.1 hgrounded
  obtain ⟨second, none, -, hnone, rfl⟩ := List.forall₂_cons_left_iff.1 hothers
  obtain rfl := List.forall₂_nil_left_iff.1 hnone
  obtain ⟨m, hm, hground⟩ := hfirst _ List.mem_cons_self
  have hsilent : ¬ Row.Knows "low" (silentPoints.take 2) := by
    rw [Datasource.knows_iff, not_not]
    rfl
  exact ⟨hbuild, hmultiple, by decide, first, second, m, hbuckets, hm, hground.unknown hsilent⟩

end Telemetry
