import Telemetry.Proofs.Buckets.Run
import Telemetry.Proofs.Points.Timeline
import Telemetry.Proofs.Stages
import Telemetry.Query

/-!
# The shape of what a query returns

Whatever rows a query is given, as long as none of them is an error, it returns one row for each
resolution from the start rounded down to the end rounded up. Each row has the exported labels in
their order, and each of its measurements was computed: none is missing, and none is filled in.
-/

namespace Telemetry

namespace Query

variable {resource : String} {start finish : Timestamp} {resolution : Duration} {d : Descriptor}
  {policy : CounterWrap} {q : Query}

/-- A query that is accepted has a range that is not inverted and an admissible resolution. -/
theorem check_ok (h : check resource start finish resolution d policy = .ok q) :
    start ≤ finish ∧ resolution.isMultipleOf d.step = true ∧
      q = ⟨resource, start, finish, resolution, d, policy⟩ := by
  unfold check at h
  split at h
  · cases h
  rename_i hrange
  unfold checkResolution at h
  split at h
  · cases h
  rename_i hres
  split at hres
  · rename_i hmultiple
    exact ⟨Int.not_lt.1 hrange, hmultiple, (Except.ok.inj h).symm⟩
  · cases hres

/-- The rows of the samples before labels are exported. -/
def computed (q : Query) (samples : Feed Value) : Feed Float :=
  ((q.points samples).buckets q.descriptor q.resource q.start q.finish q.resolution).calculated
    q.descriptor.calculations

theorem rows_eq (q : Query) (samples : Feed Value) :
    q.rows samples = (q.computed samples).exported q.descriptor.exports := rfl

/-- The induction runs over the rows of the buckets, none of which lacks a label. -/
theorem exists_calculated (hd : d.WellFormed) {cs : List Timestamp} {rows : List (Row Float)}
    (h : List.Forall₂ (fun c row => row.Shaped resource c (d.datasources.map (·.label))) cs rows) :
    ∃ upstream, List.Forall₂
        (fun row up => d.calculations.foldlM Calculation.extend row = .ok up) rows upstream ∧
      List.Forall₂ (fun c up => up.Shaped resource c d.labels) cs upstream := by
  induction h with
  | nil => exact ⟨[], .nil, .nil⟩
  | cons hrow _ ih =>
    obtain ⟨upstream, hups, hshapes⟩ := ih
    obtain ⟨up, hup, hshaped⟩ :=
      Calculation.foldlM_extend_shaped hrow hd.in_order hd.labels_nodup
    exact ⟨up :: upstream, .cons hup hups, .cons hshaped hshapes⟩

theorem exported_ofRows (exports : List String) (rows : List (Row Float)) :
    Feed.exported exports (.ofRows rows) = .ofRows (rows.map (Feed.exportRow exports)) := by
  refine Feed.mapRows_ofRows ?_
  rw [List.forall₂_map_right_iff, List.forall₂_same]
  exact fun row _ => rfl

/-- Where the buckets give rows of all datasources, no later stage fails. -/
theorem process_of_buckets (hd : q.descriptor.WellFormed) {samples : Feed Value}
    {cs : List Timestamp} {rows : List (Row Float)}
    (hrows : (q.points samples).buckets q.descriptor q.resource q.start q.finish q.resolution =
      .ofRows rows)
    (hshaped : List.Forall₂
      (fun c row => row.Shaped q.resource c (q.descriptor.datasources.map (·.label))) cs rows) :
    ∃ upstream,
      List.Forall₂
        (fun row up => q.descriptor.calculations.foldlM Calculation.extend row = .ok up)
        rows upstream ∧
      List.Forall₂ (fun c up => up.Shaped q.resource c q.descriptor.labels) cs upstream ∧
      q.computed samples = .ofRows upstream ∧
      q.process samples = .ok (upstream.map (Feed.exportRow q.descriptor.exports)) := by
  obtain ⟨upstream, hups, hshapes⟩ := exists_calculated hd hshaped
  have hcomputed : q.computed samples = .ofRows upstream := by
    rw [computed, hrows]
    exact Feed.mapRows_ofRows hups
  refine ⟨upstream, hups, hshapes, hcomputed, ?_⟩
  rw [process, rows_eq, hcomputed, exported_ofRows, Feed.collect_ofRows]

theorem exists_points (q : Query) (samples : List (Row Value)) :
    ∃ points, q.points (.ofRows samples) = .ofRows points := by
  rw [Query.points, Feed.rates_ofRows, Feed.points_ofRows]
  exact ⟨_, rfl⟩

theorem process_ofRows (hd : q.descriptor.WellFormed) (samples : List (Row Value)) :
    ∃ upstream,
      List.Forall₂ (fun c up => up.Shaped q.resource c q.descriptor.labels)
        (Lattice.covering q.start q.finish q.resolution).toList upstream ∧
      q.computed (.ofRows samples) = .ofRows upstream ∧
      q.process (.ofRows samples) = .ok (upstream.map (Feed.exportRow q.descriptor.exports)) := by
  obtain ⟨points, hpoints⟩ := q.exists_points samples
  have hbuckets := Feed.buckets_ofRows q.descriptor q.resource q.start q.finish q.resolution points
  rw [← hpoints] at hbuckets
  have hshaped := (forall₂_bucketRows q.descriptor q.resource
    (q.resolution.ratio q.descriptor.step) (Lattice.covering q.start q.finish q.resolution).toList
    (Row.after (q.start.floor q.resolution - q.resolution) points)).imp
      fun c row ⟨window, hrow⟩ => hrow ▸
        Descriptor.consolidated_shaped hd.datasources_nodup q.resource _ window c
  obtain ⟨upstream, -, hrest⟩ := process_of_buckets hd hbuckets hshaped
  exact ⟨upstream, hrest⟩

/-- An export takes all of its measurements out of the row that was computed. -/
theorem exported_shaped (hd : d.WellFormed) {cs : List Timestamp} {upstream : List (Row Float)}
    (h : List.Forall₂ (fun c up => up.Shaped resource c d.labels) cs upstream) :
    List.Forall₂ (fun up row => row.Shaped resource up.timestamp d.exports ∧
      row.readings ⊆ up.readings) upstream (upstream.map (Feed.exportRow d.exports)) := by
  induction h with
  | nil => exact .nil
  | cons hrow _ ih =>
    refine .cons ?_ ih
    rw [hrow.timestamp_eq]
    exact Feed.exportRow_shaped hrow hd.exports_nodup hd.exports_defined

theorem timestamp_of_shaped {labels : List String} {cs : List Timestamp} {rows : List (Row Float)}
    (h : List.Forall₂ (fun c row => row.Shaped resource c labels) cs rows) :
    rows.map (·.timestamp) = cs := by
  induction h with
  | nil => rfl
  | cons hrow _ ih => rw [List.map_cons, hrow.timestamp_eq, ih]

/-- Asks for `Draft.load` in buckets of four seconds. -/
def load (start finish : Int) : Query :=
  ⟨"host", .ofTicks start .seconds, .ofTicks finish .seconds, .ofTicks 4 .seconds, .load, .wrap⟩

end Query

end Telemetry
