import Telemetry.Proofs.Buckets.Window
import Telemetry.Proofs.Query.Shape

/-!
# Which points a row is made of

Primary points begin one resolution before the start, rounded down to the step, and buckets begin
with the start rounded down to the resolution. Each row is made of the points in its window. The
window of the first row has all of its points just if the start lies less than two steps behind that
row: a start further on leaves out the points at the beginning of the window.
-/

namespace Telemetry

theorem Feed.ofRows_inj {α : Type} {rows rows' : List (Row α)} :
    ofRows rows = ofRows rows' ↔ rows = rows' := by
  constructor
  · intro h
    exact List.map_injective_iff.2 (fun _ _ => Except.ok.inj) h
  · rintro rfl
    rfl

theorem timestamp_pointRows (resource : String) (step : Duration) (cs : List Timestamp)
    (tracks : List Track) (rows : List (Row Value)) :
    (pointRows resource step cs tracks rows).map (·.timestamp) = cs := by
  induction cs generalizing tracks rows with
  | nil => rfl
  | cons c rest ih =>
    rw [pointRows, List.map_cons, ih]
    exact congrArg (· :: rest) Row.timestamp_insertAll

/-- The exported row that the points of one bucket amount to. -/
def Descriptor.rowOf (d : Descriptor) (resource : String) (resolution : Duration)
    (points : List (Row Float)) (c : Timestamp) : Except QueryError (Row Float) :=
  (d.calculations.foldlM Calculation.extend
    (d.consolidated resource (resolution.ratio d.step) points c)).map (Feed.exportRow d.exports)

namespace Query

/-- No time arithmetic of the query leaves the range of a count. -/
structure Fits (q : Query) : Prop where
  ratio : q.resolution.RatioFits q.descriptor.step
  primary : q.start.SubFits q.resolution
  points : WalkFits q.primaryStart q.finish q.descriptor.step
  buckets : RangeFits q.start q.finish q.resolution
  first : (q.start.floor q.resolution).SubFits q.resolution

variable {q : Query} {samples : List (Row Value)} {points : List (Row Float)}

theorem timestamp_points (h : q.points (.ofRows samples) = .ofRows points) :
    points.map (·.timestamp) =
      (Lattice.covering q.primaryStart q.finish q.descriptor.step).toList := by
  rw [Query.points, Feed.rates_ofRows, Feed.points_ofRows, Feed.ofRows_inj] at h
  rw [← h, timestamp_pointRows]

theorem ascending_points (hd : q.descriptor.WellFormed) (hfits : q.Fits)
    (h : q.points (.ofRows samples) = .ofRows points) : Row.Ascending points := by
  rw [Row.Ascending, ← List.pairwise_map (R := fun a b : Timestamp => a < b), timestamp_points h]
  exact hfits.points.pairwise hd.step_pos

/-- Each row is made of the points in the window that ends with it. -/
theorem process_window (hd : q.descriptor.WellFormed) (hres : 0 < q.resolution.nanos)
    (hfits : q.Fits) (h : q.points (.ofRows samples) = .ofRows points) :
    ∃ out, q.process (.ofRows samples) = .ok out ∧
      List.Forall₂ (fun c row => row.timestamp = c ∧
        q.descriptor.rowOf q.resource q.resolution (Row.window q.resolution c points) c = .ok row)
        (Lattice.covering q.start q.finish q.resolution).toList out := by
  have hbuckets := Feed.buckets_eq_window (d := q.descriptor) q.resource hfits.buckets hres
    hfits.first (ascending_points hd hfits h)
  rw [← h] at hbuckets
  obtain ⟨upstream, hups, hshapes, -, hprocess⟩ := process_of_buckets hd hbuckets
    (List.forall₂_map_right_iff.2 (List.forall₂_same.2 fun c _ =>
      Descriptor.consolidated_shaped hd.datasources_nodup _ _ _ c))
  refine ⟨_, hprocess, List.forall₂_map_right_iff.2 ?_⟩
  rw [List.forall₂_map_left_iff] at hups
  refine List.Forall₂.mp (fun c up hup hshape => ⟨?_, ?_⟩) hups hshapes
  · exact Row.timestamp_insertAll.trans hshape.timestamp_eq
  · rw [Descriptor.rowOf, hup]
    rfl

/-- The points begin one resolution before the start, rounded down to the step. -/
theorem nanos_points (hd : q.descriptor.WellFormed) (hfits : q.Fits)
    (hmultiple : q.resolution.isMultipleOf q.descriptor.step = true)
    (h : q.points (.ofRows samples) = .ofRows points) :
    points.map (·.timestamp.nanos) =
      spaced (floorTo q.start.nanos q.descriptor.step.nanos - q.resolution.nanos)
        (ceilTo q.finish.nanos q.descriptor.step.nanos) q.descriptor.step.nanos := by
  obtain ⟨-, -, hres⟩ := (Duration.isMultipleOf_iff hfits.ratio).1 hmultiple
  rw [← floorTo_sub_of_dvd hres, ← Timestamp.nanos_sub hfits.primary]
  change _ = spaced (floorTo q.primaryStart.nanos _) _ _
  rw [← hfits.points.nanos_toList hd.step_pos, ← timestamp_points h, List.map_map]
  rfl

/-- The points in the window of a bucket that ends on the lattice of the points. -/
theorem nanos_window (hd : q.descriptor.WellFormed) (hfits : q.Fits)
    (hmultiple : q.resolution.isMultipleOf q.descriptor.step = true)
    (h : q.points (.ofRows samples) = .ofRows points) {c : Timestamp}
    (hdvd : q.descriptor.step.nanos ∣ c.nanos)
    (hle : c.nanos ≤ ceilTo q.finish.nanos q.descriptor.step.nanos) :
    (Row.window q.resolution c points).map (·.timestamp.nanos) =
      spaced (max (floorTo q.start.nanos q.descriptor.step.nanos - q.resolution.nanos)
        (c.nanos - q.resolution.nanos + q.descriptor.step.nanos)) c.nanos
        q.descriptor.step.nanos := by
  obtain ⟨-, -, hres⟩ := (Duration.isMultipleOf_iff hfits.ratio).1 hmultiple
  have hlo : q.descriptor.step.nanos ∣ c.nanos - q.resolution.nanos -
      (floorTo q.start.nanos q.descriptor.step.nanos - q.resolution.nanos) :=
    Int.dvd_sub (Int.dvd_sub hdvd hres) (Int.dvd_sub dvd_floorTo hres)
  rw [Row.nanos_window, nanos_points hd hfits hmultiple h, filter_spaced hd.step_pos hlo hle]

variable {resource : String} {start finish : Timestamp} {resolution : Duration} {d : Descriptor}
  {policy : CounterWrap}

/-- The first row is made of all points in its window just if the start lies less than two steps
behind it. Otherwise the points before the first one that is made are missing. -/
theorem process_first {draft : Draft} (hd : draft.build = .ok d)
    (hq : check resource start finish resolution d policy = .ok q) (hfits : q.Fits)
    (samples : List (Row Value)) :
    ∃ points row rest,
      q.points (.ofRows samples) = .ofRows points ∧
      q.process (.ofRows samples) = .ok (row :: rest) ∧
      row.timestamp = start.floor resolution ∧
      d.rowOf resource resolution (Row.window resolution row.timestamp points) row.timestamp =
        .ok row ∧
      (Row.window resolution row.timestamp points).map (·.timestamp.nanos) =
        spaced (max (floorTo start.nanos d.step.nanos - resolution.nanos)
          (row.timestamp.nanos - resolution.nanos + d.step.nanos)) row.timestamp.nanos
          d.step.nanos ∧
      ((Row.window resolution row.timestamp points).map (·.timestamp.nanos) =
          spaced (row.timestamp.nanos - resolution.nanos + d.step.nanos) row.timestamp.nanos
            d.step.nanos ↔
        start.nanos < row.timestamp.nanos + 2 * d.step.nanos) := by
  obtain ⟨hrange, hmultiple, rfl⟩ := check_ok hq
  have hwf := Draft.wellFormed_of_build hd
  have hstep := hwf.step_pos
  obtain ⟨-, hle, hdvd⟩ : 0 < d.step.nanos ∧ d.step.nanos ≤ resolution.nanos ∧
      d.step.nanos ∣ resolution.nanos := (Duration.isMultipleOf_iff hfits.ratio).1 hmultiple
  have hres : 0 < resolution.nanos := Duration.pos_of_isMultipleOf hmultiple
  obtain ⟨points, hpoints⟩ := exists_points _ samples
  obtain ⟨out, hprocess, hrows⟩ := process_window hwf hres hfits hpoints
  obtain ⟨cs, hlist⟩ := Lattice.toList_of_le (hfits.buckets.floor_le_ceil hres hrange)
  rw [hlist] at hrows
  obtain ⟨row, rest, ⟨htimestamp, hrow⟩, -, rfl⟩ := List.forall₂_cons_left_iff.1 hrows
  have hnanos : row.timestamp.nanos = floorTo start.nanos resolution.nanos := by
    rw [htimestamp]
    exact Timestamp.nanos_floor hres hfits.buckets.floor
  have hstep_dvd : d.step.nanos ∣ row.timestamp.nanos := by
    rw [hnanos]
    exact hdvd.trans dvd_floorTo
  have hfloor : row.timestamp.nanos ≤ start.nanos := by
    rw [hnanos]
    exact floorTo_le hres
  have hceil : finish.nanos ≤ ceilTo finish.nanos d.step.nanos := le_ceilTo hstep
  have hwindow := nanos_window hwf hfits hmultiple hpoints hstep_dvd
    (hfloor.trans (hrange.trans hceil))
  dsimp only at hwindow
  refine ⟨points, row, rest, hpoints, hprocess, htimestamp, by rwa [htimestamp], hwindow, ?_⟩
  rw [hwindow, spaced_max_eq_iff hstep (by omega)]
  have hiff := floorTo_le_iff (n := start.nanos) hstep (Int.dvd_add hstep_dvd (Int.dvd_refl _))
  constructor
  · intro h
    have := hiff.1 (by omega)
    omega
  · intro h
    have := hiff.2 (by omega)
    omega

/-- From 6 s on in buckets of 4 s, the first row lacks the point at 1 s. -/
theorem process_first_load : ∃ points row rest,
    (load 6 8).points (.ofRows loadRows) = .ofRows points ∧
    (load 6 8).process (.ofRows loadRows) = .ok (row :: rest) ∧
    row.timestamp = .ofTicks 4 .seconds ∧
    (Row.window (.ofTicks 4 .seconds) row.timestamp points).map (·.timestamp.nanos) =
      [2000000000, 3000000000, 4000000000] := by
  have hq : check "host" (.ofTicks 6 .seconds) (.ofTicks 8 .seconds) (.ofTicks 4 .seconds) .load
      .wrap = .ok (.load 6 8) := rfl
  have hfits : (load 6 8).Fits := ⟨by decide, by decide, by decide, by decide, by decide⟩
  obtain ⟨points, row, rest, hpoints, hprocess, htimestamp, -, hwindow, -⟩ :=
    process_first Draft.build_load hq hfits loadRows
  have hfloor : (Timestamp.ofTicks 6 .seconds).floor (.ofTicks 4 .seconds) =
      .ofTicks 4 .seconds := by decide
  rw [hfloor] at htimestamp
  refine ⟨points, row, rest, hpoints, hprocess, htimestamp, hwindow.trans ?_⟩
  rw [htimestamp]
  decide

end Query

end Telemetry
