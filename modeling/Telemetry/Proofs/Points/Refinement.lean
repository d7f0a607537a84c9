import Telemetry.Proofs.Points.Batch

/-!
# Primary points hold the averages of the whole timeline

For rows in ascending order without errors, the points over a range are one step apart, from the
start of the range rounded down to its end rounded up, and each holds what `Datasource.batch` says
of its bucket. Units are milliseconds or coarser, since a bucket is measured in whole milliseconds.
-/

namespace Telemetry

/-- Spans and instants are counted in milliseconds or in a coarser unit. -/
structure Descriptor.Coarse (d : Descriptor) (rows : List (Row Value)) : Prop where
  step : TimeUnit.milliseconds.nanos ≤ d.step.unit.nanos
  heartbeats : ∀ ds ∈ d.datasources, TimeUnit.milliseconds.nanos ≤ ds.heartbeat.unit.nanos
  rows : ∀ row ∈ rows, TimeUnit.milliseconds.nanos ≤ row.timestamp.unit.nanos

/-- No time arithmetic leaves the range of a count while points are made of these rows. -/
structure PointsFit (d : Descriptor) (start finish : Timestamp) (rows : List (Row Value)) :
    Prop where
  walk : WalkFits start finish d.step
  heartbeats : ∀ ds ∈ d.datasources, Fits ds.heartbeat.nanos .milliseconds
  samples : ∀ ds ∈ d.datasources, ∀ s ∈ samplesOf ds.source rows,
    Fits s.timestamp.nanos .milliseconds ∧ s.timestamp.AddFits ds.heartbeat

section

variable {d : Descriptor} {start finish : Timestamp} {rows : List (Row Value)}

theorem PointsFit.inMillis (h : PointsFit d start finish rows) (hcoarse : d.Coarse rows)
    (hrows : ∀ row ∈ rows, row.Stamped) {ds : Datasource} (hds : ds ∈ d.datasources) :
    ds.InMillis rows := by
  have hinstants : ∀ row ∈ rows, 1000000 ∣ row.timestamp.nanos := by
    intro row hrow
    exact Timestamp.dvd_nanos (hcoarse.rows row hrow)
  refine ⟨?_, hinstants, ?_, ?_⟩
  · exact (Duration.ticksIn_mul_nanos (hcoarse.heartbeats ds hds) (h.heartbeats ds hds)).symm
  · intro s hs
    obtain ⟨row, hrow, hnanos⟩ := nanos_of_mem_samplesOf hrows hs
    apply Timestamp.whole_of_dvd (h.samples ds hds s hs).1
    rw [hnanos]
    exact hinstants row hrow
  · intro s hs
    exact (h.samples ds hds s hs).2

/-- The bucket of a point begins and ends with whole milliseconds. -/
theorem PointsFit.whole (h : PointsFit d start finish rows) (hcoarse : d.Coarse rows)
    (hstep : 0 < d.step.nanos) {c : Timestamp}
    (hc : c ∈ (Lattice.covering start finish d.step).toList) :
    c.Whole ∧ (c - d.step).Whole ∧ (c - d.step).millis = c.exactMillis - d.step.exactMillis := by
  have hstep' : 1000000 ∣ d.step.nanos := (TimeUnit.nanos_dvd hcoarse.step).mul_left _
  have hc' : 1000000 ∣ c.nanos := hstep'.trans (h.walk.nanos_of_mem hstep hc).2.2
  have hsub := Timestamp.nanos_sub (h.walk.floors c hc)
  obtain ⟨hmillis, hmillis'⟩ := h.walk.millis c hc
  rw [← hsub] at hmillis'
  have hfloor := Timestamp.whole_of_dvd hmillis' (by rw [hsub]; exact Int.dvd_sub hc' hstep')
  refine ⟨Timestamp.whole_of_dvd hmillis hc', hfloor, ?_⟩
  rw [← hfloor.exactMillis, Timestamp.exactMillis, hsub, Timestamp.exactMillis,
    Duration.exactMillis]
  omega

theorem PointsFit.bucketFits (h : PointsFit d start finish rows) (hstep : 0 < d.step.nanos)
    {ds : Datasource} (hds : ds ∈ d.datasources) {c : Timestamp}
    (hc : c ∈ (Lattice.covering start finish d.step).toList) :
    ds.BucketFits (c - d.step) c rows := by
  refine ⟨?_, fun s hs => (h.samples ds hds s hs).2⟩
  rw [Timestamp.lt_iff, Timestamp.nanos_sub (h.walk.floors c hc)]
  omega

/-- What a closed track amounts to is what the whole timeline says. -/
theorem average_close (h : PointsFit d start finish rows) (hcoarse : d.Coarse rows)
    (hrows : ∀ row ∈ rows, row.Stamped) (hasc : Row.Ascending rows) (hstep : 0 < d.step.nanos)
    {ds : Datasource} (hds : ds ∈ d.datasources) {c : Timestamp}
    (hc : c ∈ (Lattice.covering start finish d.step).toList) :
    ((⟨ds, {}⟩ : Track).close (c - d.step) c rows).coverage.average = ds.batch d.step rows c := by
  have hmillis := h.inMillis hcoarse hrows hds
  obtain ⟨hwhole, hfloor, hspan⟩ := h.whole hcoarse hstep hc
  have hheartbeat : ds.heartbeat.exactMillis = ds.heartbeat.millis := by
    rw [Duration.exactMillis, hmillis.heartbeat]
    omega
  rw [(Track.tells_close hrows hasc hmillis hfloor hwhole).average, Datasource.batch, hheartbeat,
    ← hspan, hwhole.exactMillis]

end

/-- The points over any range hold the averages that the whole timeline of each datasource gives. -/
theorem Feed.points_eq_batch {draft : Draft} {d : Descriptor} {start finish : Timestamp}
    {rows : List (Row Value)} (hd : draft.build = .ok d) (resource : String)
    (hrows : ∀ row ∈ rows, row.Stamped) (hasc : Row.Ascending rows) (hcoarse : d.Coarse rows)
    (hfits : PointsFit d start finish rows) :
    ∃ points, Feed.points d resource start finish (.ofRows rows) = .ofRows points ∧
      points.map (·.timestamp.nanos) =
        spaced (floorTo start.nanos d.step.nanos) (ceilTo finish.nanos d.step.nanos)
          d.step.nanos ∧
      ∀ p ∈ points, ∀ ds ∈ d.datasources, ∃ m, p.get? ds.label = some m ∧
        m.value = ds.batch d.step rows p.timestamp := by
  have hwf := Draft.wellFormed_of_build hd
  refine ⟨_, Feed.points_eq_pointAt resource hrows (hfits.walk.follows hwf.step_pos), ?_, ?_⟩
  · rw [List.map_map, ← hfits.walk.nanos_toList hwf.step_pos]
    exact List.map_congr_left fun c _ => by simp [Descriptor.timestamp_pointAt]
  · intro p hp ds hds
    obtain ⟨c, hc, rfl⟩ := List.mem_map.1 hp
    have hmem : ((⟨ds, {}⟩ : Track).close (c - d.step) c rows).measurement resource c ∈
        (d.pointAt resource rows c).readings := by
      rw [Descriptor.readings_pointAt hwf.datasources_nodup]
      exact List.mem_map_of_mem (List.mem_map_of_mem hds)
    have hget := Row.get?_name hmem
    rw [show (Track.measurement _ resource c).name = ds.label by simp [Track.measurement]] at hget
    refine ⟨_, hget, ?_⟩
    rw [Descriptor.timestamp_pointAt]
    exact average_close hfits hcoarse hrows hasc hwf.step_pos hds hc

theorem Feed.points_eq_batch_load : ∃ points,
    Feed.points .load "host" (.ofTicks 1500 .milliseconds) (.ofTicks 3 .seconds)
      (.ofRows loadRows) = .ofRows points ∧
    points.map (·.timestamp.nanos) = [1000000000, 2000000000, 3000000000] ∧
    ∀ p ∈ points, ∀ ds ∈ Descriptor.load.datasources, ∃ m, p.get? ds.label = some m ∧
      m.value = ds.batch (.ofTicks 1 .seconds) loadRows p.timestamp :=
  Feed.points_eq_batch Draft.build_load "host" (by decide) (by decide)
    ⟨by decide, by decide, by decide⟩
    ⟨by decide, by decide, by decide⟩

end Telemetry
