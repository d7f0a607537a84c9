import Telemetry.Proofs.Points.SameInstant
import Telemetry.Proofs.Query.Coverage

/-!
# Slices of a range

A query whose range begins and ends with whole resolutions makes each row of all the points in its
window, and each of these points by itself. So two queries that slice one range in different ways
return the same row for each instant that both of them return a row for.
-/

namespace Telemetry

/-- Rows that pairwise show the same, wherever their instants are the same. -/
theorem contents_of_nanos {rows rows' : List (Row Float)}
    (h : rows.map (·.timestamp.nanos) = rows'.map (·.timestamp.nanos))
    (hagree : ∀ row ∈ rows, ∀ row' ∈ rows', row.timestamp.nanos = row'.timestamp.nanos →
      row.contents = row'.contents) :
    rows.map Row.contents = rows'.map Row.contents :=
  map_eq_iff_forall₂.2 (forall₂_of_map_eq h hagree)

theorem Descriptor.exists_of_rowOf {d : Descriptor} {resource : String} {resolution : Duration}
    {points : List (Row Float)} {c : Timestamp} {row : Row Float}
    (h : d.rowOf resource resolution points c = .ok row) :
    ∃ up, d.calculations.foldlM Calculation.extend
        (d.consolidated resource (resolution.ratio d.step) points c) = .ok up ∧
      Feed.exportRow d.exports up = row := by
  unfold rowOf at h
  cases hup : d.calculations.foldlM Calculation.extend
      (d.consolidated resource (resolution.ratio d.step) points c) with
  | error e =>
    rw [hup] at h
    cases h
  | ok up =>
    rw [hup] at h
    exact ⟨up, rfl, Except.ok.inj h⟩

theorem Descriptor.rowOf_content (d : Descriptor) {resource resource' : String}
    {resolution : Duration} {points points' : List (Row Float)} {c c' : Timestamp}
    {row row' : Row Float} (h : points.map Row.contents = points'.map Row.contents)
    (hrow : d.rowOf resource resolution points c = .ok row)
    (hrow' : d.rowOf resource' resolution points' c' = .ok row') :
    row.contents = row'.contents := by
  obtain ⟨up, hup, rfl⟩ := exists_of_rowOf hrow
  obtain ⟨up', hup', rfl⟩ := exists_of_rowOf hrow'
  refine Feed.exportRow_content (Calculation.foldlM_content ?_ hup hup') d.exports
  exact d.consolidated_content _ h

namespace Query

/-- The row is made of all points in its window. -/
structure MadeOf (q : Query) (points : List (Row Float)) (row : Row Float) : Prop where
  instants : (Row.window q.resolution row.timestamp points).map (·.timestamp.nanos) =
    spaced (row.timestamp.nanos - q.resolution.nanos + q.descriptor.step.nanos)
      row.timestamp.nanos q.descriptor.step.nanos
  count : ((Row.window q.resolution row.timestamp points).length : Int) =
    q.resolution.nanos / q.descriptor.step.nanos
  row_eq : q.descriptor.rowOf q.resource q.resolution
    (Row.window q.resolution row.timestamp points) row.timestamp = .ok row

/-- The range begins and ends with whole resolutions. -/
structure Aligned (q : Query) : Prop where
  start : q.resolution.nanos ∣ q.start.nanos
  finish : q.resolution.nanos ∣ q.finish.nanos

variable {q q' : Query} {samples : List (Row Value)} {points points' out out' : List (Row Float)}

/-- Along an aligned query no window goes beyond the points. -/
theorem nanos_window_aligned (hfits : q.Fits) (haligned : q.Aligned) (hd : q.descriptor.WellFormed)
    (hmultiple : q.resolution.isMultipleOf q.descriptor.step = true)
    (h : q.points (.ofRows samples) = .ofRows points) {c : Timestamp}
    (hc : c ∈ (Lattice.covering q.start q.finish q.resolution).toList) :
    (Row.window q.resolution c points).map (·.timestamp.nanos) =
      spaced (c.nanos - q.resolution.nanos + q.descriptor.step.nanos) c.nanos
        q.descriptor.step.nanos := by
  have hres := Duration.pos_of_isMultipleOf hmultiple
  have hstep := hd.step_pos
  obtain ⟨-, hle, hdvd⟩ := (Duration.isMultipleOf_iff hfits.ratio).1 hmultiple
  obtain ⟨hlower, hupper, hdvd'⟩ := hfits.buckets.nanos_of_mem hres hc
  rw [floorTo_of_dvd haligned.start] at hlower
  rw [ceilTo_of_dvd haligned.finish] at hupper
  have hbefore : c.nanos ≤ ceilTo q.finish.nanos q.descriptor.step.nanos :=
    hupper.trans (le_ceilTo hstep)
  have hwindow := nanos_window hd hfits hmultiple h (hdvd.trans hdvd') hbefore
  rwa [floorTo_of_dvd (hdvd.trans haligned.start), max_eq_right (by omega)] at hwindow

theorem process_aligned (hfits : q.Fits) (haligned : q.Aligned) (hd : q.descriptor.WellFormed)
    (hmultiple : q.resolution.isMultipleOf q.descriptor.step = true)
    (h : q.points (.ofRows samples) = .ofRows points) :
    ∃ out, q.process (.ofRows samples) = .ok out ∧ ∀ row ∈ out, q.MadeOf points row := by
  have hres := Duration.pos_of_isMultipleOf hmultiple
  have hstep := hd.step_pos
  obtain ⟨out, hprocess, hrows⟩ := process_window hd hres hfits h
  refine ⟨out, hprocess, ?_⟩
  intro row hrow
  obtain ⟨c, hc, rfl, hrow⟩ := exists_of_forall₂_mem hrows hrow
  have hwindow := nanos_window_aligned hfits haligned hd hmultiple h hc
  refine ⟨hwindow, ?_, hrow⟩
  have hlength := congrArg List.length hwindow
  rw [List.length_map, length_spaced] at hlength
  have hspan : row.timestamp.nanos -
      (row.timestamp.nanos - q.resolution.nanos + q.descriptor.step.nanos) =
      q.resolution.nanos + q.descriptor.step.nanos * (-1) := by ring
  have hratio : 0 ≤ q.resolution.nanos / q.descriptor.step.nanos :=
    Int.ediv_nonneg hres.le hstep.le
  rw [hlength, hspan, Int.add_mul_ediv_left _ _ hstep.ne']
  omega

theorem points_eq_pointAt (hfits : q.Fits) (hd : q.descriptor.WellFormed)
    (hrows : ∀ row ∈ samples, row.Stamped) (h : q.points (.ofRows samples) = .ofRows points) :
    points = (Lattice.covering q.primaryStart q.finish q.descriptor.step).toList.map
      (q.descriptor.pointAt q.resource
        (Feed.ratedRows q.counterWrap q.descriptor.sources samples)) := by
  rw [Query.points, Feed.rates_ofRows,
    Feed.points_eq_pointAt q.resource (Feed.stamped_ratedRows hrows)
      (hfits.points.follows hd.step_pos), Feed.ofRows_inj] at h
  exact h.symm

/-- The points of both queries at one instant show the same. -/
theorem points_agree (hfits : q.Fits) (hfits' : q'.Fits)
    (hdescriptor : q'.descriptor = q.descriptor) (hpolicy : q'.counterWrap = q.counterWrap)
    (hd : q.descriptor.WellFormed) (hrows : ∀ row ∈ samples, row.Stamped)
    (h : q.points (.ofRows samples) = .ofRows points)
    (h' : q'.points (.ofRows samples) = .ofRows points') :
    ∀ p ∈ points, ∀ p' ∈ points', p.timestamp.nanos = p'.timestamp.nanos →
      p.contents = p'.contents := by
  intro p hp p' hp' hnanos
  rw [points_eq_pointAt hfits hd hrows h] at hp
  rw [points_eq_pointAt hfits' (hdescriptor ▸ hd) hrows h', hdescriptor, hpolicy] at hp'
  obtain ⟨c, hc, rfl⟩ := List.mem_map.1 hp
  obtain ⟨c', hc', rfl⟩ := List.mem_map.1 hp'
  rw [Descriptor.timestamp_pointAt, Descriptor.timestamp_pointAt] at hnanos
  obtain ⟨hmillis, hmillis'⟩ := hfits.points.millis c hc
  have hfloor := Timestamp.nanos_sub (hfits.points.floors c hc)
  have hfloor' := Timestamp.nanos_sub (hdescriptor ▸ hfits'.points.floors c' (hdescriptor ▸ hc'))
  refine q.descriptor.pointAt_same (Timestamp.same_of_fits hnanos hmillis)
    (Timestamp.same_of_fits ?_ ?_) _ _ _
  · rw [hfloor, hfloor', hnanos]
  · rwa [hfloor]

variable {resource : String} {start finish start' finish' : Timestamp} {resolution : Duration}
  {d : Descriptor} {policy : CounterWrap}

/-- Two queries that slice time in whole resolutions make each row of all the points in its window,
and where both return a row for one instant, both rows show the same. -/
theorem process_slices {draft : Draft} (hd : draft.build = .ok d)
    (hq : check resource start finish resolution d policy = .ok q)
    (hq' : check resource start' finish' resolution d policy = .ok q')
    (haligned : q.Aligned) (haligned' : q'.Aligned) (hfits : q.Fits) (hfits' : q'.Fits)
    (hrows : ∀ row ∈ samples, row.Stamped) :
    ∃ points points' out out',
      q.points (.ofRows samples) = .ofRows points ∧
      q'.points (.ofRows samples) = .ofRows points' ∧
      q.process (.ofRows samples) = .ok out ∧
      q'.process (.ofRows samples) = .ok out' ∧
      (∀ row ∈ out, q.MadeOf points row) ∧
      (∀ row ∈ out', q'.MadeOf points' row) ∧
      ∀ row ∈ out, ∀ row' ∈ out', row.timestamp.nanos = row'.timestamp.nanos →
        row.contents = row'.contents := by
  obtain ⟨-, hmultiple, rfl⟩ := check_ok hq
  obtain ⟨-, -, rfl⟩ := check_ok hq'
  have hwf := Draft.wellFormed_of_build hd
  obtain ⟨points, hpoints⟩ :=
    exists_points ⟨resource, start, finish, resolution, d, policy⟩ samples
  obtain ⟨points', hpoints'⟩ :=
    exists_points ⟨resource, start', finish', resolution, d, policy⟩ samples
  obtain ⟨out, hprocess, hmade⟩ := process_aligned hfits haligned hwf hmultiple hpoints
  obtain ⟨out', hprocess', hmade'⟩ := process_aligned hfits' haligned' hwf hmultiple hpoints'
  refine ⟨points, points', out, out', hpoints, hpoints', hprocess, hprocess', hmade, hmade', ?_⟩
  intro row hrow row' hrow' hnanos
  have hagree := points_agree hfits hfits' rfl rfl hwf hrows hpoints hpoints'
  refine d.rowOf_content (contents_of_nanos ?_ ?_) (hmade row hrow).row_eq
    (hmade' row' hrow').row_eq
  · rw [(hmade row hrow).instants, (hmade' row' hrow').instants, hnanos]
  · intro p hp p' hp'
    exact hagree p (Row.window_subset hp) p' (Row.window_subset hp')

theorem process_slices_load : ∃ points points' out out',
    (load 4 8).points (.ofRows loadRows) = .ofRows points ∧
    (load 8 8).points (.ofRows loadRows) = .ofRows points' ∧
    (load 4 8).process (.ofRows loadRows) = .ok out ∧
    (load 8 8).process (.ofRows loadRows) = .ok out' ∧
    (∀ row ∈ out, (load 4 8).MadeOf points row) ∧
    (∀ row ∈ out', (load 8 8).MadeOf points' row) ∧
    ∀ row ∈ out, ∀ row' ∈ out', row.timestamp.nanos = row'.timestamp.nanos →
      row.contents = row'.contents := by
  have hq : check "host" (.ofTicks 4 .seconds) (.ofTicks 8 .seconds) (.ofTicks 4 .seconds) .load
      .wrap = .ok (.load 4 8) := rfl
  have hq' : check "host" (.ofTicks 8 .seconds) (.ofTicks 8 .seconds) (.ofTicks 4 .seconds) .load
      .wrap = .ok (.load 8 8) := rfl
  have hfits : (load 4 8).Fits := ⟨by decide, by decide, by decide, by decide, by decide⟩
  have hfits' : (load 8 8).Fits := ⟨by decide, by decide, by decide, by decide, by decide⟩
  exact process_slices Draft.build_load hq hq' ⟨by decide, by decide⟩ ⟨by decide, by decide⟩
    hfits hfits' (by decide)

end Query

end Telemetry
