import Telemetry.Proofs.Agreement
import Telemetry.Proofs.Query.Runs

/-!
# Runs that count without bounds

The stages of a run can be asked just as often and yet count with integers. On rows without errors a
run agrees with what they hand out. Where no walk of the query leaves the range of a count, that is
what the query returns, and `process_shaped` says what it looks like.
-/

namespace Telemetry

namespace Query

variable {q : Query} {n : Nat}

/-- The points of a run that counts without bounds. -/
def exactPoints (q : Query) (n : Nat) (samples : Feed Value) : Feed Float :=
  .run Resampling.next? n (.start q.descriptor q.resource q.primaryStart q.finish
    (samples.rates q.counterWrap q.descriptor.sources))

/-- The buckets of a run that counts without bounds. -/
def exactBuckets (q : Query) (n : Nat) (samples : Feed Value) : Feed Float :=
  (q.exactPoints n samples).checkedBuckets n q.descriptor q.resource q.start q.finish q.resolution

/-- The rows of a run that counts without bounds. -/
def exactRows (q : Query) (n : Nat) (samples : Feed Value) : Feed Float :=
  ((q.exactBuckets n samples).calculated q.descriptor.calculations).exported q.descriptor.exports

theorem exactPoints_ofRows (q : Query) (n : Nat) (samples : List (Row Value)) :
    q.exactPoints n (.ofRows samples) =
      .ofRows (pointRows q.resource q.descriptor.step
        ((Lattice.covering q.primaryStart q.finish q.descriptor.step).take n) q.descriptor.tracks
        (Feed.ratedRows q.counterWrap q.descriptor.sources samples)) ++
      Feed.goesOn (Lattice.covering q.primaryStart q.finish q.descriptor.step) n := by
  rw [exactPoints, Feed.rates_ofRows]
  exact (Resampling.follows_next? q.resource q.descriptor.step).run_eq
    (a := (q.descriptor.tracks, Feed.ratedRows q.counterWrap q.descriptor.sources samples))
    ⟨rfl, rfl, rfl, _, rfl, rfl⟩ n

theorem agrees_checkedBuckets (h : (q.descriptor.datasources.map (·.label)).Nodup) (n : Nat)
    (samples : List (Row Value)) :
    (q.checkedBuckets n (.ofRows samples)).Agrees (q.exactBuckets n (.ofRows samples)) := by
  unfold checkedBuckets
  cases q.boundsOverflow with
  | true => exact .of_overflow _ _
  | false =>
    -- For which causes a run is abandoned plays no part here.
    let C : Abandonment → Prop := fun _ => True
    have hrates : Feed.Prompt C (fun _ => True)
        (Feed.checkedRates q.counterWrap q.descriptor.sources) fun _ => True :=
      Feed.prompt_checkedRatesFrom trivial _ _
    have hpoints : Feed.Prompt C (fun _ => True)
        (Feed.checkedPoints n q.descriptor q.resource q.primaryStart q.finish) fun _ => True :=
      Feed.prompt_checkedPoints trivial (.inr trivial) q.resource
    have hbuckets : Feed.Prompt C (fun _ => True)
        (Feed.checkedBuckets n q.descriptor q.resource q.start q.finish q.resolution) _ :=
      Feed.prompt_checkedBuckets h (.inr trivial) q.resource
    have hsound := hrates.total samples (by simp)
    refine hbuckets.agrees (hpoints.sound hsound) ((hpoints.agrees hsound
      (Feed.agrees_checkedRatesFrom _ _ samples)).trans ?_)
    rw [exactPoints, Feed.rates, Feed.scanRows_ofRows]
    exact Feed.agrees_attempt? n ⟨_, rfl, rfl⟩

theorem agrees_checkedRows (hd : q.descriptor.WellFormed) (n : Nat) (samples : List (Row Value)) :
    (q.checkedRows n (.ofRows samples)).Agrees (q.exactRows n (.ofRows samples)) := by
  have hsound := (prompt_checkedBuckets hd n).total samples (by simp)
  have hcalculated := Feed.prompt_calculated (C := q.CanAbandon n) hd q.resource
  exact (Feed.prompt_exported _ q.descriptor.exports).agrees (hcalculated.sound hsound)
    (hcalculated.agrees hsound (agrees_checkedBuckets hd.datasources_nodup n samples))

/-! ## Walks within the range of a count -/

/-- Asked until their walks are at their end, stages that count without bounds hand out the rows of
the query. -/
theorem exactRows_eq_rows (hpos : 0 < q.descriptor.step.nanos) (hres : 0 < q.resolution.nanos)
    (hpoints : RangeFits q.primaryStart q.finish q.descriptor.step)
    (hbuckets : RangeFits q.start q.finish q.resolution) (hends : q.EndsWithin n)
    (samples : List (Row Value)) : q.exactRows n (.ofRows samples) = q.rows (.ofRows samples) := by
  have hexact : q.exactPoints n (.ofRows samples) = q.points (.ofRows samples) := by
    rw [exactPoints_ofRows, points, Feed.rates_ofRows, Feed.points_ofRows,
      Lattice.take_eq_of_pull?_none hends.1 (hpoints.pull?_count hpos),
      Feed.goesOn_of_none hends.1, List.append_nil]
    rfl
  obtain ⟨rows, hrows⟩ := q.exists_points samples
  rw [exactRows, exactBuckets, hexact, Query.rows, hrows, Feed.checkedBuckets_ofRows,
    Feed.buckets_ofRows, Lattice.take_eq_of_pull?_none hends.2 (hbuckets.pull?_count hres),
    Feed.goesOn_of_none hends.2, List.append_nil]
  rfl

/-- Where the walks stay within the range of a count, a run that is asked until they are at their
end returns what the query returns, unless a count overflows on the way. -/
theorem run_eq_process (hd : q.descriptor.WellFormed) (hres : 0 < q.resolution.nanos)
    (hpoints : RangeFits q.primaryStart q.finish q.descriptor.step)
    (hbuckets : RangeFits q.start q.finish q.resolution) (hends : q.EndsWithin n)
    (samples : List (Row Value)) :
    q.run n (.ofRows samples) = .error (.abandoned .overflow) ∨
      q.run n (.ofRows samples) = q.process (.ofRows samples) := by
  have hagrees := (agrees_checkedRows hd n samples).collect
  rwa [exactRows_eq_rows hd.step_pos hres hpoints hbuckets hends] at hagrees

/-- Walks within the range of a count come to their end. -/
theorem exists_endsWithin (hpos : 0 < q.descriptor.step.nanos) (hres : 0 < q.resolution.nanos)
    (hpoints : RangeFits q.primaryStart q.finish q.descriptor.step)
    (hbuckets : RangeFits q.start q.finish q.resolution) : ∃ n, ∀ m ≥ n, q.EndsWithin m := by
  refine ⟨max (Lattice.covering q.primaryStart q.finish q.descriptor.step).count
    (Lattice.covering q.start q.finish q.resolution).count, fun m hm => ⟨?_, ?_⟩⟩
  · exact Lattice.pull?_eq_none_of_le (hpoints.pull?_count hpos) ((Nat.le_max_left _ _).trans hm)
  · exact Lattice.pull?_eq_none_of_le (hbuckets.pull?_count hres) ((Nat.le_max_right _ _).trans hm)

/-! ## What a query returns -/

variable {resource : String} {start finish : Timestamp} {resolution : Duration} {d : Descriptor}
  {policy : CounterWrap}

/-- A query that is accepted never fails on rows without errors, and what it returns has one shape
whatever the rows are. If no instant of the points leaves the range either, a run that is asked
often enough returns the same, unless a count overflows. -/
theorem process_shaped {draft : Draft} (hd : draft.build = .ok d)
    (hq : check resource start finish resolution d policy = .ok q)
    (hfits : RangeFits start finish resolution) (samples : List (Row Value)) :
    ∃ upstream out,
      q.computed (.ofRows samples) = .ofRows upstream ∧
      q.process (.ofRows samples) = .ok out ∧
      out.map (·.timestamp.nanos) =
        spaced (start.floor resolution).nanos (finish.ceil resolution).nanos resolution.nanos ∧
      out.head?.map (·.timestamp) = some (start.floor resolution) ∧
      out.getLast?.map (·.timestamp.nanos) = some (finish.ceil resolution).nanos ∧
      Row.Ascending out ∧
      List.Forall₂ (fun up row => row.Shaped resource up.timestamp d.exports ∧
        row.readings ⊆ up.readings) upstream out ∧
      (RangeFits (start - resolution) finish d.step → ∃ n, ∀ m ≥ n,
        q.run m (.ofRows samples) = .error (.abandoned .overflow) ∨
          q.run m (.ofRows samples) = .ok out) := by
  obtain ⟨hrange, hmultiple, rfl⟩ := check_ok hq
  have hwf := Draft.wellFormed_of_build hd
  have hres := Duration.pos_of_isMultipleOf hmultiple
  obtain ⟨upstream, hshapes, hcomputed, hprocess⟩ := process_ofRows
    (q := ⟨resource, start, finish, resolution, d, policy⟩) hwf samples
  have hstamps : (upstream.map (Feed.exportRow d.exports)).map (·.timestamp) =
      (Lattice.covering start finish resolution).toList := by
    rw [← timestamp_of_shaped hshapes, List.map_map]
    exact List.map_congr_left fun up _ => Row.timestamp_insertAll
  have hnanos := hfits.nanos_toList hres
  have hfloor := Timestamp.nanos_floor hres hfits.floor
  have hceil := Timestamp.nanos_ceil hres hfits.ceil
  have hends := hfits.floor_le_ceil hres hrange
  refine ⟨upstream, _, hcomputed, hprocess, ?_, ?_, ?_, ?_, ?_, fun hpoints => ?_⟩
  · rw [← Function.comp_def Timestamp.nanos, ← List.map_map, hstamps, hnanos, hfloor, hceil]
  · obtain ⟨rest, hlist⟩ := Lattice.toList_of_le hends
    rw [← List.head?_map, hstamps, hlist]
    rfl
  · rw [← Function.comp_def Timestamp.nanos, ← Option.map_map, ← List.getLast?_map, hstamps,
      ← List.getLast?_map, hnanos, hceil]
    refine getLast?_spaced hres ?_ (Int.dvd_sub dvd_ceilTo dvd_floorTo)
    rwa [← hfloor, ← hceil]
  · rw [Row.Ascending, ← List.pairwise_map (R := fun a b : Timestamp => a < b), hstamps]
    exact hfits.pairwise hres
  · exact exported_shaped hwf hshapes
  · obtain ⟨n, hn⟩ := exists_endsWithin
      (q := ⟨resource, start, finish, resolution, d, policy⟩) hwf.step_pos hres hpoints hfits
    refine ⟨n, fun m hm => ?_⟩
    rw [← hprocess]
    exact run_eq_process (q := ⟨resource, start, finish, resolution, d, policy⟩) hwf hres hpoints
      hfits (hn m hm) samples

theorem process_shaped_load :
    check "host" (.ofTicks 6 .seconds) (.ofTicks 8 .seconds) (.ofTicks 4 .seconds) .load .wrap =
      .ok (.load 6 8) ∧
    ∃ upstream out,
      (load 6 8).computed (.ofRows loadRows) = .ofRows upstream ∧
      (load 6 8).process (.ofRows loadRows) = .ok out ∧
      out.map (·.timestamp.nanos) = [4000000000, 8000000000] ∧
      out.head?.map (·.timestamp) = some (.ofTicks 4 .seconds) ∧
      out.getLast?.map (·.timestamp.nanos) = some 8000000000 ∧
      Row.Ascending out ∧
      List.Forall₂ (fun up row => row.Shaped "host" up.timestamp ["load"] ∧
        row.readings ⊆ up.readings) upstream out ∧
      ∃ n, ∀ m ≥ n,
        (load 6 8).run m (.ofRows loadRows) = .error (.abandoned .overflow) ∨
          (load 6 8).run m (.ofRows loadRows) = .ok out := by
  have hq : check "host" (.ofTicks 6 .seconds) (.ofTicks 8 .seconds) (.ofTicks 4 .seconds) .load
      .wrap = .ok (.load 6 8) := rfl
  obtain ⟨upstream, out, hcomputed, hprocess, hinstants, hfirst, hlast, hasc, hshape, hrun⟩ :=
    process_shaped Draft.build_load hq (by decide) loadRows
  exact ⟨hq, upstream, out, hcomputed, hprocess, hinstants, hfirst, hlast, hasc, hshape,
    hrun (by decide)⟩

end Query

end Telemetry
