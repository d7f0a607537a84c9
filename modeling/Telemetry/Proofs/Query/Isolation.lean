import Telemetry.Proofs.Query.Exact
import Telemetry.Proofs.Selection

/-!
# Datasources by themselves

All datasources of a descriptor read the same input, and one with a long heartbeat may have rows
read ahead that the others have not come to yet. None of this shows in the buckets of another one:
cut down to its label, they are the buckets of a descriptor that has no other datasource. Only a
count that overflows for one datasource takes the buckets of all of them away.
-/

namespace Telemetry

theorem Feed.keep_goesOn {α : Type} (p : String → Bool) (l : Lattice) (n : Nat) :
    (goesOn l n : Feed α).keep p = goesOn l n := by
  unfold goesOn
  split
  · rfl
  · rfl

namespace Query

variable {q : Query} {alone : Descriptor} {ds : Datasource}

/-- The points under one label are made by its datasource alone. -/
theorem exactPoints_only (h : (q.descriptor.datasources.map (·.label)).Nodup)
    (hds : ds ∈ q.descriptor.datasources) (hstep : alone.step = q.descriptor.step)
    (halone : alone.datasources = [ds]) (n : Nat) (samples : List (Row Value)) :
    { q with descriptor := alone }.exactPoints n (.ofRows samples) =
      (q.exactPoints n (.ofRows samples)).keep (· = ds.label) := by
  have htracks : (q.descriptor.tracks.map (·.datasource.label)).Nodup := by
    simpa [Descriptor.tracks, Function.comp_def] using h
  have htrack : (⟨ds, {}⟩ : Track) ∈ q.descriptor.tracks := List.mem_map_of_mem hds
  have hsource : ds.source ∈ q.descriptor.sources :=
    List.mem_eraseDups.2 (List.mem_map_of_mem hds)
  have hsources : q.descriptor.sources.Nodup := nodup_eraseDups _
  have hpoints := pointRows_only q.resource q.descriptor.step
    ((Lattice.covering q.primaryStart q.finish q.descriptor.step).take n)
    (Feed.ratedRows q.counterWrap q.descriptor.sources samples) htracks htrack
  dsimp only at hpoints
  rw [Feed.ratedRows_only hsources hsource] at hpoints
  have hkeep := Feed.keep_ofRows (· = ds.label) (pointRows q.resource q.descriptor.step
    ((Lattice.covering q.primaryStart q.finish q.descriptor.step).take n) q.descriptor.tracks
    (Feed.ratedRows q.counterWrap q.descriptor.sources samples))
  rw [hpoints] at hkeep
  rw [exactPoints_ofRows, exactPoints_ofRows, Feed.keep, List.map_append, ← Feed.keep, hkeep,
    ← Feed.keep, Feed.keep_goesOn]
  simp only [Descriptor.sources, Descriptor.tracks, halone, hstep, primaryStart]
  rfl

/-- Where no count is bounded, other datasources leave no trace at all. -/
theorem exactBuckets_only (h : (q.descriptor.datasources.map (·.label)).Nodup)
    (hds : ds ∈ q.descriptor.datasources) (hstep : alone.step = q.descriptor.step)
    (halone : alone.datasources = [ds]) (n : Nat) (samples : List (Row Value)) :
    { q with descriptor := alone }.exactBuckets n (.ofRows samples) =
      (q.exactBuckets n (.ofRows samples)).keep (· = ds.label) := by
  rw [exactBuckets, exactPoints_only h hds hstep halone]
  exact Feed.checkedBuckets_only h hds hstep halone n q.resource q.start q.finish q.resolution _

variable {resource : String} {start finish : Timestamp} {resolution : Duration} {d : Descriptor}
  {policy : CounterWrap}

/-- Of a descriptor, the checks of a query look only at the step. -/
theorem check_descriptor (hq : check resource start finish resolution d policy = .ok q)
    (hstep : alone.step = d.step) :
    check resource start finish resolution alone policy = .ok { q with descriptor := alone } := by
  obtain ⟨hrange, hmultiple, rfl⟩ := check_ok hq
  have hnot : ¬ finish < start := Int.not_lt.2 hrange
  rw [check, if_neg hnot, checkResolution, hstep, if_pos hmultiple]

/-- What a run hands out under one label on its first requests, it hands out for a descriptor with
that datasource alone, unless a count overflows on the way. -/
theorem checkedBuckets_alone {draft : Draft} (hd : draft.build = .ok d)
    (hq : check resource start finish resolution d policy = .ok q) (hds : ds ∈ d.datasources)
    (hstep : alone.step = d.step) (halone : alone.datasources = [ds])
    (samples : List (Row Value)) (n : Nat) : ∃ q',
    check resource start finish resolution alone policy = .ok q' ∧
      (∀ k, Feed.Overflows ((q.checkedBuckets n (.ofRows samples)).take k) ∨
        Feed.Overflows ((q'.checkedBuckets n (.ofRows samples)).take k) ∨
        (q'.checkedBuckets n (.ofRows samples)).take k =
          Feed.keep (· = ds.label) ((q.checkedBuckets n (.ofRows samples)).take k)) ∧
      ∀ row, .ok row ∈ (q.checkedBuckets n (.ofRows samples)).untilError →
        ∃ m, row.get? ds.label = some m := by
  have hcheck := check_descriptor hq hstep
  obtain ⟨-, -, rfl⟩ := check_ok hq
  let q : Query := ⟨resource, start, finish, resolution, d, policy⟩
  have hwf : q.descriptor.WellFormed := Draft.wellFormed_of_build hd
  have hnodup := hwf.datasources_nodup
  have hnodup' : (alone.datasources.map (·.label)).Nodup := by
    rw [halone]
    exact List.nodup_singleton _
  refine ⟨_, hcheck, fun k => ?_, fun row hrow => ?_⟩
  · have hagrees := (agrees_checkedBuckets hnodup n samples).take k
    have hagrees' := (agrees_checkedBuckets (q := { q with descriptor := alone }) hnodup' n
      samples).take k
    rcases hagrees with hover | hexact
    · exact .inl hover
    rcases hagrees' with hover | hexact'
    · exact .inr (.inl hover)
    refine .inr (.inr (hexact'.trans ?_))
    rw [exactBuckets_only hnodup hds hstep halone, hexact]
    exact List.map_take.symm
  · have hsound := (prompt_checkedBuckets hwf n).total samples (by simp)
    obtain ⟨c, hshaped⟩ := hsound.of_mem_untilError hrow
    exact Row.exists_get? (hshaped.names_eq ▸ List.mem_map_of_mem hds)

end Query

/-- `Draft.load` with a second datasource that waits longer for its samples. -/
def Draft.busy : Draft :=
  Draft.load.datasource "free" "mem" .max (some (.ofTicks 4 .seconds)) none |>.exporting ["free"]

/-- What `Draft.busy` is built into. -/
def Descriptor.busy : Descriptor :=
  { Descriptor.load with
    datasources := Descriptor.load.datasources ++
      [⟨"free", "mem", .ofTicks 4 .seconds, defaultXff, .max⟩]
    exports := ["load", "free"] }

theorem Query.checkedBuckets_alone_busy : ∃ q',
    check "host" (.ofTicks 6 .seconds) (.ofTicks 8 .seconds) (.ofTicks 4 .seconds) .load .wrap =
      .ok q' ∧
    let q : Query := { load 6 8 with descriptor := .busy }
    q.EndsWithin 7 ∧
    (∀ k, (q'.checkedBuckets 7 (.ofRows loadRows)).take k =
      Feed.keep (· = "load") ((q.checkedBuckets 7 (.ofRows loadRows)).take k)) ∧
    ∀ row, .ok row ∈ (q.checkedBuckets 7 (.ofRows loadRows)).untilError →
      ∃ m, row.get? "load" = some m := by
  have hd : Draft.busy.build = .ok .busy := rfl
  have hq : check "host" (.ofTicks 6 .seconds) (.ofTicks 8 .seconds) (.ofTicks 4 .seconds) .busy
      .wrap = .ok { load 6 8 with descriptor := .busy } := rfl
  have hds : ⟨"load", "cpu", .ofTicks 2 .seconds, defaultXff, .average⟩ ∈
      Descriptor.busy.datasources := List.mem_cons_self
  have hstep : Descriptor.load.step = Descriptor.busy.step := rfl
  obtain ⟨q', hcheck, hparts, hrows⟩ := checkedBuckets_alone hd hq hds hstep rfl loadRows 7
  obtain rfl : load 6 8 = q' := Except.ok.inj hcheck
  refine ⟨load 6 8, hcheck, by decide, fun k => ?_, hrows⟩
  rcases hparts k with hover | hover | hsame
  · exact absurd hover.of_take (Feed.not_overflows_of_collect (by decide +kernel))
  · exact absurd hover.of_take (Feed.not_overflows_of_collect (by decide +kernel))
  · exact hsame

end Telemetry
