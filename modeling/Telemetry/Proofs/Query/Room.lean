import Telemetry.Proofs.Points.Room
import Telemetry.Proofs.Query.Exact
import Telemetry.Proofs.Selection
import Telemetry.Proofs.Time.Elapsed

/-!
# Queries whose counts have room

A query is computed with integers, and a run counts in 64 bits. Where all instants of the query and
of its samples are central, and the time from each sample to the later ones can be counted, the two
are the same: no count overflows, neither in the rates nor in the points, both walks come to their
end, and a run that is asked often enough returns what the query returns.
-/

namespace Telemetry

namespace Feed

variable {tracked : List Tracked} {rows : List (Row Value)}

/-- The time from each sample of the rows to those of later rows can be counted. -/
def GapsFit (rows : List (Row Value)) : Prop :=
  rows.Pairwise fun a b => ∀ p ∈ a.readings, ∀ s ∈ b.readings, s.timestamp.SinceFits p.timestamp

instance (rows : List (Row Value)) : Decidable (GapsFit rows) :=
  inferInstanceAs (Decidable (rows.Pairwise _))

/-- The induction runs over the rows; what is remembered of a metric is one of the samples before
them. -/
theorem checkedRatesFrom_eq (policy : CounterWrap) (hmetrics : (tracked.map (·.metric)).Nodup)
    (hgaps : GapsFit rows)
    (hlast : ∀ t ∈ tracked, ∀ p ∈ t.last, ∀ row ∈ rows, ∀ s ∈ row.readings,
      s.timestamp.SinceFits p.timestamp) :
    checkedRatesFrom policy tracked (ofRows rows) =
      scanRows (rateRow policy) tracked (ofRows rows) := by
  induction rows generalizing tracked with
  | nil => rfl
  | cons row rest ih =>
    obtain ⟨hfirst, hrest⟩ := List.pairwise_cons.1 hgaps
    have hnone : extractOverflows tracked row.readings = false := by
      rw [extractOverflows_eq hmetrics row.nodup, List.any_eq_false]
      intro t ht
      cases hfind : row.readings.find? (·.name = t.metric) with
      | none => exact Bool.false_ne_true
      | some s =>
        have hs := List.mem_of_find?_eq_some hfind
        cases hprevious : t.last with
        | none => simp [ratedOverflows]
        | some p =>
          have hfits := hlast t ht p hprevious row List.mem_cons_self s hs
          simp [ratedOverflows, Timestamp.not_sinceOverflows hfits]
    have hseen : ∀ t ∈ tracked.map (·.see row.readings), ∀ p ∈ t.last, ∀ row' ∈ rest,
        ∀ s ∈ row'.readings, s.timestamp.SinceFits p.timestamp := by
      rw [List.forall_mem_map]
      intro t ht p hp row' hrow' s hs
      unfold Tracked.see at hp
      split at hp
      next s' hfind =>
        cases hp
        exact hfirst row' hrow' s' (List.mem_of_find?_eq_some hfind) s hs
      next => exact hlast t ht p hp row' (.tail row hrow') s hs
    have hmetrics' : ((tracked.map (·.see row.readings)).map (·.metric)).Nodup := by
      simpa [Function.comp_def] using hmetrics
    rw [ofRows_cons, checkedRatesFrom, scanRows, hnone, if_neg Bool.false_ne_true,
      rateRow_eq hmetrics]
    exact congrArg (_ :: ·) (ih hmetrics' hrest hseen)

end Feed

namespace Query

variable {q : Query} {n : Nat} {samples : List (Row Value)}

/-- All counts of the query over these samples have room. -/
structure HasRoom (q : Query) (samples : List (Row Value)) : Prop where
  points : WalkFits q.primaryStart q.finish q.descriptor.step
  buckets : RangeFits q.start q.finish q.resolution
  rows : Row.Central samples
  gaps : Feed.GapsFit samples
  central : ∀ c ∈ (Lattice.covering q.primaryStart q.finish q.descriptor.step).toList,
    (c - q.descriptor.step).Central ∧ c.Central

namespace HasRoom

theorem not_boundsOverflow (h : q.HasRoom samples) (hd : q.descriptor.WellFormed)
    (hres : 0 < q.resolution.nanos) : q.boundsOverflow = false := by
  rw [boundsOverflow, Timestamp.not_floorOverflows h.points.floor,
    Timestamp.not_ceilOverflows hd.step_pos h.points.ceil,
    Timestamp.not_floorOverflows h.buckets.floor, Timestamp.not_ceilOverflows hres h.buckets.ceil]
  rfl

theorem central_ratedRows (h : q.HasRoom samples) :
    Row.Central (Feed.ratedRows q.counterWrap q.descriptor.sources samples) where
  stamped := Feed.stamped_ratedRows h.rows.stamped
  ascending := Feed.ascending_ratedRows h.rows.ascending
  central := Feed.forall_mem_scanned fun tracked row hrow => by
    rw [Feed.timestamp_rateRow]
    exact h.rows.central row hrow

theorem checkedPoints_eq (h : q.HasRoom samples) (hd : q.descriptor.WellFormed)
    (hends : q.EndsWithin n) :
    (Feed.checkedRates q.counterWrap q.descriptor.sources (.ofRows samples)).checkedPoints n
        q.descriptor q.resource q.primaryStart q.finish =
      q.exactPoints n (.ofRows samples) := by
  have hsources : q.descriptor.sources.Nodup := nodup_eraseDups _
  have hnodup : ((q.descriptor.sources.map fun metric => (⟨metric, none⟩ : Feed.Tracked)).map
      (·.metric)).Nodup := by
    simpa [Function.comp_def] using hsources
  have hrates : Feed.checkedRates q.counterWrap q.descriptor.sources (.ofRows samples) =
      .ofRows (Feed.ratedRows q.counterWrap q.descriptor.sources samples) := by
    rw [← Feed.rates_ofRows, Feed.checkedRates, Feed.rates]
    exact Feed.checkedRatesFrom_eq _ hnodup h.gaps (by simp)
  rw [hrates, exactPoints, Feed.rates_ofRows, Feed.checkedPoints]
  refine Resampling.run_attempt?_eq_next? n ⟨_, rfl, rfl⟩ h.central_ratedRows ?_ ?_
  · intro t ht floor
    obtain ⟨ds, -, rfl⟩ := List.mem_map.1 ht
    exact ⟨Coverage.hasRoom_reset (c := {}) (by simp) floor, by simp⟩
  · have htake := Lattice.take_eq_of_pull?_none hends.1 (h.points.pull?_count hd.step_pos)
    change ∀ c ∈ (Lattice.covering q.primaryStart q.finish q.descriptor.step).take n, _
    rw [htake]
    intro c hc
    obtain ⟨hfloor, hceiling⟩ := h.central c hc
    refine ⟨hfloor, hceiling, ?_⟩
    change c - q.descriptor.step ≤ c
    have hstep := hd.step_pos
    rw [Timestamp.le_iff, Timestamp.nanos_sub (h.points.floors c hc)]
    omega

/-- A run that is asked until its walks are at their end returns what the query returns. -/
theorem run_eq (h : q.HasRoom samples) (hd : q.descriptor.WellFormed)
    (hres : 0 < q.resolution.nanos) (hends : q.EndsWithin n) :
    q.run n (.ofRows samples) = q.process (.ofRows samples) := by
  have hbuckets : q.checkedBuckets n (.ofRows samples) = q.exactBuckets n (.ofRows samples) := by
    rw [checkedBuckets, h.not_boundsOverflow hd hres, h.checkedPoints_eq hd hends]
    rfl
  have hrows : q.checkedRows n (.ofRows samples) = q.rows (.ofRows samples) := by
    rw [checkedRows, hbuckets]
    exact exactRows_eq_rows hd.step_pos hres h.points.toRangeFits h.buckets hends samples
  rw [run, process, hrows]

end HasRoom

variable {resource : String} {start finish : Timestamp} {resolution : Duration} {d : Descriptor}
  {policy : CounterWrap}

/-- Asked often enough, a run finishes with the rows of the query. -/
theorem run_finishes {draft : Draft} (hd : draft.build = .ok d)
    (hq : check resource start finish resolution d policy = .ok q) (h : q.HasRoom samples) :
    ∃ out n, q.process (.ofRows samples) = .ok out ∧
      ∀ m ≥ n, q.run m (.ofRows samples) = .ok out := by
  obtain ⟨-, hmultiple, rfl⟩ := check_ok hq
  have hwf := Draft.wellFormed_of_build hd
  have hres := Duration.pos_of_isMultipleOf hmultiple
  obtain ⟨upstream, -, -, hprocess⟩ := process_ofRows
    (q := ⟨resource, start, finish, resolution, d, policy⟩) hwf samples
  obtain ⟨n, hn⟩ := exists_endsWithin
    (q := ⟨resource, start, finish, resolution, d, policy⟩) hwf.step_pos hres
    h.points.toRangeFits h.buckets
  exact ⟨_, n, hprocess, fun m hm => (h.run_eq hwf hres (hn m hm)).trans hprocess⟩

example : (load 6 8).HasRoom loadRows :=
  ⟨by decide, by decide, ⟨by decide, by decide, by decide⟩, by decide, by decide⟩

end Query

end Telemetry
