import Telemetry.Proofs.Points.Notes
import Telemetry.Proofs.Points.Refinement

/-!
# The time that a bucket is credited with

The stretches of a bucket follow each other without a gap and without an overlap. So together they
take as long as it is from the first sample of the datasource, or from the beginning of the bucket,
to where the bucket is accounted for: to its end, if something behind it tells about the rest, and
else to the last sample. Each stretch drops the fractions of a millisecond of its two instants. What
is dropped at the end of one is dropped again at the beginning of the next, so that the sum is exact
in every unit.
-/

namespace Telemetry

/-- The instant up to which a bucket is accounted for. -/
def CarryOver.reach (ceiling last : Timestamp) : CarryOver → Timestamp
  | found _ | stale => ceiling
  | ended => last

/-- What a bucket is credited with is its part of the time since the first sample, counted once. -/
structure Datasource.Tiled (ds : Datasource) (floor ceiling : Timestamp) (rows : List (Row Value))
    (c : Coverage) : Prop where
  known_nonneg : 0 ≤ c.knownMillis
  unknown_nonneg : 0 ≤ c.unknownMillis
  sum_of_nil : samplesOf ds.source (Row.upTo ceiling rows) = [] →
    c.knownMillis + c.unknownMillis = 0
  /-- The search behind the last sample ends with one answer, however many of the rows behind the
  bucket were read ahead before it began. -/
  sum_eq : ∀ first ∈ (samplesOf ds.source rows).head?,
    ∀ last ∈ (samplesOf ds.source (Row.upTo ceiling rows)).getLast?, ∃ answer,
      (∀ ahead unread, ahead ++ unread = Row.after ceiling rows →
        (Resampling.seek ds.source (last.timestamp + ds.heartbeat) ahead (.ofRows unread)).1 =
          .ok answer) ∧
      c.knownMillis + c.unknownMillis =
        max 0 ((answer.reach ceiling last.timestamp).millis -
          (first.timestamp.later floor).millis)
  sum_le : c.knownMillis + c.unknownMillis ≤ ceiling.millis - floor.millis

section

variable {ds : Datasource} {floor ceiling : Timestamp} {rows : List (Row Value)}

namespace CarryOver

variable {last : Timestamp} {heartbeat : Duration}

theorem millis_reach_mem (answer : CarryOver) (h : last.millis ≤ ceiling.millis) :
    last.millis ≤ (answer.reach ceiling last).millis ∧
      (answer.reach ceiling last).millis ≤ ceiling.millis := by
  cases answer with
  | found s => exact ⟨h, le_rfl⟩
  | stale => exact ⟨h, le_rfl⟩
  | ended => exact ⟨le_rfl, h⟩

/-- Behind the last sample, a bucket is credited with the time up to where it is accounted for. -/
theorem sum_stretches (answer : CarryOver) (hfc : floor.millis ≤ ceiling.millis) :
    ((answer.stretches floor ceiling last heartbeat).map (·.millis)).sum =
      max (answer.reach ceiling last).millis floor.millis - max last.millis floor.millis := by
  have hrest : ceiling.millisSince (last.later floor) =
      max ceiling.millis floor.millis - max last.millis floor.millis := by
    rw [Timestamp.millisSince, Timestamp.millis_later, max_eq_left hfc]
  cases answer with
  | found s => simpa [stretches, reach] using hrest
  | stale => simpa [stretches, reach] using hrest
  | ended => simp [stretches, reach]

end CarryOver

/-- If the bucket has a last sample so far, there is a first one. -/
theorem exists_head?_samplesOf {metric : String} {last : Sample}
    (hlast : (samplesOf metric (Row.upTo ceiling rows)).getLast? = some last) :
    ∃ first rest, samplesOf metric (Row.upTo ceiling rows) = first :: rest ∧
      (samplesOf metric rows).head? = some first := by
  obtain ⟨first, rest, hsamples⟩ := List.exists_cons_of_ne_nil
    (List.ne_nil_of_mem (List.mem_of_getLast? hlast))
  exact ⟨first, rest, hsamples, by rw [samplesOf_split metric ceiling, hsamples]; rfl⟩

namespace Datasource.BucketFits

variable {first last : Sample}

/-- The stretches up to the last sample and the one behind it make up one span. -/
theorem sum_stretches (h : ds.BucketFits floor ceiling rows) (hrows : ∀ row ∈ rows, row.Stamped)
    (hasc : Row.Ascending rows) (hfirst : (samplesOf ds.source rows).head? = some first)
    (hlast : (samplesOf ds.source (Row.upTo ceiling rows)).getLast? = some last) :
    ((ds.stretches floor ceiling rows).map (·.millis)).sum =
      max 0 (((CarryOver.among ds.source (last.timestamp + ds.heartbeat)
        (Row.after ceiling rows)).reach ceiling last.timestamp).millis -
          (first.timestamp.later floor).millis) := by
  generalize hanswer : CarryOver.among ds.source (last.timestamp + ds.heartbeat)
    (Row.after ceiling rows) = answer
  obtain ⟨first', rest, hsamples, hfirst'⟩ := exists_head?_samplesOf hlast
  obtain rfl : first' = first := Option.some.inj (hfirst'.symm.trans hfirst)
  have hsorted := pairwise_samplesOf_upTo ds.source ceiling hrows hasc
  obtain ⟨-, hle⟩ := (mem_samplesOf_upTo_iff hrows hasc).1 (List.mem_of_getLast? hlast)
  rw [hsamples] at hsorted hlast
  have hclosed := Coverage.sum_stretches floor ds.heartbeat hsorted hlast
  have horder : first'.timestamp.millis ≤ last.timestamp.millis := by
    rcases eq_or_rel_of_getLast? hsorted hlast List.mem_cons_self with rfl | hlt
    · exact le_rfl
    · exact Timestamp.millis_le_millis (Int.le_of_lt hlt)
  have hmillis := Timestamp.millis_le_millis hle
  have hreach := answer.millis_reach_mem hmillis
  -- Between the two ends, each stretch begins where the one before it ends.
  have hspan : ((ds.stretches floor ceiling rows).map (·.millis)).sum =
      max (answer.reach ceiling last.timestamp).millis floor.millis -
        max first'.timestamp.millis floor.millis := by
    rw [Datasource.stretches]
    simp only [hsamples, hlast, List.map_append, List.sum_append, hclosed, hanswer]
    by_cases hfull : ceiling ≤ last.timestamp
    · have hsame := Timestamp.millis_le_millis hfull
      rw [if_pos hfull, List.map_nil, List.sum_nil]
      omega
    · have hfc := Timestamp.millis_le_millis (Int.le_of_lt h.lt)
      rw [if_neg hfull, answer.sum_stretches hfc]
      omega
  rw [hspan, Timestamp.millis_later]
  omega

/-- A bucket that is closed is tiled by what it is credited with. -/
theorem tiled (h : ds.BucketFits floor ceiling rows) (hrows : ∀ row ∈ rows, row.Stamped)
    (hasc : Row.Ascending rows) :
    ds.Tiled floor ceiling rows ((⟨ds, {}⟩ : Track).close floor ceiling rows).coverage := by
  obtain ⟨hknown, hunknown, -⟩ := Track.tells_stretches ds floor ceiling rows
  have hsum := Timeline.knownMillis_add_unknownMillis (ds.stretches floor ceiling rows)
  rw [← hknown, ← hunknown] at hsum
  have hnone : samplesOf ds.source (Row.upTo ceiling rows) = [] →
      ((ds.stretches floor ceiling rows).map (·.millis)).sum = 0 := by
    intro hnil
    rw [stretches, hnil]
    rfl
  have hfc := Timestamp.millis_le_millis (Int.le_of_lt h.lt)
  refine ⟨?_, ?_, fun hnil => hsum.trans (hnone hnil), ?_, ?_⟩
  · rw [hknown]
    exact Timeline.knownMillis_nonneg h.millis_nonneg
  · rw [hunknown]
    exact Timeline.unknownMillis_nonneg h.millis_nonneg
  · intro first hfirst last hlast
    refine ⟨.among ds.source (last.timestamp + ds.heartbeat) (Row.after ceiling rows), ?_,
      hsum.trans (h.sum_stretches hrows hasc hfirst hlast)⟩
    intro ahead unread hbehind
    obtain ⟨_, _, hseek, -⟩ := Resampling.seek_eq ds.source (last.timestamp + ds.heartbeat) ahead
      unread
    rw [hseek, hbehind]
  · rw [hsum]
    cases hlast : (samplesOf ds.source (Row.upTo ceiling rows)).getLast? with
    | none =>
      rw [hnone (List.getLast?_eq_none_iff.1 hlast)]
      omega
    | some last =>
      obtain ⟨first, rest, hsamples, hfirst⟩ := exists_head?_samplesOf hlast
      have hmem := (mem_samplesOf_upTo_iff hrows hasc).1 (List.mem_of_getLast? hlast)
      have hreach := CarryOver.millis_reach_mem (.among ds.source (last.timestamp + ds.heartbeat)
        (Row.after ceiling rows)) (Timestamp.millis_le_millis hmem.2)
      rw [h.sum_stretches hrows hasc hfirst hlast, Timestamp.millis_later]
      omega

end Datasource.BucketFits

end

/-- In any units, each bucket over a range is credited with the time since the first sample that
lies in it, to the millisecond, and with none of it twice. -/
theorem Feed.closings_tiled {draft : Draft} {d : Descriptor} {start finish : Timestamp}
    {rows : List (Row Value)} (hd : draft.build = .ok d) (resource : String)
    (hrows : ∀ row ∈ rows, row.Stamped) (hasc : Row.Ascending rows)
    (hfits : PointsFit d start finish rows) :
    ∀ cl ∈ Feed.closings d resource start finish (.ofRows rows), ∀ ds ∈ d.datasources,
      ∃ c, cl.coverage? ds.label = some c ∧ ds.Tiled (cl.ceiling - d.step) cl.ceiling rows c := by
  intro cl hcl ds hds
  have hwf := Draft.wellFormed_of_build hd
  rw [Feed.closings_eq_map resource hrows (hfits.walk.follows hwf.step_pos)] at hcl
  obtain ⟨ceiling, hc, rfl⟩ := List.mem_map.1 hcl
  exact ⟨_, d.coverage?_closingAt hwf.datasources_nodup hds rows ceiling,
    (hfits.bucketFits hwf.step_pos hds hc).tiled hrows hasc⟩

/-- Samples before and after the epoch, each of them between two ticks of a millisecond. -/
def earlyRows : List (Row Value) :=
  [-2500900, -1500400, 600700].map fun n : Int =>
    .gauge (.ofTicks n .microseconds) "host" "cpu" 5

/-- A bucket between two samples, of which the second one tells about its last half second. -/
theorem Feed.closings_tiled_beforeEpoch : ∃ cl ∈ Feed.closings .load "host"
      (.ofTicks (-1) .seconds) (.ofTicks (-1) .seconds) (.ofRows earlyRows),
    ∃ c, cl.coverage? "load" = some c ∧ c.knownMillis + c.unknownMillis = 1000 := by
  have hrows : ∀ row ∈ earlyRows, row.Stamped := by decide
  have hfits : PointsFit .load (.ofTicks (-1) .seconds) (.ofTicks (-1) .seconds) earlyRows :=
    ⟨by decide, by decide, by decide⟩
  have hcl : Descriptor.load.closingAt earlyRows (.ofTicks (-1) .seconds) ∈
      Feed.closings .load "host" (.ofTicks (-1) .seconds) (.ofTicks (-1) .seconds)
        (.ofRows earlyRows) := by
    rw [Feed.closings_eq_map "host" hrows (hfits.walk.follows (by decide))]
    exact List.mem_map_of_mem (by decide)
  obtain ⟨c, hc, htiled⟩ := Feed.closings_tiled Draft.build_load "host" hrows (by decide) hfits
    _ hcl _ List.mem_cons_self
  refine ⟨_, hcl, c, hc, ?_⟩
  obtain ⟨answer, hseek, hsum⟩ := htiled.sum_eq _ rfl _ rfl
  have hfound := hseek [.gauge (.ofTicks 600700 .microseconds) "host" "cpu" 5] [] rfl
  rw [show answer = .found _ from Except.ok.inj (hfound.symm.trans rfl)] at hsum
  exact hsum.trans (by decide)

end Telemetry
