import Telemetry.Proofs.Points.Notes
import Telemetry.Proofs.Points.Refinement

/-!
# Buckets in the midst of dense samples

Where samples lie at both ends of a bucket or beyond, and each of them comes less than a heartbeat
after the one before, the stretches of the bucket are the gaps between samples, cut at its ends: the
sample that follows the last one is always found, so that nothing is left out.

Gaps and heartbeats are compared in whole milliseconds, though, and so are the cut gaps measured. In
units that are finer, a gap that is shorter than the heartbeat may count as unknown, and a gap that
lies between two ticks of a millisecond counts nothing.
-/

namespace Telemetry

/-- A sample is at the beginning of the bucket or before, one is at its end or behind, and between
them each sample comes less than a heartbeat after the one before. -/
structure Datasource.Dense (ds : Datasource) (floor ceiling : Timestamp)
    (rows : List (Row Value)) : Prop where
  early : ∃ s ∈ samplesOf ds.source rows, s.timestamp ≤ floor
  late : ∃ s ∈ samplesOf ds.source rows, ceiling ≤ s.timestamp
  gaps : ∀ q ∈ neighbours (samplesOf ds.source rows),
    q.1.timestamp < ceiling → floor < q.2.timestamp →
      q.2.timestamp.nanos - q.1.timestamp.nanos < ds.heartbeat.nanos

namespace Coverage

variable {floor ceiling : Timestamp} {heartbeat : Duration} {q : Sample × Sample}

/-- The part of a gap between two samples that lies within the bucket. The later sample speaks for
it. -/
def cut (floor ceiling : Timestamp) (heartbeat : Duration) (q : Sample × Sample) : Stretch :=
  ⟨min q.2.timestamp.millis ceiling.millis - max q.1.timestamp.millis floor.millis,
    isKnown q.2.timestamp q.1.timestamp heartbeat, q.2.value.number⟩

theorem cut_of_le (floor : Timestamp) (heartbeat : Duration) (hle : q.2.timestamp ≤ ceiling) :
    cut floor ceiling heartbeat q =
      ⟨q.2.timestamp.millisSince (q.1.timestamp.later floor),
        isKnown q.2.timestamp q.1.timestamp heartbeat, q.2.value.number⟩ := by
  rw [cut, min_eq_left (Timestamp.millis_le_millis hle), Timestamp.millisSince,
    Timestamp.millis_later]

theorem cut_of_ge (floor : Timestamp) (heartbeat : Duration) (hle : ceiling ≤ q.2.timestamp) :
    cut floor ceiling heartbeat q =
      ⟨ceiling.millisSince (q.1.timestamp.later floor),
        isKnown q.2.timestamp q.1.timestamp heartbeat, q.2.value.number⟩ := by
  rw [cut, min_eq_right (Timestamp.millis_le_millis hle), Timestamp.millisSince,
    Timestamp.millis_later]

end Coverage

section

variable {ds : Datasource} {floor ceiling : Timestamp} {rows : List (Row Value)}
  {last : Sample} {x : Stretch}

/-- The stretches that samples of the bucket end are gaps that are cut at its beginning alone. -/
theorem Datasource.mem_stretches_upTo_iff (ds : Datasource) (floor ceiling : Timestamp)
    (x : Stretch) (hrows : ∀ row ∈ rows, row.Stamped) (hasc : Row.Ascending rows) :
    x ∈ Coverage.stretches floor ds.heartbeat (samplesOf ds.source (Row.upTo ceiling rows)) ↔
      ∃ q ∈ neighbours (samplesOf ds.source (Row.upTo ceiling rows)),
        q.1.timestamp < ceiling ∧ floor < q.2.timestamp ∧
          Coverage.cut floor ceiling ds.heartbeat q = x := by
  have hsorted := pairwise_samplesOf_upTo ds.source ceiling hrows hasc
  rw [Coverage.mem_stretches_iff]
  refine exists_congr fun q => and_congr_right fun hq => ?_
  obtain ⟨hp, hs⟩ := mem_of_mem_neighbours hq
  rw [mem_samplesOf_upTo_iff hrows hasc] at hp hs
  have hlt := rel_of_mem_neighbours hsorted hq
  rw [Coverage.cut_of_le floor ds.heartbeat hs.2, ← and_assoc]
  refine and_congr_left fun _ => ?_
  rw [Timestamp.lt_iff] at hlt
  rw [Timestamp.le_iff] at hs
  rw [Timestamp.lt_iff, Timestamp.nanos_later, Timestamp.lt_iff, Timestamp.lt_iff]
  omega

namespace Datasource.Dense

/-- Of the samples of the bucket, the first is not later than its beginning. -/
theorem exists_first (h : ds.Dense floor ceiling rows) (hrows : ∀ row ∈ rows, row.Stamped)
    (hasc : Row.Ascending rows) (hfc : floor < ceiling) : ∃ first rest,
    samplesOf ds.source (Row.upTo ceiling rows) = first :: rest ∧ first.timestamp ≤ floor := by
  obtain ⟨s, hs, hle⟩ := h.early
  have hmem : s ∈ samplesOf ds.source (Row.upTo ceiling rows) :=
    (mem_samplesOf_upTo_iff hrows hasc).2 ⟨hs, Int.le_trans hle (Int.le_of_lt hfc)⟩
  have hsorted := pairwise_samplesOf_upTo ds.source ceiling hrows hasc
  cases hsamples : samplesOf ds.source (Row.upTo ceiling rows) with
  | nil => exact absurd hmem (hsamples ▸ List.not_mem_nil)
  | cons first rest =>
    refine ⟨first, rest, rfl, ?_⟩
    rw [hsamples] at hmem hsorted
    rcases List.mem_cons.1 hmem with rfl | hrest
    · exact hle
    · exact Int.le_trans (Int.le_of_lt ((List.pairwise_cons.1 hsorted).1 s hrest)) hle

/-- Where the last sample of the bucket falls short of its end, the next one is found. -/
theorem among_eq_found (h : ds.Dense floor ceiling rows) (hrows : ∀ row ∈ rows, row.Stamped)
    (hasc : Row.Ascending rows) (hfc : floor < ceiling)
    (hlast : (samplesOf ds.source (Row.upTo ceiling rows)).getLast? = some last)
    (hlt : last.timestamp < ceiling) (hfits : last.timestamp.AddFits ds.heartbeat) : ∃ next,
    (samplesOf ds.source (Row.after ceiling rows)).head? = some next ∧
      .among ds.source (last.timestamp + ds.heartbeat) (Row.after ceiling rows) =
        CarryOver.found next := by
  obtain ⟨s, hs, hle⟩ := h.late
  have hsorted := pairwise_samplesOf_upTo ds.source ceiling hrows hasc
  have hbehind : s ∈ samplesOf ds.source (Row.after ceiling rows) := by
    rw [mem_samplesOf_after_iff hrows hasc]
    refine ⟨hs, Int.not_le.1 fun hupTo => ?_⟩
    have hmem := (mem_samplesOf_upTo_iff hrows hasc).2 ⟨hs, hupTo⟩
    rcases eq_or_rel_of_getLast? hsorted hlast hmem with rfl | hrel
    · exact Int.not_le.2 hlt hle
    · exact Int.not_le.2 (Int.lt_trans hrel hlt) hle
  obtain ⟨next, later, hnext⟩ := List.exists_cons_of_ne_nil (List.ne_nil_of_mem hbehind)
  have hhead : (samplesOf ds.source (Row.after ceiling rows)).head? = some next := by
    rw [hnext, List.head?_cons]
  refine ⟨next, hhead, ?_⟩
  rw [CarryOver.among_after_eq_found_iff hrows hasc]
  refine ⟨hhead, fun row _ _ hrow hlapsed => ?_⟩
  have hpair : (last, next) ∈ neighbours (samplesOf ds.source rows) := by
    rw [samplesOf_split ds.source ceiling, mem_neighbours_append]
    exact .inr (.inl ⟨hlast, hhead⟩)
  have hlater := lt_of_mem_samplesOf_after hrows hasc next (List.mem_of_mem_head? hhead)
  have hgap := h.gaps (last, next) hpair hlt (Int.lt_trans hfc hlater)
  dsimp only at hgap
  rw [Timestamp.nanos_add hfits] at hlapsed
  omega

/-- The stretches of the bucket end with samples, but for the one that reaches beyond its end. -/
theorem stretches_eq (h : ds.Dense floor ceiling rows) (hrows : ∀ row ∈ rows, row.Stamped)
    (hasc : Row.Ascending rows) (hfits : ds.BucketFits floor ceiling rows)
    (hlast : (samplesOf ds.source (Row.upTo ceiling rows)).getLast? = some last) :
    ds.stretches floor ceiling rows =
      Coverage.stretches floor ds.heartbeat (samplesOf ds.source (Row.upTo ceiling rows)) ∧
        last.timestamp.nanos = ceiling.nanos ∨
    ∃ next, (samplesOf ds.source (Row.after ceiling rows)).head? = some next ∧
      last.timestamp < ceiling ∧
      ds.stretches floor ceiling rows =
        Coverage.stretches floor ds.heartbeat (samplesOf ds.source (Row.upTo ceiling rows)) ++
          [⟨ceiling.millisSince (last.timestamp.later floor),
            Coverage.isKnown next.timestamp last.timestamp ds.heartbeat, next.value.number⟩] := by
  have hmem := (mem_samplesOf_upTo_iff hrows hasc).1 (List.mem_of_getLast? hlast)
  rw [Datasource.stretches]
  simp only [hlast]
  by_cases hle : ceiling ≤ last.timestamp
  · refine .inl ⟨by rw [if_pos hle, List.append_nil], ?_⟩
    exact Int.le_antisymm hmem.2 hle
  · obtain ⟨next, hnext, hfound⟩ := h.among_eq_found hrows hasc hfits.lt hlast (Int.not_le.1 hle)
      (hfits.horizons last hmem.1)
    refine .inr ⟨next, hnext, Int.not_le.1 hle, ?_⟩
    rw [if_neg hle, hfound, CarryOver.stretches]

/-- Together, the stretches make up the bucket. -/
theorem sum_millis (h : ds.Dense floor ceiling rows) (hrows : ∀ row ∈ rows, row.Stamped)
    (hasc : Row.Ascending rows) (hfits : ds.BucketFits floor ceiling rows) :
    ((ds.stretches floor ceiling rows).map (·.millis)).sum = ceiling.millis - floor.millis := by
  obtain ⟨first, rest, hsamples, hfirst⟩ := h.exists_first hrows hasc hfits.lt
  obtain ⟨last, hlast⟩ : ∃ last, (first :: rest).getLast? = some last :=
    ⟨_, List.getLast?_cons⟩
  have hsorted := pairwise_samplesOf_upTo ds.source ceiling hrows hasc
  rw [hsamples] at hsorted
  have hsum := Coverage.sum_stretches floor ds.heartbeat hsorted hlast
  have hmono := Timestamp.millis_le_millis hfirst
  rw [max_eq_right hmono] at hsum
  have hmono' := Timestamp.millis_le_millis (Int.le_of_lt hfits.lt)
  rcases h.stretches_eq hrows hasc hfits (hsamples ▸ hlast) with
    ⟨heq, hnanos⟩ | ⟨next, -, -, heq⟩
  · have hmillis : last.timestamp.millis = ceiling.millis := by
      rw [Timestamp.millis_eq_clampTicks, hnanos, ← Timestamp.millis_eq_clampTicks]
    rw [heq, hsamples, hsum]
    omega
  · rw [heq, hsamples, List.map_append, List.sum_append, hsum, List.map_singleton,
      List.sum_singleton, Timestamp.millisSince, Timestamp.millis_later]
    dsimp only
    omega

/-- The stretches are the gaps that reach into the bucket, cut at its ends. -/
theorem mem_stretches_iff (h : ds.Dense floor ceiling rows) (hrows : ∀ row ∈ rows, row.Stamped)
    (hasc : Row.Ascending rows) (hfits : ds.BucketFits floor ceiling rows) :
    x ∈ ds.stretches floor ceiling rows ↔ ∃ q ∈ neighbours (samplesOf ds.source rows),
      q.1.timestamp < ceiling ∧ floor < q.2.timestamp ∧
        Coverage.cut floor ceiling ds.heartbeat q = x := by
  obtain ⟨first, rest, hsamples, -⟩ := h.exists_first hrows hasc hfits.lt
  obtain ⟨last, hlast⟩ : ∃ last, (samplesOf ds.source (Row.upTo ceiling rows)).getLast? =
      some last := ⟨_, hsamples ▸ List.getLast?_cons⟩
  have hwithin := ds.mem_stretches_upTo_iff floor ceiling x hrows hasc
  -- No gap behind the end of the bucket reaches into it.
  have hbehind : ∀ q ∈ neighbours (samplesOf ds.source (Row.after ceiling rows)),
      ¬ q.1.timestamp < ceiling := by
    intro q hq hlt
    have hafter := (mem_samplesOf_after_iff hrows hasc).1 (mem_of_mem_neighbours hq).1
    exact Int.lt_asymm hlt hafter.2
  rw [samplesOf_split ds.source ceiling]
  simp only [mem_neighbours_append]
  rcases h.stretches_eq hrows hasc hfits hlast with ⟨heq, hnanos⟩ | ⟨next, hnext, hlt, heq⟩
  · rw [heq, hwithin]
    refine exists_congr fun q => and_congr_left fun hq => (or_iff_left ?_).symm
    rintro (⟨hp, -⟩ | hq')
    · rw [hlast, Option.some.injEq] at hp
      have hin := hq.1
      rw [← hp, Timestamp.lt_iff] at hin
      omega
    · exact hbehind q hq' hq.1
  · have hlater := (mem_samplesOf_after_iff hrows hasc).1 (List.mem_of_mem_head? hnext)
    have hcut := Coverage.cut_of_ge (q := (last, next)) floor ds.heartbeat
      (Int.le_of_lt hlater.2)
    rw [heq, List.mem_append, List.mem_singleton, hwithin, ← hcut]
    constructor
    · rintro (⟨q, hq, hin⟩ | rfl)
      · exact ⟨q, .inl hq, hin⟩
      · exact ⟨(last, next), .inr (.inl ⟨hlast, hnext⟩), hlt, Int.lt_trans hfits.lt hlater.2, rfl⟩
    · rintro ⟨⟨p, s⟩, hq | ⟨hp, hs⟩ | hq, hin⟩
      · exact .inl ⟨(p, s), hq, hin⟩
      · obtain rfl : last = p := by simpa [hlast] using hp
        obtain rfl : next = s := by simpa [hnext] using hs
        exact .inr hin.2.2.symm
      · exact absurd hin.1 (hbehind _ hq)

/-- What is unknown of the bucket lies in gaps that take a heartbeat or more in whole
milliseconds. -/
theorem unknownMillis_eq_zero_iff (h : ds.Dense floor ceiling rows)
    (hrows : ∀ row ∈ rows, row.Stamped) (hasc : Row.Ascending rows)
    (hfits : ds.BucketFits floor ceiling rows) :
    Timeline.unknownMillis (ds.stretches floor ceiling rows) = 0 ↔
      ∀ q ∈ neighbours (samplesOf ds.source rows),
        max q.1.timestamp.millis floor.millis < min q.2.timestamp.millis ceiling.millis →
          q.2.timestamp.millisSince q.1.timestamp < ds.heartbeat.millis := by
  have hstretches := fun x => h.mem_stretches_iff (x := x) hrows hasc hfits
  rw [Timeline.unknownMillis_eq_zero_iff hfits.millis_nonneg]
  constructor
  · intro hzero q hq hcut
    by_contra hgap
    obtain ⟨hp, hs⟩ := mem_of_mem_neighbours hq
    have hfirst : q.1.timestamp < ceiling := by
      refine Int.not_le.1 fun hle => ?_
      have := Timestamp.millis_le_millis hle
      omega
    have hsecond : floor < q.2.timestamp := by
      refine Int.not_le.1 fun hle => ?_
      have := Timestamp.millis_le_millis hle
      omega
    have hmillis := hzero _ ((hstretches _).2 ⟨q, hq, hfirst, hsecond, rfl⟩)
      (decide_eq_false hgap)
    dsimp only [Coverage.cut] at hmillis
    omega
  · intro hgaps x hx hunknown
    have hnonneg := hfits.millis_nonneg x hx
    obtain ⟨q, hq, -, -, rfl⟩ := (hstretches x).1 hx
    have hcut := mt (hgaps q hq) (of_decide_eq_false hunknown)
    dsimp only [Coverage.cut] at hnonneg ⊢
    omega

/-- In exact milliseconds no gap takes a heartbeat. -/
theorem millis_lt_of_inMillis (h : ds.Dense floor ceiling rows) (hmillis : ds.InMillis rows)
    (hf : floor.Whole) (hc : ceiling.Whole) : ∀ q ∈ neighbours (samplesOf ds.source rows),
    max q.1.timestamp.millis floor.millis < min q.2.timestamp.millis ceiling.millis →
      q.2.timestamp.millisSince q.1.timestamp < ds.heartbeat.millis := by
  intro q hq hcut
  obtain ⟨hp, hs⟩ := mem_of_mem_neighbours hq
  have hfirst := hmillis.samples _ hp
  have hsecond := hmillis.samples _ hs
  have hgap := h.gaps q hq ((hfirst.lt_iff hc).2 (by omega)) ((hf.lt_iff hsecond).2 (by omega))
  rw [hfirst, hsecond, hmillis.heartbeat] at hgap
  rw [Timestamp.millisSince]
  omega

end Datasource.Dense

end

/-- In the midst of dense samples a bucket is accounted for as a whole. Nothing of it is unknown
just if no gap that has a part of it takes a heartbeat or more in whole milliseconds; then more of
it is known than not, unless the step is less than a millisecond. In milliseconds and coarser units
nothing of it is unknown. -/
theorem Feed.closings_dense {draft : Draft} {d : Descriptor} {start finish : Timestamp}
    {rows : List (Row Value)} (hd : draft.build = .ok d) (resource : String)
    (hrows : ∀ row ∈ rows, row.Stamped) (hasc : Row.Ascending rows)
    (hfits : PointsFit d start finish rows) {cl : Closing}
    (hcl : cl ∈ Feed.closings d resource start finish (.ofRows rows)) {ds : Datasource}
    (hds : ds ∈ d.datasources) (hdense : ds.Dense (cl.ceiling - d.step) cl.ceiling rows) :
    ∃ c, cl.coverage? ds.label = some c ∧
      0 ≤ c.knownMillis ∧ 0 ≤ c.unknownMillis ∧
      c.knownMillis + c.unknownMillis = cl.ceiling.millis - (cl.ceiling - d.step).millis ∧
      (c.unknownMillis = 0 ↔ ∀ q ∈ neighbours (samplesOf ds.source rows),
        max q.1.timestamp.millis (cl.ceiling - d.step).millis <
            min q.2.timestamp.millis cl.ceiling.millis →
          q.2.timestamp.millis - q.1.timestamp.millis < ds.heartbeat.millis) ∧
      (c.unknownMillis = 0 → 1000000 ≤ d.step.nanos →
        0 < c.knownMillis ∧ c.average = c.weighted / Float.ofInt c.knownMillis) ∧
      (d.Coarse rows → c.unknownMillis = 0 ∧ 1000000 ≤ d.step.nanos) := by
  have hwf := Draft.wellFormed_of_build hd
  rw [Feed.closings_eq_map resource hrows (hfits.walk.follows hwf.step_pos)] at hcl
  obtain ⟨ceiling, hc, rfl⟩ := List.mem_map.1 hcl
  dsimp only [Descriptor.closingAt] at hdense ⊢
  have hbucket := hfits.bucketFits hwf.step_pos hds hc
  obtain ⟨hknown, hunknown, -⟩ := Track.tells_stretches ds (ceiling - d.step) ceiling rows
  have hsum := Timeline.knownMillis_add_unknownMillis
    (ds.stretches (ceiling - d.step) ceiling rows)
  rw [hdense.sum_millis hrows hasc hbucket, ← hknown, ← hunknown] at hsum
  have hiff := hdense.unknownMillis_eq_zero_iff hrows hasc hbucket
  rw [← hunknown] at hiff
  refine ⟨_, d.coverage?_closingAt hwf.datasources_nodup hds rows ceiling, ?_, ?_, hsum, hiff, ?_,
    ?_⟩
  · rw [hknown]
    exact Timeline.knownMillis_nonneg hbucket.millis_nonneg
  · rw [hunknown]
    exact Timeline.unknownMillis_nonneg hbucket.millis_nonneg
  · intro hzero hstep
    have hsub := Timestamp.nanos_sub (hfits.walk.floors ceiling hc)
    obtain ⟨hceiling, hfloor⟩ := hfits.walk.millis ceiling hc
    have hlt := Timestamp.millis_lt_millis hceiling (hsub ▸ hfloor) hsub
      (hfits.walk.nanos_of_mem hwf.step_pos hc).2.2 hstep
    refine ⟨by omega, Coverage.MostlyKnown.average ⟨by omega, by omega⟩⟩
  · intro hcoarse
    obtain ⟨hwhole, hfloor, -⟩ := hfits.whole hcoarse hwf.step_pos hc
    have hmillis := hfits.inMillis hcoarse hrows hds
    refine ⟨hiff.2 (hdense.millis_lt_of_inMillis hmillis hfloor hwhole), ?_⟩
    exact Int.le_of_dvd hwf.step_pos ((TimeUnit.nanos_dvd hcoarse.step).mul_left _)

/-- The first of the two gaps takes a heartbeat in whole milliseconds. -/
theorem Feed.closings_dense_punctual : ∃ cl ∈ Feed.closings .punctual "host" (.ofTicks 2 .seconds)
      (.ofTicks 2 .seconds) (.ofRows punctualRows),
    Datasource.punctual.Dense (cl.ceiling - Descriptor.punctual.step) cl.ceiling punctualRows ∧
    ∃ c, cl.coverage? "load" = some c ∧ c.unknownMillis ≠ 0 := by
  have hrows : ∀ row ∈ punctualRows, row.Stamped := by decide
  have hfits : PointsFit .punctual (.ofTicks 2 .seconds) (.ofTicks 2 .seconds) punctualRows :=
    ⟨by decide, by decide, by decide⟩
  have hcl : Descriptor.punctual.closingAt punctualRows (.ofTicks 2 .seconds) ∈
      Feed.closings .punctual "host" (.ofTicks 2 .seconds) (.ofTicks 2 .seconds)
        (.ofRows punctualRows) := by
    rw [Feed.closings_eq_map "host" hrows (hfits.walk.follows (by decide))]
    exact List.mem_map_of_mem (by decide)
  have hdense : Datasource.punctual.Dense
      (Timestamp.ofTicks 2 .seconds - Descriptor.punctual.step) (.ofTicks 2 .seconds)
      punctualRows := ⟨by decide, by decide, by decide⟩
  obtain ⟨c, hc, -, -, -, hiff, -⟩ := Feed.closings_dense Draft.build_punctual "host" hrows
    (by decide) hfits hcl List.mem_cons_self hdense
  exact ⟨_, hcl, hdense, c, hc, mt hiff.1 (by decide)⟩

end Telemetry
