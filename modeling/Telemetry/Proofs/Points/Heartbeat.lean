import Telemetry.Proofs.Points.Refinement

/-!
# Longer heartbeats

With a longer heartbeat, what was known stays known. A gap that was shorter than the heartbeat still
is. A sample that was found behind the bucket is found again, since no row before it can be nearer
to the end of the longer heartbeat; only where a row told that the last sample is stale, the search
may go on, to a sample or to the end of the rows. Other datasources notice nothing of it.
-/

namespace Telemetry

/-! ## Stretches -/

/-- At least as much is known of the second timeline as of the first, and no more is unknown. -/
structure Timeline.Firmer (l l' : List Stretch) : Prop where
  known : knownMillis l ≤ knownMillis l'
  unknown : unknownMillis l' ≤ unknownMillis l

namespace Timeline.Firmer

variable {l l' m m' : List Stretch} {millis : Int} {known known' : Bool} {x x' : Float}

theorem refl (l : List Stretch) : Firmer l l :=
  ⟨le_refl _, le_refl _⟩

theorem append (h : Firmer l l') (h' : Firmer m m') : Firmer (l ++ m) (l' ++ m') := by
  obtain ⟨hk, hu⟩ := h
  obtain ⟨hk', hu'⟩ := h'
  constructor
  · rw [knownMillis_append, knownMillis_append]
    omega
  · rw [unknownMillis_append, unknownMillis_append]
    omega

theorem singleton (hmillis : 0 ≤ millis) (hknown : known = true → known' = true) :
    Firmer [⟨millis, known, x⟩] [⟨millis, known', x'⟩] := by
  cases known with
  | true =>
    rw [hknown rfl]
    exact ⟨le_refl _, le_refl _⟩
  | false =>
    cases known' with
    | true => exact ⟨by simpa [knownMillis] using hmillis, by simpa [unknownMillis] using hmillis⟩
    | false => exact ⟨le_refl _, le_refl _⟩

/-- What was unknown may be left out. -/
theorem nil (hmillis : 0 ≤ millis) : Firmer [⟨millis, false, x⟩] [] :=
  ⟨le_refl _, by simpa [unknownMillis] using hmillis⟩

end Timeline.Firmer

section

variable {floor ceiling last horizon later : Timestamp} {heartbeat longer : Duration}
  {rows : List (Row Value)}

theorem Coverage.isKnown_of_le {t p : Timestamp} (hle : heartbeat.millis ≤ longer.millis)
    (h : isKnown t p heartbeat = true) : isKnown t p longer = true := by
  have hlt := of_decide_eq_true h
  exact decide_eq_true (by omega)

/-- Each sample ends the same stretch, and one that was known stays so. -/
theorem Coverage.firmer_stretches (hle : heartbeat.millis ≤ longer.millis) (samples : List Sample)
    (hnonneg : ∀ x ∈ stretches floor heartbeat samples, 0 ≤ x.millis) :
    Timeline.Firmer (stretches floor heartbeat samples) (stretches floor longer samples) := by
  unfold stretches at hnonneg ⊢
  generalize neighbours samples = gaps at hnonneg ⊢
  induction gaps with
  | nil => exact .refl []
  | cons q rest ih =>
    by_cases hq : q.1.timestamp.later floor < q.2.timestamp
    · rw [List.filterMap_cons_some (stretch?_of_lt hq heartbeat)] at hnonneg ⊢
      rw [List.filterMap_cons_some (stretch?_of_lt hq longer)]
      obtain ⟨hfirst, hrest⟩ := List.forall_mem_cons.1 hnonneg
      exact (Timeline.Firmer.singleton hfirst (isKnown_of_le hle)).append (ih hrest)
    · rw [List.filterMap_cons_none (stretch?_of_not_lt hq heartbeat)] at hnonneg ⊢
      rw [List.filterMap_cons_none (stretch?_of_not_lt hq longer)]
      exact ih hnonneg

theorem Coverage.Tells.mono {c c' : Coverage} {l l' : List Stretch} (h : c.Tells l)
    (h' : c'.Tells l') (hfirmer : Timeline.Firmer l l') (hnonneg : ∀ x ∈ l', 0 ≤ x.millis) :
    c.knownMillis ≤ c'.knownMillis ∧ c'.unknownMillis ≤ c.unknownMillis ∧
      (c.MostlyKnown → c'.MostlyKnown) := by
  obtain ⟨hknown, hunknown⟩ := hfirmer
  have hpos := Timeline.unknownMillis_nonneg hnonneg
  rw [← h.known, ← h'.known] at hknown
  rw [← h.unknown, ← h'.unknown] at hunknown
  rw [← h'.unknown] at hpos
  refine ⟨hknown, hunknown, ?_⟩
  rintro ⟨-, hmost⟩
  exact ⟨by omega, by omega⟩

/-! ## Behind the end of the bucket -/

namespace CarryOver

/-- A search that may go further finds what was found before, and nothing where the rows have come
to their end. -/
theorem among_of_le (metric : String) (hle : horizon ≤ later) (rows : List (Row Value)) :
    (∀ s, among metric horizon rows = .found s → among metric later rows = .found s) ∧
      (among metric horizon rows = .ended → among metric later rows = .ended) := by
  induction rows with
  | nil => exact ⟨fun s hs => hs, fun hended => hended⟩
  | cons row rest ih =>
    rw [among_cons, among_cons]
    cases row.get? metric with
    | some next => exact ⟨fun s hs => hs, fun hended => hended⟩
    | none =>
      by_cases hrow : horizon ≤ row.timestamp
      · simp [hrow]
      · have hlater : ¬ later ≤ row.timestamp := fun h => hrow (Int.le_trans hle h)
        simpa only [if_neg hrow, if_neg hlater] using ih

theorem firmer_stretches {c c' : CarryOver} (hle : heartbeat.millis ≤ longer.millis)
    (hfound : ∀ s, c = .found s → c' = .found s) (hended : c = .ended → c' = .ended)
    (hnonneg : ∀ x ∈ c.stretches floor ceiling last heartbeat, 0 ≤ x.millis) :
    Timeline.Firmer (c.stretches floor ceiling last heartbeat)
      (c'.stretches floor ceiling last longer) := by
  cases c with
  | found s =>
    rw [hfound s rfl]
    exact .singleton (hnonneg _ List.mem_cons_self) (Coverage.isKnown_of_le hle)
  | ended =>
    rw [hended rfl]
    exact .refl []
  | stale =>
    have hmillis := hnonneg _ List.mem_cons_self
    cases c' with
    | found s => exact .singleton hmillis nofun
    | stale => exact .refl _
    | ended => exact .nil hmillis

end CarryOver

end

/-! ## Datasources -/

/-- The datasource with another heartbeat. -/
def Datasource.beating (ds : Datasource) (heartbeat : Duration) : Datasource :=
  { ds with heartbeat }

theorem Datasource.BucketFits.firmer_stretches {ds : Datasource} {longer : Duration}
    {floor ceiling : Timestamp} {rows : List (Row Value)} (h : ds.BucketFits floor ceiling rows)
    (h' : (ds.beating longer).BucketFits floor ceiling rows) (hle : ds.heartbeat ≤ longer)
    (hmillis : ds.heartbeat.millis ≤ longer.millis) :
    Timeline.Firmer (ds.stretches floor ceiling rows)
      ((ds.beating longer).stretches floor ceiling rows) := by
  have hnonneg := h.millis_nonneg
  unfold Datasource.stretches at hnonneg ⊢
  obtain ⟨hclosed, hrest⟩ := List.forall_mem_append.1 hnonneg
  refine (Coverage.firmer_stretches hmillis _ hclosed).append ?_
  dsimp only [Datasource.beating] at hrest ⊢
  cases hlast : (samplesOf ds.source (Row.upTo ceiling rows)).getLast? with
  | none => exact .refl []
  | some last =>
    rw [hlast] at hrest
    dsimp only at hrest ⊢
    by_cases hc : ceiling ≤ last.timestamp
    · rw [if_pos hc, if_pos hc]
      exact .refl []
    · rw [if_neg hc] at hrest
      rw [if_neg hc, if_neg hc]
      have hmem : last ∈ samplesOf ds.source rows :=
        samplesOf_upTo_subset ds.source ceiling rows (List.mem_of_getLast? hlast)
      have hhorizon : last.timestamp + ds.heartbeat ≤ last.timestamp + longer := by
        have hadd := Timestamp.nanos_add (h.horizons last hmem)
        have hadd' := Timestamp.nanos_add (h'.horizons last hmem)
        exact Timestamp.le_iff.2 (hadd ▸ hadd' ▸ Int.add_le_add_left hle _)
      obtain ⟨hfound, hended⟩ := CarryOver.among_of_le ds.source hhorizon (Row.after ceiling rows)
      exact CarryOver.firmer_stretches hmillis hfound hended hrest

/-- A point shows nothing of a datasource under another label. -/
theorem Descriptor.get?_closingAt_of_ne {d d' : Descriptor} {before behind : List Datasource}
    {ds ds' : Datasource} {label : String} (hds : d.datasources = before ++ ds :: behind)
    (hds' : d'.datasources = before ++ ds' :: behind) (hstep : d'.step = d.step)
    (hne : ds.label ≠ label) (hne' : ds'.label ≠ label) (resource : String)
    (rows : List (Row Value)) (c : Timestamp) :
    ((d'.closingAt rows c).point resource).get? label =
      ((d.closingAt rows c).point resource).get? label := by
  rw [Closing.point, Closing.point, pointOf, pointOf, Row.get?_insertAll_empty,
    Row.get?_insertAll_empty]
  simp [closingAt, tracks, hds, hds', hstep, hne, hne', Track.measurement]

/-! ## Buckets -/

/-- With a longer heartbeat of one datasource, each bucket knows at least as much of it, and shows
the same of every other one. -/
theorem Feed.closings_beating {draft draft' : Draft} {d d' : Descriptor}
    {before behind : List Datasource} {ds : Datasource} {longer : Duration}
    (hd : draft.build = .ok d) (hd' : draft'.build = .ok d')
    (hds : d.datasources = before ++ ds :: behind)
    (heq : d' = { d with datasources := before ++ ds.beating longer :: behind })
    (hle : ds.heartbeat ≤ longer) {start finish : Timestamp} {rows : List (Row Value)}
    (resource : String) (hrows : ∀ row ∈ rows, row.Stamped)
    (hfits : PointsFit d start finish rows) (hfits' : PointsFit d' start finish rows) :
    Feed.points d resource start finish (.ofRows rows) =
      .ofRows ((Feed.closings d resource start finish (.ofRows rows)).map (·.point resource)) ∧
    Feed.points d' resource start finish (.ofRows rows) =
      .ofRows ((Feed.closings d' resource start finish (.ofRows rows)).map (·.point resource)) ∧
    List.Forall₂ (fun cl cl' => cl.ceiling = cl'.ceiling ∧
        (∃ c c', cl.coverage? ds.label = some c ∧ cl'.coverage? ds.label = some c' ∧
          c.knownMillis ≤ c'.knownMillis ∧ c'.unknownMillis ≤ c.unknownMillis ∧
          (c.MostlyKnown → c'.MostlyKnown)) ∧
        ∀ label ≠ ds.label, (cl'.point resource).get? label = (cl.point resource).get? label)
      (Feed.closings d resource start finish (.ofRows rows))
      (Feed.closings d' resource start finish (.ofRows rows)) := by
  refine ⟨Feed.points_eq_closings .., Feed.points_eq_closings .., ?_⟩
  have hwf := Draft.wellFormed_of_build hd
  have hwf' := Draft.wellFormed_of_build hd'
  have hstep : d'.step = d.step := by rw [heq]
  have hds' : d'.datasources = before ++ ds.beating longer :: behind := by rw [heq]
  have hmem : ds ∈ d.datasources := by simp [hds]
  have hmem' : ds.beating longer ∈ d'.datasources := by simp [hds']
  rw [Feed.closings_eq_map resource hrows (hfits.walk.follows hwf.step_pos),
    Feed.closings_eq_map resource hrows (hfits'.walk.follows hwf'.step_pos), hstep,
    List.forall₂_map_left_iff, List.forall₂_map_right_iff, List.forall₂_same]
  intro c hc
  have hbucket := hfits.bucketFits hwf.step_pos hmem hc
  have hbucket' := hfits'.bucketFits hwf'.step_pos hmem' (hstep ▸ hc)
  rw [hstep] at hbucket'
  have hmillis : ds.heartbeat.millis ≤ longer.millis :=
    Duration.millis_le_millis hle (hfits.heartbeats ds hmem) (hfits'.heartbeats _ hmem')
  have hfirmer := hbucket.firmer_stretches hbucket' hle hmillis
  have htells := Track.tells_stretches ds (c - d.step) c rows
  have htells' := Track.tells_stretches (ds.beating longer) (c - d.step) c rows
  refine ⟨rfl, ⟨_, _, d.coverage?_closingAt hwf.datasources_nodup hmem rows c,
    hstep ▸ d'.coverage?_closingAt hwf'.datasources_nodup hmem' rows c,
    htells.mono htells' hfirmer hbucket'.millis_nonneg⟩, ?_⟩
  intro label hne
  exact Descriptor.get?_closingAt_of_ne hds hds' hstep hne.symm hne.symm resource rows c

/-- A gauge that is sampled every second, with a heartbeat of one second and one of two. -/
theorem Feed.closings_beating_punctual :
    List.Forall₂ (fun cl cl' => ∃ c c', cl.coverage? "load" = some c ∧
        cl'.coverage? "load" = some c' ∧ c.knownMillis ≤ c'.knownMillis)
      (Feed.closings .punctual "host" (.ofTicks 1500 .milliseconds) (.ofTicks 3 .seconds)
        (.ofRows loadRows))
      (Feed.closings .load "host" (.ofTicks 1500 .milliseconds) (.ofTicks 3 .seconds)
        (.ofRows loadRows)) := by
  have hfits : PointsFit .punctual (.ofTicks 1500 .milliseconds) (.ofTicks 3 .seconds) loadRows :=
    ⟨by decide, by decide, by decide⟩
  have hfits' : PointsFit .load (.ofTicks 1500 .milliseconds) (.ofTicks 3 .seconds) loadRows :=
    ⟨by decide, by decide, by decide⟩
  have hds : Descriptor.punctual.datasources = [] ++ .punctual :: [] := rfl
  have heq : Descriptor.load = { Descriptor.punctual with
      datasources := [] ++ Datasource.punctual.beating (.ofTicks 2 .seconds) :: [] } := rfl
  obtain ⟨-, -, hforall⟩ := Feed.closings_beating Draft.build_punctual Draft.build_load hds heq
    (by decide) "host" (by decide) hfits hfits'
  refine hforall.imp fun cl cl' h => ?_
  obtain ⟨-, ⟨c, c', hc, hc', hknown, -⟩, -⟩ := h
  exact ⟨c, c', hc, hc', hknown⟩

end Telemetry
