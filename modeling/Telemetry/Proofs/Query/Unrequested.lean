import Telemetry.Proofs.Points.Batch
import Telemetry.Proofs.Query.Exact
import Telemetry.Proofs.Selection

/-!
# Metrics that no datasource reads

Of a sample that no datasource reads nothing is left but its row, and an empty row still tells that
time has gone by: a metric counts as stale once a row comes a heartbeat or more behind its last
sample. So the samples may be taken out of the rows without a trace. The rows that are left empty
may be taken out where they tell nothing about any datasource that the remaining rows do not tell.
-/

namespace Telemetry

namespace Descriptor

/-- The row without the samples that no datasource reads. -/
def requested (d : Descriptor) (row : Row Value) : Row Value :=
  row.keep (· ∈ d.sources)

/-- An empty row tells nothing that the rows behind it do not tell: for each datasource that was
sampled before, it lies within a heartbeat of the last sample, or the next row has no sample of the
metric either. -/
structure Dispensable (d : Descriptor) (before : List (Row Value)) (row : Row Value)
    (behind : List (Row Value)) : Prop where
  empty : row.readings = []
  told : ∀ ds ∈ d.datasources, ∀ s, (samplesOf ds.source before).getLast? = some s →
    row.timestamp < s.timestamp + ds.heartbeat ∨
      ∃ next ∈ behind.head?, next.get? ds.source = none

/-- The second rows are the first ones without some that are dispensable, where the rows `before`
have gone ahead. -/
inductive Thinned (d : Descriptor) :
    List (Row Value) → List (Row Value) → List (Row Value) → Prop
  | nil {before : List (Row Value)} : Thinned d before [] []
  | keep {before rows rows' : List (Row Value)} {row : Row Value}
      (h : Thinned d (before ++ [row]) rows rows') : Thinned d before (row :: rows) (row :: rows')
  | drop {before rows rows' : List (Row Value)} {row : Row Value}
      (hrow : d.Dispensable before row rows') (h : Thinned d (before ++ [row]) rows rows') :
      Thinned d before (row :: rows) rows'

end Descriptor

section Rows

variable {row : Row Value} {rows : List (Row Value)} {metric : String} {c : Timestamp}

theorem Row.get?_of_empty (h : row.readings = []) (metric : String) : row.get? metric = none := by
  rw [Row.get?, h, List.find?_nil]

theorem Row.Ascending.not_le (hasc : Row.Ascending (row :: rows)) (hrow : ¬ row.timestamp ≤ c) :
    ∀ row' ∈ rows, ¬ row'.timestamp ≤ c := by
  intro row' hrow'
  have hlt := (List.pairwise_cons.1 hasc).1 row' hrow'
  simp only [Timestamp.le_iff, Timestamp.lt_iff] at hrow hlt ⊢
  omega

/-- A row without the metric tells that the last sample is stale, or nothing. -/
theorem judge?_of_none {horizon : Timestamp} (h : row.get? metric = none) :
    Resampling.judge? metric horizon row =
      if horizon ≤ row.timestamp then some .stale else none := by
  rw [Resampling.judge?, h]

end Rows

/-! ## Points -/

section Points

variable {d : Descriptor} {before rows rows' : List (Row Value)} {row : Row Value}
  {c floor : Timestamp} {t : Track} {tracks : List Track} {ds : Datasource}

namespace Descriptor.Thinned

theorem sublist (h : d.Thinned before rows rows') : rows'.Sublist rows := by
  induction h with
  | nil => exact .slnil
  | keep _ ih => exact ih.cons_cons _
  | drop _ _ ih => exact ih.cons _

/-- No row that is left comes before a row that was taken out later than `c`. -/
theorem upTo_of_not_le (h : d.Thinned before rows rows') (hasc : Row.Ascending (row :: rows))
    (hrow : ¬ row.timestamp ≤ c) : Row.upTo c rows' = [] ∧ Row.after c rows' = rows' := by
  cases rows' with
  | nil => exact ⟨rfl, rfl⟩
  | cons next rest =>
    have hnext := hasc.not_le hrow next (h.sublist.subset List.mem_cons_self)
    exact ⟨Row.upTo_cons_of_not_le hnext, Row.after_cons_of_not_le hnext⟩

theorem samplesOf_upTo (h : d.Thinned before rows rows') (hasc : Row.Ascending rows)
    (metric : String) (c : Timestamp) :
    samplesOf metric (Row.upTo c rows') = samplesOf metric (Row.upTo c rows) := by
  induction h with
  | nil => rfl
  | @keep _ rows rows' row _ ih =>
    by_cases hle : row.timestamp ≤ c
    · have hrest := ih (List.pairwise_cons.1 hasc).2
      rw [samplesOf] at hrest ⊢
      rw [Row.upTo_cons_of_le hle, Row.upTo_cons_of_le hle, List.filterMap_cons, hrest]
      rfl
    · rw [Row.upTo_cons_of_not_le hle, Row.upTo_cons_of_not_le hle]
  | @drop _ rows rows' row hrow h ih =>
    by_cases hle : row.timestamp ≤ c
    · rw [Row.upTo_cons_of_le hle, ih (List.pairwise_cons.1 hasc).2]
      simp [samplesOf, Row.get?_of_empty hrow.empty]
    · rw [(h.upTo_of_not_le hasc hle).1, Row.upTo_cons_of_not_le hle]

theorem after (h : d.Thinned before rows rows') (hasc : Row.Ascending rows) (c : Timestamp) :
    d.Thinned (before ++ Row.upTo c rows) (Row.after c rows) (Row.after c rows') := by
  induction h with
  | nil => exact .nil
  | @keep before rows rows' row h ih =>
    by_cases hle : row.timestamp ≤ c
    · have hrest := ih (List.pairwise_cons.1 hasc).2
      rw [List.append_assoc] at hrest
      rwa [Row.upTo_cons_of_le hle, Row.after_cons_of_le hle, Row.after_cons_of_le hle]
    · rw [Row.upTo_cons_of_not_le hle, Row.after_cons_of_not_le hle, Row.after_cons_of_not_le hle,
        List.append_nil]
      exact .keep h
  | @drop before rows rows' row hrow h ih =>
    by_cases hle : row.timestamp ≤ c
    · have hrest := ih (List.pairwise_cons.1 hasc).2
      rw [List.append_assoc] at hrest
      rwa [Row.upTo_cons_of_le hle, Row.after_cons_of_le hle]
    · rw [(h.upTo_of_not_le hasc hle).2, Row.upTo_cons_of_not_le hle, Row.after_cons_of_not_le hle,
        List.append_nil]
      exact .drop hrow h

/-- What follows the last sample is told by the rows that are left. -/
theorem among (h : d.Thinned before rows rows') (hasc : Row.Ascending rows)
    (hds : ds ∈ d.datasources) {s : Sample}
    (hs : (samplesOf ds.source before).getLast? = some s) :
    CarryOver.among ds.source (s.timestamp + ds.heartbeat) rows' =
      CarryOver.among ds.source (s.timestamp + ds.heartbeat) rows := by
  unfold CarryOver.among
  congr 1
  induction h with
  | nil => rfl
  | @keep before rows rows' row _ ih =>
    rw [List.findSome?_cons, List.findSome?_cons]
    cases hget : row.get? ds.source with
    | some s' => simp only [Resampling.judge?, hget]
    | none =>
      rw [← samplesOf_concat_of_none hget] at hs
      rw [ih (List.pairwise_cons.1 hasc).2 hs]
  | @drop before rows rows' row hrow h ih =>
    have hget := Row.get?_of_empty hrow.empty ds.source
    have hrest := ih (List.pairwise_cons.1 hasc).2 (by rwa [samplesOf_concat_of_none hget])
    rw [List.findSome?_cons, judge?_of_none hget]
    by_cases hle : s.timestamp + ds.heartbeat ≤ row.timestamp
    · -- The row tells that the metric is stale, and so does the next one.
      rcases hrow.told ds hds s hs with hlt | ⟨next, hnext, hnone⟩
      · rw [Timestamp.le_iff] at hle
        rw [Timestamp.lt_iff] at hlt
        omega
      · obtain ⟨rest, rfl⟩ := List.head?_eq_some_iff.1 hnext
        have hlater := (List.pairwise_cons.1 hasc).1 next (h.sublist.subset List.mem_cons_self)
        have hstale : s.timestamp + ds.heartbeat ≤ next.timestamp := by
          rw [Timestamp.le_iff] at hle ⊢
          rw [Timestamp.lt_iff] at hlater
          omega
        rw [if_pos hle, List.findSome?_cons, judge?_of_none hnone, if_pos hstale]
    · rw [if_neg hle]
      exact hrest

end Descriptor.Thinned

/-- The track has taken into account the rows `before`. -/
structure Track.Behind (t : Track) (d : Descriptor) (before : List (Row Value)) : Prop where
  mem : t.datasource ∈ d.datasources
  last : t.coverage.last = (samplesOf t.datasource.source before).getLast?.map (·.timestamp)

namespace Track.Behind

theorem absorb (h : t.Behind d before) (floor : Timestamp) (rows : List (Row Value)) :
    (t.absorb floor rows).Behind d (before ++ rows) := by
  rw [Track.absorb_eq_foldl]
  refine ⟨h.mem, ?_⟩
  dsimp only
  rw [Coverage.last_foldl, h.last, samplesOf, samplesOf, samplesOf, List.filterMap_append,
    List.getLast?_append, Option.map_or]

theorem close (h : t.Behind d before) (floor c : Timestamp) (rows : List (Row Value)) :
    (t.close floor c rows).reset.Behind d (before ++ Row.upTo c rows) := by
  have habsorb := h.absorb floor (Row.upTo c rows)
  rw [Track.close, Track.reset_complete]
  exact ⟨habsorb.mem, habsorb.last⟩

/-- Nothing that was taken out shows in a bucket. -/
theorem close_thinned (ht : t.Behind d before) (h : d.Thinned before rows rows')
    (hasc : Row.Ascending rows) (floor c : Timestamp) :
    t.close floor c rows' = t.close floor c rows := by
  have habsorb := ht.absorb floor (Row.upTo c rows)
  have hsame : t.absorb floor (Row.upTo c rows') = t.absorb floor (Row.upTo c rows) := by
    rw [Track.absorb_eq_foldl, Track.absorb_eq_foldl, h.samplesOf_upTo hasc]
  rw [Track.close, Track.close, hsame]
  unfold Track.complete
  rw [habsorb.last]
  cases hs : (samplesOf _ (before ++ Row.upTo c rows)).getLast? with
  | none => rfl
  | some s =>
    simp only [Option.map_some]
    rw [(h.after hasc c).among hasc.after habsorb.mem hs]

end Track.Behind

/-- The induction runs over the instants of the points; before each of them, the tracks have taken
into account all up to the instant before. -/
theorem pointRows_thinned (resource : String) (step : Duration) (cs : List Timestamp)
    (htracks : ∀ t ∈ tracks, t.Behind d before) (h : d.Thinned before rows rows')
    (hasc : Row.Ascending rows) :
    pointRows resource step cs tracks rows' = pointRows resource step cs tracks rows := by
  induction cs generalizing tracks before rows rows' with
  | nil => rfl
  | cons c rest ih =>
    have hclosed : tracks.map (·.close (c - step) c rows') =
        tracks.map (·.close (c - step) c rows) :=
      List.map_congr_left fun t ht => (htracks t ht).close_thinned h hasc _ _
    have hbehind : ∀ t ∈ (tracks.map (·.close (c - step) c rows)).map Track.reset,
        t.Behind d (before ++ Row.upTo c rows) := by
      intro t ht
      obtain ⟨u, hu, rfl⟩ := List.mem_map.1 ht
      obtain ⟨v, hv, rfl⟩ := List.mem_map.1 hu
      exact (htracks v hv).close _ _ _
    rw [pointRows, pointRows, hclosed, ih hbehind (h.after hasc c) hasc.after]

end Points

/-! ## Rates -/

namespace Feed

variable {d : Descriptor} {policy : CounterWrap} {tracked : List Tracked}
  {before before' rows rows' : List (Row Value)} {row : Row Value} {p : String → Bool}

theorem rateRow_keep (h : (tracked.map (·.metric)).Nodup)
    (hp : ∀ t ∈ tracked, p t.metric = true) :
    rateRow policy tracked (row.keep p) = rateRow policy tracked row := by
  have hfind : ∀ t ∈ tracked, (row.keep p).readings.find? (·.name = t.metric) =
      row.readings.find? (·.name = t.metric) := fun t ht => Row.find?_keep (hp t ht) row.readings
  have hrates : tracked.filterMap (·.rate? policy (row.keep p).readings) =
      tracked.filterMap (·.rate? policy row.readings) :=
    List.filterMap_congr fun t ht => by rw [Tracked.rate?, Tracked.rate?, hfind t ht]
  have hsee : tracked.map (·.see (row.keep p).readings) = tracked.map (·.see row.readings) :=
    List.map_congr_left fun t ht => by rw [Tracked.see, Tracked.see, hfind t ht]
  rw [rateRow_eq h, rateRow_eq h, hrates, hsee]
  rfl

/-- Rates need no sample of a metric that is not asked for. -/
theorem ratedRows_keep {metrics : List String} (h : metrics.Nodup)
    (hp : ∀ m ∈ metrics, p m = true) (rows : List (Row Value)) :
    ratedRows policy metrics (rows.map (Row.keep p)) = ratedRows policy metrics rows := by
  have hmetrics : (metrics.map fun m => (⟨m, none⟩ : Tracked)).map (·.metric) = metrics := by
    simp [Function.comp_def]
  unfold ratedRows
  generalize metrics.map (fun m => (⟨m, none⟩ : Tracked)) = tracked at hmetrics
  induction rows generalizing tracked with
  | nil => rfl
  | cons row rest ih =>
    have hnodup : (tracked.map (·.metric)).Nodup := hmetrics ▸ h
    have hkept : ∀ t ∈ tracked, p t.metric = true := fun t ht =>
      hp _ (hmetrics ▸ List.mem_map_of_mem ht)
    rw [List.map_cons, scanned, scanned, rateRow_keep hnodup hkept, ih]
    rw [rateRow_eq hnodup, ← hmetrics]
    simp [Function.comp_def]

/-- A requested metric is sampled in a row of rates when it was sampled in the row. -/
theorem timestamp_get?_rateRow (policy : CounterWrap) {metrics : List String}
    (hmetrics : tracked.map (·.metric) = metrics) (h : metrics.Nodup) {m : String}
    (hm : m ∈ metrics) (row : Row Value) :
    ((rateRow policy tracked row).1.get? m).map (·.timestamp) =
      (row.get? m).map (·.timestamp) := by
  subst hmetrics
  obtain ⟨t, ht, rfl⟩ := List.mem_map.1 hm
  rw [get?_rateRow h ht, Tracked.rate?, Option.map_map]
  exact Option.map_congr fun s _ => timestamp_rated policy s t.last

theorem rateRow_of_empty (policy : CounterWrap) (h : (tracked.map (·.metric)).Nodup)
    (hrow : row.readings = []) :
    (rateRow policy tracked row).1.readings = [] ∧ (rateRow policy tracked row).2 = tracked := by
  rw [rateRow_eq h, hrow]
  simp [Tracked.rate?, Tracked.see, Row.insertAll, Row.empty]

/-- The rates of the rows that are left are what is left of the rates. -/
theorem scanned_thinned (policy : CounterWrap) (hmetrics : tracked.map (·.metric) = d.sources)
    (hbefore : ∀ m ∈ d.sources,
      (samplesOf m before').map (·.timestamp) = (samplesOf m before).map (·.timestamp))
    (h : d.Thinned before rows rows') :
    d.Thinned before' (scanned (rateRow policy) tracked rows)
      (scanned (rateRow policy) tracked rows') := by
  have hsources : d.sources.Nodup := nodup_eraseDups _
  induction h generalizing before' tracked with
  | nil => exact .nil
  | @keep before rows rows' row _ ih =>
    have hnodup : (tracked.map (·.metric)).Nodup := hmetrics ▸ hsources
    refine .keep (ih ?_ fun m hm => ?_)
    · rw [rateRow_eq hnodup, ← hmetrics]
      simp [Function.comp_def]
    · rw [samplesOf_concat, samplesOf_concat, List.map_append, List.map_append, hbefore m hm,
        ← Option.toList_map, ← Option.toList_map,
        timestamp_get?_rateRow policy hmetrics hsources hm]
  | @drop before rows rows' row hrow h ih =>
    have hnodup : (tracked.map (·.metric)).Nodup := hmetrics ▸ hsources
    have hrate := rateRow_of_empty policy hnodup hrow.empty
    have hnone := Row.get?_of_empty hrate.1
    rw [scanned, hrate.2]
    refine .drop ⟨hrate.1, fun ds hds s hs => ?_⟩ (ih hmetrics fun m hm => ?_)
    · have hsource : ds.source ∈ d.sources := List.mem_eraseDups.2 (List.mem_map_of_mem hds)
      have hlast := congrArg List.getLast? (hbefore ds.source hsource)
      rw [List.getLast?_map, List.getLast?_map, hs, Option.map_some, eq_comm,
        Option.map_eq_some_iff] at hlast
      obtain ⟨s', hs', hsame⟩ := hlast
      rw [timestamp_rateRow, ← hsame]
      refine (hrow.told ds hds s' hs').imp_right fun htold => ?_
      obtain ⟨next, hnext, hget⟩ := htold
      obtain ⟨rest, rfl⟩ := List.head?_eq_some_iff.1 hnext
      refine ⟨_, rfl, ?_⟩
      have hrated := timestamp_get?_rateRow policy hmetrics hsources hsource next
      rwa [hget, Option.map_none, Option.map_eq_none_iff] at hrated
    · rw [samplesOf_concat_of_none (hnone m),
        samplesOf_concat_of_none (Row.get?_of_empty hrow.empty m), hbefore m hm]

end Feed

namespace Query

variable {q : Query} {resource : String} {start finish : Timestamp} {resolution : Duration}
  {d : Descriptor} {policy : CounterWrap} {rows rows' : List (Row Value)}

theorem exactPoints_thinned (hasc : Row.Ascending rows)
    (h : q.descriptor.Thinned [] (rows.map q.descriptor.requested) rows') (n : Nat) :
    q.exactPoints n (.ofRows rows') = q.exactPoints n (.ofRows rows) := by
  have hsources : q.descriptor.sources.Nodup := nodup_eraseDups _
  have hrequested : Feed.ratedRows q.counterWrap q.descriptor.sources
      (rows.map q.descriptor.requested) =
      Feed.ratedRows q.counterWrap q.descriptor.sources rows :=
    Feed.ratedRows_keep (p := (· ∈ q.descriptor.sources)) hsources (by simp) rows
  have hmetrics : (q.descriptor.sources.map fun m => (⟨m, none⟩ : Feed.Tracked)).map (·.metric) =
      q.descriptor.sources := by
    simp [Function.comp_def]
  have hthinned := Feed.scanned_thinned q.counterWrap hmetrics (fun _ _ => rfl) h
  have htracks : ∀ t ∈ q.descriptor.tracks, t.Behind q.descriptor [] := by
    intro t ht
    obtain ⟨ds, hds, rfl⟩ := List.mem_map.1 ht
    exact ⟨hds, rfl⟩
  rw [exactPoints_ofRows, exactPoints_ofRows, ← hrequested]
  congr 2
  refine pointRows_thinned q.resource q.descriptor.step _ htracks hthinned ?_
  exact hrequested ▸ Feed.ascending_ratedRows hasc

/-- Taking out the samples that no datasource reads changes nothing, and neither does taking out
rows that are left empty and dispensable, unless a count overflows with them or without them. -/
theorem run_thinned {draft : Draft} (hd : draft.build = .ok d)
    (hq : check resource start finish resolution d policy = .ok q) (hasc : Row.Ascending rows)
    (h : d.Thinned [] (rows.map d.requested) rows') (n : Nat) :
    q.run n (.ofRows rows) = .error (.abandoned .overflow) ∨
      q.run n (.ofRows rows') = .error (.abandoned .overflow) ∨
      q.run n (.ofRows rows') = q.run n (.ofRows rows) ∧
        (q.EndsWithin n → ∃ out, q.run n (.ofRows rows) = .ok out) := by
  obtain ⟨-, -, rfl⟩ := check_ok hq
  let q : Query := ⟨resource, start, finish, resolution, d, policy⟩
  have hwf : q.descriptor.WellFormed := Draft.wellFormed_of_build hd
  rcases (agrees_checkedRows hwf n rows).collect with hover | hexact
  · exact .inl hover
  rcases (agrees_checkedRows hwf n rows').collect with hover | hexact'
  · exact .inr (.inl hover)
  have hrows : q.exactRows n (.ofRows rows') = q.exactRows n (.ofRows rows) := by
    rw [exactRows, exactRows, exactBuckets, exactBuckets, exactPoints_thinned hasc h]
  rcases run_ofRows hwf n rows with hout | ⟨cause, rfl | hgoes, hcause⟩
  · exact .inr (.inr ⟨hexact'.trans (hrows ▸ hexact.symm), fun _ => hout⟩)
  · exact .inl hcause
  · exact .inr (.inr ⟨hexact'.trans (hrows ▸ hexact.symm), fun hends => absurd hends hgoes⟩)

/-- Asks for `Draft.load` in the one second up to the first. -/
def firstSecond : Query :=
  ⟨"host", .ofTicks 1 .seconds, .ofTicks 1 .seconds, .ofTicks 1 .seconds, .load, .wrap⟩

/-- While the heartbeat lasts, a row of another metric can be taken out. -/
theorem run_thinned_load :
    let rows : List (Row Value) := [.gauge (.ofTicks 0 .seconds) "host" "cpu" 1,
      .gauge (.ofTicks 1 .seconds) "host" "mem" 1, .gauge (.ofTicks 2 .seconds) "host" "cpu" 1]
    let rows' : List (Row Value) := [.gauge (.ofTicks 0 .seconds) "host" "cpu" 1,
      .gauge (.ofTicks 2 .seconds) "host" "cpu" 1]
    check "host" (.ofTicks 1 .seconds) (.ofTicks 1 .seconds) (.ofTicks 1 .seconds) .load .wrap =
      .ok firstSecond ∧
    firstSecond.EndsWithin 2 ∧
    ∃ out, firstSecond.run 2 (.ofRows rows) = .ok out ∧
      firstSecond.run 2 (.ofRows rows') = .ok out := by
  intro rows rows'
  have hq : check "host" (.ofTicks 1 .seconds) (.ofTicks 1 .seconds) (.ofTicks 1 .seconds) .load
      .wrap = .ok firstSecond := rfl
  have hmem : Descriptor.load.Dispensable [.gauge (.ofTicks 0 .seconds) "host" "cpu" 1]
      (Descriptor.load.requested (.gauge (.ofTicks 1 .seconds) "host" "mem" 1))
      [.gauge (.ofTicks 2 .seconds) "host" "cpu" 1] := by
    refine ⟨rfl, fun ds hds s hs => .inl ?_⟩
    obtain rfl := List.mem_singleton.1 hds
    obtain rfl := Option.some.inj hs
    decide
  have hthinned : Descriptor.load.Thinned [] (rows.map Descriptor.load.requested) rows' :=
    .keep (.drop hmem (.keep .nil))
  have hends : firstSecond.EndsWithin 2 := by decide
  have hsome : (firstSecond.run 2 (.ofRows rows)).toOption.isSome = true := by decide +kernel
  have hsome' : (firstSecond.run 2 (.ofRows rows')).toOption.isSome = true := by decide +kernel
  refine ⟨hq, hends, ?_⟩
  rcases run_thinned Draft.build_load hq (by decide) hthinned 2 with
    hover | hover | ⟨hsame, hout⟩
  · rw [hover] at hsome
    cases hsome
  · rw [hover] at hsome'
    cases hsome'
  · obtain ⟨out, hrun⟩ := hout hends
    exact ⟨out, hrun, hsame.trans hrun⟩

/-- Two samples in the first quarter of a second, and much later one of another metric. -/
def staleRows : List (Row Value) :=
  [.gauge (.ofTicks 0 .seconds) "host" "cpu" 1, .gauge (.ofTicks 250 .milliseconds) "host" "cpu" 1,
    .gauge (.ofTicks 9 .seconds) "host" "mem" 1]

/-- Asks for `Draft.load` in the one second up to the tenth before the epoch. -/
def tenthBefore : Query :=
  ⟨"host", .ofTicks (-10) .seconds, .ofTicks (-10) .seconds, .ofTicks 1 .seconds, .load, .wrap⟩

/-- A counter whose last sample is dated at the end of all time, and before it a sample of another
metric. -/
def farRows : List (Row Value) :=
  let count (t own : Int) (w : UInt64) : Row Value :=
    (Row.empty (.ofTicks t .seconds) "host").insert
      ⟨.ofTicks own .seconds, "host", "cpu", .counter w, none⟩
  [count (-11) (-11) 1, count (-10) (-10) 2, .gauge (.ofTicks (-9) .seconds) "host" "mem" 1,
    count (-8) maxTicks 3]

/-- The rows without samples that no datasource reads, and then without rows that hold none. -/
def remaining (d : Descriptor) (rows : List (Row Value)) : List (Row Value) :=
  (rows.map d.requested).filter (!·.isEmpty)

/-- Without the last row of `staleRows`, which is left empty, nothing tells that the metric is
stale. Without the third one of `farRows` the last one is read, whose rate overflows. -/
theorem run_staleRows :
    check "host" (.ofTicks 1 .seconds) (.ofTicks 1 .seconds) (.ofTicks 1 .seconds) .load .wrap =
      .ok firstSecond ∧
    Row.Ascending staleRows ∧
    firstSecond.run 2 (.ofRows staleRows) ≠
      firstSecond.run 2 (.ofRows (remaining .load staleRows)) ∧
    check "host" (.ofTicks (-10) .seconds) (.ofTicks (-10) .seconds) (.ofTicks 1 .seconds) .load
      .wrap = .ok tenthBefore ∧
    Row.Ascending farRows ∧
    (tenthBefore.run 2 (.ofRows farRows)).toOption.isSome = true ∧
    tenthBefore.run 2 (.ofRows (remaining .load farRows)) = .error (.abandoned .overflow) := by
  refine ⟨rfl, by decide, fun h => ?_, rfl, by decide, by decide +kernel, ?_⟩
  · let unknowns (out : Except QueryError (List (Row Float))) : Option (List (List Bool)) :=
      out.toOption.map fun rows => rows.map fun row => row.readings.map (·.value.isNaN)
    have hstale : unknowns (firstSecond.run 2 (.ofRows staleRows)) = some [[true]] := by
      decide +kernel
    have hended : unknowns (firstSecond.run 2 (.ofRows (remaining .load staleRows))) =
        some [[false]] := by
      decide +kernel
    rw [h, hended] at hstale
    cases hstale
  · rfl

end Query

end Telemetry
