import Telemetry.Proofs.Buckets.Run
import Telemetry.Proofs.Points.Local
import Telemetry.Proofs.Stages

/-!
# Rows cut down to some names

Rates, primary points and buckets treat each metric and each label by itself, though all of them
read the same rows. Cut down to one name, the rows that a stage gives are the rows that it gives
when it is asked for that name alone, and to make them it needs no more than the rows cut down to
what is read under that name.
-/

namespace Telemetry

/-! ## Rows -/

namespace Row

variable {α : Type} {row row' : Row α} {rows : List (Row α)} {rs : List (Reading α)} {r : Reading α}
  {p : String → Bool} {n resource : String} {c : Timestamp}

/-- The row without the readings of other names. -/
def keep (p : String → Bool) (row : Row α) : Row α :=
  { row with
    readings := row.readings.filter (p ·.name)
    nodup := row.nodup.sublist (List.filter_sublist.map _) }

@[simp] theorem timestamp_keep : (row.keep p).timestamp = row.timestamp := rfl

theorem find?_keep (hn : p n = true) (l : List (Reading α)) :
    (l.filter (p ·.name)).find? (·.name = n) = l.find? (·.name = n) := by
  rw [List.find?_filter]
  congr 1
  funext r
  by_cases hr : r.name = n
  · simp [hr, hn]
  · simp [hr]

theorem get?_keep (hn : p n = true) : (row.keep p).get? n = row.get? n :=
  find?_keep hn row.readings

theorem upTo_keep : upTo c (rows.map (keep p)) = (upTo c rows).map (keep p) :=
  List.takeWhile_map ..

theorem after_keep : after c (rows.map (keep p)) = (after c rows).map (keep p) :=
  List.dropWhile_map ..

theorem keep_insertAll_empty (h : (rs.map (·.name)).Nodup) :
    ((empty c resource).insertAll rs).keep p =
      (empty c resource).insertAll (rs.filter (p ·.name)) := by
  have hfilter : ((rs.filter (p ·.name)).map (·.name)).Nodup :=
    h.sublist (List.filter_sublist.map _)
  refine ext_of_readings ?_ ?_ ?_
  · rw [timestamp_keep, timestamp_insertAll, timestamp_insertAll]
  · exact resource_insertAll.trans resource_insertAll.symm
  · rw [readings_insertAll_empty c resource hfilter]
    exact congrArg (List.filter _) (readings_insertAll_empty c resource h)

/-- A row made of readings of different names, cut down to one of them. -/
theorem only_insertAll_empty (c : Timestamp) (resource : String) (h : (rs.map (·.name)).Nodup)
    (hr : r ∈ rs) :
    ((empty c resource).insertAll rs).keep (· = r.name) = (empty c resource).insertAll [r] := by
  rw [keep_insertAll_empty h, filter_name h, find?_name h hr]
  rfl

end Row

/-! ## Rates -/

namespace Feed

section Rates

variable {policy : CounterWrap} {tracked : List Tracked} {t : Tracked} {samples : List Sample}
  {row : Row Value} {rows : List (Row Value)} {metrics : List String} {metric : String}

/-- What a tracked metric gives for samples. -/
def Tracked.rate? (policy : CounterWrap) (samples : List Sample) (t : Tracked) : Option Sample :=
  (samples.find? (·.name = t.metric)).map (rated policy · t.last)

/-- The tracked metric after samples. -/
def Tracked.see (samples : List Sample) (t : Tracked) : Tracked :=
  match samples.find? (·.name = t.metric) with
  | some s => { t with last := some ⟨s.timestamp, s.value⟩ }
  | none => t

@[simp] theorem Tracked.metric_see : (t.see samples).metric = t.metric := by
  unfold see
  split <;> rfl

theorem Tracked.name_of_rate? {s : Sample} (h : t.rate? policy samples = some s) :
    s.name = t.metric := by
  obtain ⟨s', hfind, rfl⟩ := Option.map_eq_some_iff.1 h
  rw [name_rated]
  simpa using List.find?_some hfind

/-- Each of several different metrics finds its own sample, whatever was taken out for those before
it. -/
theorem extractInOrder_eq (h : (tracked.map (·.metric)).Nodup) :
    extractInOrder policy tracked samples =
      (tracked.filterMap (·.rate? policy samples), tracked.map (·.see samples)) := by
  induction tracked generalizing samples with
  | nil => rfl
  | cons t rest ih =>
    obtain ⟨ht, hrest⟩ := List.nodup_cons.1 h
    cases hfind : samples.find? (·.name = t.metric) with
    | none => simp [extractInOrder, hfind, ih hrest, Tracked.rate?, Tracked.see]
    | some s =>
      have herased : ∀ u ∈ rest, (samples.eraseP (·.name = t.metric)).find? (·.name = u.metric) =
          samples.find? (·.name = u.metric) := fun u hu =>
        Row.find?_eraseP_of_ne (fun heq => ht (List.mem_map.2 ⟨u, hu, heq.symm⟩)) samples
      have hrates : rest.filterMap (·.rate? policy (samples.eraseP (·.name = t.metric))) =
          rest.filterMap (·.rate? policy samples) :=
        List.filterMap_congr fun u hu => by rw [Tracked.rate?, Tracked.rate?, herased u hu]
      have hsee : rest.map (·.see (samples.eraseP (·.name = t.metric))) =
          rest.map (·.see samples) :=
        List.map_congr_left fun u hu => by rw [Tracked.see, Tracked.see, herased u hu]
      simp only [extractInOrder, hfind, ih hrest, hrates, hsee]
      simp [Tracked.rate?, Tracked.see, hfind]

/-- So whether a rate overflows is told for each metric by itself. -/
theorem extractOverflows_eq (h : (tracked.map (·.metric)).Nodup)
    (hsamples : (samples.map (·.name)).Nodup) :
    extractOverflows tracked samples =
      tracked.any fun t => (samples.find? (·.name = t.metric)).any (ratedOverflows · t.last) := by
  induction tracked generalizing samples with
  | nil => rfl
  | cons t rest ih =>
    obtain ⟨ht, hrest⟩ := List.nodup_cons.1 h
    rw [extractOverflows, List.any_cons]
    cases hfind : samples.find? (·.name = t.metric) with
    | none => rw [ih hrest hsamples, Option.any_none, Bool.false_or]
    | some s =>
      have hnodup := Row.nodup_swapRemove hsamples t.metric
      have hleft : ∀ u ∈ rest,
          (swapRemove (·.name = t.metric) samples).find? (·.name = u.metric) =
            samples.find? (·.name = u.metric) := by
        intro u hu
        rw [Row.find?_perm (Row.swapRemove_perm (.refl samples) hsamples t.metric) hnodup]
        exact Row.find?_eraseP_of_ne (fun heq => ht (List.mem_map.2 ⟨u, hu, heq.symm⟩)) samples
      dsimp only
      rw [ih hrest hnodup, Option.any_some]
      congr 1
      exact any_eq_of_forall₂ (List.forall₂_same.2 fun u hu => by rw [hleft u hu])

theorem Tracked.isSome_rate? (policy : CounterWrap) (samples : List Sample) (t : Tracked) :
    (t.rate? policy samples).isSome = decide (t.metric ∈ samples.map (·.name)) := by
  rw [rate?, Option.isSome_map, Bool.eq_iff_iff, List.find?_isSome]
  simp

theorem names_rates (policy : CounterWrap) (tracked : List Tracked) (samples : List Sample) :
    (tracked.filterMap (·.rate? policy samples)).map (·.name) =
      (tracked.map (·.metric)).filter (· ∈ samples.map (·.name)) := by
  induction tracked with
  | nil => rfl
  | cons t rest ih =>
    have hmem := Tracked.isSome_rate? policy samples t
    cases hrate : t.rate? policy samples with
    | none =>
      rw [hrate, Option.isSome_none] at hmem
      rw [List.filterMap_cons_none hrate, ih, List.map_cons, List.filter_cons, ← hmem]
      rfl
    | some s =>
      rw [hrate, Option.isSome_some] at hmem
      rw [List.filterMap_cons_some hrate, List.map_cons, List.map_cons, ih, List.filter_cons,
        ← hmem,
        Tracked.name_of_rate? hrate]
      rfl

theorem names_rates_sublist (policy : CounterWrap) (tracked : List Tracked)
    (samples : List Sample) :
    ((tracked.filterMap (·.rate? policy samples)).map (·.name)).Sublist
      (tracked.map (·.metric)) := by
  rw [names_rates]
  exact List.filter_sublist

theorem rateRow_eq (h : (tracked.map (·.metric)).Nodup) :
    rateRow policy tracked row =
      ((Row.empty row.timestamp row.resource).insertAll
        (tracked.filterMap (·.rate? policy row.readings)), tracked.map (·.see row.readings)) := by
  rw [rateRow_eq_inOrder, extractInOrder_eq h]

/-- The row of all tracked metrics, cut down to one of them. -/
theorem rateRow_only (h : (tracked.map (·.metric)).Nodup) (ht : t ∈ tracked) :
    (rateRow policy tracked row).1.keep (· = t.metric) = (rateRow policy [t] row).1 := by
  have hnodup := h.sublist (names_rates_sublist policy tracked row.readings)
  have hone : ([t].map (·.metric)).Nodup := List.nodup_singleton _
  rw [rateRow_eq h, rateRow_eq hone]
  cases hrate : t.rate? policy row.readings with
  | none =>
    have hnone : ∀ s ∈ tracked.filterMap (·.rate? policy row.readings), ¬ s.name = t.metric := by
      intro s hs hname
      obtain ⟨u, hu, hus⟩ := List.mem_filterMap.1 hs
      have hmetric : u.metric = t.metric := (Tracked.name_of_rate? hus).symm.trans hname
      obtain rfl := List.inj_on_of_nodup_map h hu ht hmetric
      rw [hrate] at hus
      cases hus
    rw [Row.keep_insertAll_empty hnodup, List.filter_eq_nil_iff.2 (by simpa using hnone)]
    simp [hrate]
  | some s =>
    have hs : s ∈ tracked.filterMap (·.rate? policy row.readings) :=
      List.mem_filterMap.2 ⟨t, ht, hrate⟩
    rw [← Tracked.name_of_rate? hrate, Row.only_insertAll_empty _ _ hnodup hs]
    simp [hrate]

theorem get?_rateRow (h : (tracked.map (·.metric)).Nodup) (ht : t ∈ tracked) :
    (rateRow policy tracked row).1.get? t.metric = t.rate? policy row.readings := by
  have hone : ([t].map (·.metric)).Nodup := List.nodup_singleton _
  have hkeep : ((rateRow policy tracked row).1.keep (· = t.metric)).get? t.metric =
      (rateRow policy tracked row).1.get? t.metric := Row.get?_keep (by simp)
  rw [← hkeep, rateRow_only h ht, rateRow_eq hone]
  cases hrate : t.rate? policy row.readings with
  | none => simp [hrate, Row.insertAll, Row.empty, Row.get?]
  | some s =>
    have hname := Tracked.name_of_rate? hrate
    simp [hrate, Row.insertAll, Row.insert, Row.place, Row.empty, Row.get?, hname]

/-- The induction runs over the rows; what has been seen of one metric does not depend on the
others. -/
theorem scanned_only (h : (tracked.map (·.metric)).Nodup) (ht : t ∈ tracked) :
    (scanned (rateRow policy) tracked rows).map (Row.keep (· = t.metric)) =
      scanned (rateRow policy) [t] rows := by
  induction rows generalizing tracked t with
  | nil => rfl
  | cons row rest ih =>
    have hnodup : ((tracked.map (·.see row.readings)).map (·.metric)).Nodup := by
      simpa [Function.comp_def] using h
    have hone : ([t].map (·.metric)).Nodup := List.nodup_singleton _
    have hrest := ih hnodup (List.mem_map_of_mem ht)
    rw [Tracked.metric_see] at hrest
    rw [scanned, scanned, List.map_cons, rateRow_only h ht, rateRow_eq h, rateRow_eq hone, hrest]
    rfl

/-- The rates of several metrics, cut down to one of them, are the rates of that metric. -/
theorem ratedRows_only (h : metrics.Nodup) (hm : metric ∈ metrics) :
    (ratedRows policy metrics rows).map (Row.keep (· = metric)) =
      ratedRows policy [metric] rows := by
  have hnodup : ((metrics.map fun m => (⟨m, none⟩ : Tracked)).map (·.metric)).Nodup := by
    simpa [Function.comp_def] using h
  exact scanned_only (t := ⟨metric, none⟩) hnodup (List.mem_map_of_mem hm)

end Rates

end Feed

/-! ## Primary points -/

section Points

variable {t : Track} {tracks : List Track} {rows : List (Row Value)} {row : Row Value}
  {floor ceiling : Timestamp} {p : String → Bool}

namespace Track

theorem advance_keep (hp : p t.datasource.source = true) :
    t.advance floor (row.keep p) = t.advance floor row := by
  rw [advance, advance, Row.get?_keep hp]

theorem absorb_keep (hp : p t.datasource.source = true) :
    t.absorb floor (rows.map (Row.keep p)) = t.absorb floor rows := by
  induction rows generalizing t with
  | nil => rfl
  | cons row rest ih =>
    have hds : (t.advance floor row).datasource = t.datasource :=
      (rfl : _ = (t.absorb floor [row]).datasource).trans datasource_absorb
    rw [List.map_cons, absorb_cons, absorb_cons, advance_keep hp]
    exact ih (hds ▸ hp)

theorem complete_keep (hp : p t.datasource.source = true) :
    t.complete floor ceiling (rows.map (Row.keep p)) = t.complete floor ceiling rows := by
  have hjudge (horizon : Timestamp) (row : Row Value) :
      Resampling.judge? t.datasource.source horizon (row.keep p) =
        Resampling.judge? t.datasource.source horizon row := by
    rw [Resampling.judge?, Resampling.judge?, Row.get?_keep hp, Row.timestamp_keep]
  unfold complete CarryOver.among
  simp only [List.findSome?_map, Function.comp_def, hjudge]

/-- A track takes no notice of readings of other metrics. -/
theorem close_keep (hp : p t.datasource.source = true) :
    t.close floor ceiling (rows.map (Row.keep p)) = t.close floor ceiling rows := by
  rw [close, Row.upTo_keep, Row.after_keep, absorb_keep hp, complete_keep, close]
  rwa [datasource_absorb]

end Track

theorem pointOf_only (resource : String) (ceiling : Timestamp)
    (h : (tracks.map (·.datasource.label)).Nodup) (ht : t ∈ tracks) :
    (pointOf resource ceiling tracks).keep (· = t.datasource.label) =
      pointOf resource ceiling [t] := by
  have hnodup : ((tracks.map (·.measurement resource ceiling)).map (·.name)).Nodup := by
    simpa [Track.measurement, Function.comp_def] using h
  exact Row.only_insertAll_empty _ _ hnodup (List.mem_map_of_mem ht)

/-- The points of several datasources, cut down to one of them, are its points from its own
metric. -/
theorem pointRows_only (resource : String) (step : Duration) (cs : List Timestamp)
    (rows : List (Row Value)) (h : (tracks.map (·.datasource.label)).Nodup) (ht : t ∈ tracks) :
    (pointRows resource step cs tracks rows).map (Row.keep (· = t.datasource.label)) =
      pointRows resource step cs [t] (rows.map (Row.keep (· = t.datasource.source))) := by
  induction cs generalizing tracks t rows with
  | nil => rfl
  | cons c rest ih =>
    let next (t : Track) : Track := t.close (c - step) c rows
    have hclosed : ((tracks.map next).map (·.datasource.label)).Nodup := by
      simpa [next, Function.comp_def] using h
    have hreset : (((tracks.map next).map Track.reset).map (·.datasource.label)).Nodup := by
      simpa [next, Track.reset, Function.comp_def] using h
    have hpoint := pointOf_only resource c hclosed (List.mem_map_of_mem ht)
    have hrest := ih (Row.after c rows) hreset (List.mem_map_of_mem (List.mem_map_of_mem ht))
    have hds : (next t).reset.datasource = t.datasource := Track.datasource_close
    rw [Track.datasource_close] at hpoint
    rw [hds] at hrest
    rw [pointRows, List.map_cons, hpoint, pointRows, Row.after_keep]
    simp only [List.map_cons, List.map_nil]
    rw [Track.close_keep (by simp)]
    exact congrArg (_ :: ·) hrest

end Points

/-! ## Buckets -/

/-- The feed with its rows cut down to some names. -/
def Feed.keep {α : Type} (p : String → Bool) (feed : Feed α) : Feed α :=
  feed.map (·.map (Row.keep p))

theorem Feed.keep_ofRows {α : Type} (p : String → Bool) (rows : List (Row α)) :
    (ofRows rows).keep p = ofRows (rows.map (Row.keep p)) := by
  simp only [keep, ofRows, List.map_map]
  rfl

theorem Feed.abandons_keep {α : Type} (p : String → Bool) (item : Except QueryError (Row α)) :
    abandons (item.map (Row.keep p)) = abandons item := by
  cases item <;> rfl

section Buckets

variable {label : String} {p : String → Bool} {bucket : Bucket} {buckets : List Bucket}
  {feed : Feed Float}

theorem Bucket.add_keep {row : Row Float} (hp : p bucket.datasource.label = true) :
    bucket.add (row.keep p) = bucket.add row := by
  rw [add, add, Row.get?_keep hp]

theorem Bucket.datasource_add (bucket : Bucket) (row : Row Float) :
    (bucket.add row).datasource = bucket.datasource := by
  show (bucket.addAll [row]).datasource = _
  exact datasource_addAll

namespace Bucketing

theorem skip_keep (limit : Timestamp) (p : String → Bool) (feed : Feed Float) :
    skip limit (feed.keep p) = ((skip limit feed).1, (skip limit feed).2.keep p) := by
  induction feed with
  | nil => rfl
  | cons item rest ih =>
    cases item with
    | error e => rfl
    | ok row =>
      have hkeep : Feed.keep p (.ok row :: rest) = .ok (row.keep p) :: Feed.keep p rest := rfl
      rw [hkeep, skip, skip, Row.timestamp_keep]
      split
      · exact ih
      · rfl

/-- A bucket takes the same out of rows that are cut down to its label. -/
theorem fill_only (ceiling : Timestamp) (feed : Feed Float) (hmem : bucket ∈ buckets)
    (hp : p bucket.datasource.label = true) :
    (fill ceiling buckets feed).1.map (·.datasource) = buckets.map (·.datasource) ∧
      ∃ filled ∈ (fill ceiling buckets feed).1, filled.datasource = bucket.datasource ∧
        fill ceiling [bucket] (feed.keep p) =
          ([filled], (fill ceiling buckets feed).2.1, (fill ceiling buckets feed).2.2.keep p) := by
  induction feed generalizing bucket buckets with
  | nil => exact ⟨rfl, bucket, hmem, rfl, rfl⟩
  | cons item rest ih =>
    cases item with
    | error e => exact ⟨rfl, bucket, hmem, rfl, rfl⟩
    | ok row =>
      have hkeep : Feed.keep p (.ok row :: rest) = .ok (row.keep p) :: Feed.keep p rest := rfl
      rw [hkeep, fill, fill, Row.timestamp_keep, List.map_singleton, Bucket.add_keep hp]
      split
      · have hadded : bucket.add row ∈ buckets.map (·.add row) := List.mem_map_of_mem hmem
        obtain ⟨hall, filled, hfilled, hds, hfill⟩ := ih hadded (by rwa [Bucket.datasource_add])
        refine ⟨?_, filled, hfilled, hds.trans (bucket.datasource_add row), hfill⟩
        rw [hall, List.map_map]
        exact List.map_congr_left fun b _ => b.datasource_add row
      · exact ⟨rfl, bucket, hmem, rfl, rfl⟩

/-- The second filling is the first one cut down to one of its buckets. -/
structure Only (label : String) (b alone : Bucketing) : Prop where
  labels : (b.buckets.map (·.datasource.label)).Nodup
  own : ∃ bucket ∈ b.buckets, bucket.datasource.label = label ∧
    alone = { b with buckets := [bucket], input := b.input.keep (· = label) }

variable {b alone : Bucketing}

theorem prime_only (h : Only label b alone) (ceiling : Timestamp) :
    (alone.prime ceiling).1 = (b.prime ceiling).1 ∧
      Only label (b.prime ceiling).2 (alone.prime ceiling).2 := by
  obtain ⟨hlabels, bucket, hmem, hlabel, rfl⟩ := h
  obtain ⟨resource, resolution, pointsPerBucket, points, buckets, primed, input⟩ := b
  cases primed with
  | true => exact ⟨rfl, hlabels, bucket, hmem, hlabel, rfl⟩
  | false =>
    simp only [prime, Bool.false_eq_true, if_false, skip_keep]
    cases skip (ceiling - resolution) input with
    | mk failure rest =>
      cases failure with
      | some e => exact ⟨rfl, hlabels, bucket, hmem, hlabel, rfl⟩
      | none => exact ⟨rfl, hlabels, bucket, hmem, hlabel, rfl⟩

/-- Both fillings answer a request alike, but for the names that are left out. -/
theorem next?_only (h : Only label b alone) {item : Except QueryError (Row Float)} {s : Bucketing}
    (hnext : b.next? = some (item, s)) :
    ∃ s', alone.next? = some (item.map (Row.keep (· = label)), s') ∧ Only label s s' := by
  cases hp : b.points.next? with
  | none =>
    rw [next?_of_none hp] at hnext
    cases hnext
  | some step =>
    obtain ⟨ceiling, points⟩ := step
    have hpAlone : alone.points.next? = some (ceiling, points) := by
      obtain ⟨-, bucket, -, -, rfl⟩ := h
      exact hp
    have hbegun : Only label { b with points } { alone with points } := by
      obtain ⟨hlabels, bucket, hmem, hlabel, rfl⟩ := h
      exact ⟨hlabels, bucket, hmem, hlabel, rfl⟩
    obtain ⟨hfailure, hprimed⟩ := prime_only hbegun ceiling
    simp only [next?, hp, hpAlone, Option.map_some, Option.some.injEq] at hnext ⊢
    generalize { b with points }.prime ceiling = early at hnext hfailure hprimed
    generalize { alone with points }.prime ceiling = earlyAlone at hfailure hprimed ⊢
    obtain ⟨failure, b⟩ := early
    obtain ⟨failure', alone⟩ := earlyAlone
    obtain rfl : failure = failure' := hfailure.symm
    cases failure with
    | some e =>
      cases hnext
      exact ⟨alone, rfl, hprimed⟩
    | none =>
      obtain ⟨hlabels, bucket, hmem, hlabel, rfl⟩ := hprimed
      let cleared (bucket : Bucket) : Bucket := { bucket with values := [] }
      have hcleared : cleared bucket ∈ b.buckets.map cleared := List.mem_map_of_mem hmem
      obtain ⟨hall, filled, hfilled, hds, hfill⟩ :=
        fill_only (p := (· = label)) ceiling b.input hcleared (by simpa [cleared] using hlabel)
      simp only [cleared] at hall hfilled hds hfill
      dsimp only at hnext
      simp only [List.map_cons, List.map_nil, hfill]
      generalize fill ceiling (b.buckets.map ({ · with values := [] })) b.input = gathered
        at hnext hall hfilled
      obtain ⟨buckets, failure, input⟩ := gathered
      have hsame : buckets.map (·.datasource.label) = b.buckets.map (·.datasource.label) := by
        simpa [Function.comp_def] using congrArg (List.map Datasource.label) hall
      have hown : filled.datasource.label = label := by rw [hds, hlabel]
      cases failure with
      | some e =>
        cases hnext
        exact ⟨_, rfl, hsame ▸ hlabels, filled, hfilled, hown, rfl⟩
      | none =>
        cases hnext
        have hnodup : ((buckets.map (·.measurement b.resource ceiling b.pointsPerBucket)).map
            (·.name)).Nodup := by
          simpa [Bucket.measurement, Function.comp_def] using hsame ▸ hlabels
        have honly := Row.only_insertAll_empty ceiling b.resource hnodup
          (List.mem_map_of_mem hfilled)
        have hname : (filled.measurement b.resource ceiling b.pointsPerBucket).name = label := hown
        rw [hname] at honly
        refine ⟨_, ?_, ?_, _, List.mem_map_of_mem hfilled, hown, rfl⟩
        · simp only [Except.map, honly, List.map_cons, List.map_nil]
        · simpa [Function.comp_def] using hsame ▸ hlabels

theorem next?_eq_none_of_only (h : Only label b alone) (hb : b.next? = none) :
    alone.next? = none := by
  obtain ⟨-, bucket, -, -, rfl⟩ := h
  exact next?_of_none (Option.map_eq_none_iff.1 hb)

/-- The induction runs over the requests. -/
theorem run_only (n : Nat) (h : Only label b alone) :
    Feed.run next? n alone = (Feed.run next? n b).keep (· = label) := by
  induction n generalizing b alone with
  | zero =>
    cases hb : b.next? with
    | none =>
      rw [Feed.run, Feed.run, hb, next?_eq_none_of_only h hb]
      rfl
    | some step =>
      obtain ⟨s', halone, -⟩ := next?_only h hb
      rw [Feed.run, Feed.run, hb, halone]
      rfl
  | succ n ih =>
    cases hb : b.next? with
    | none =>
      rw [Feed.run, Feed.run, hb, next?_eq_none_of_only h hb]
      rfl
    | some step =>
      obtain ⟨item, s⟩ := step
      obtain ⟨s', halone, hs⟩ := next?_only h hb
      rw [Feed.run, Feed.run, hb, halone]
      simp only [Feed.abandons_keep, ih hs]
      split
      · rfl
      · rfl

end Bucketing

end Buckets

/-- The buckets of several datasources, cut down to one of them, are its buckets from its own
points. -/
theorem Feed.checkedBuckets_only {d alone : Descriptor} {ds : Datasource}
    (h : (d.datasources.map (·.label)).Nodup) (hds : ds ∈ d.datasources)
    (hstep : alone.step = d.step) (halone : alone.datasources = [ds]) (n : Nat) (resource : String)
    (start finish : Timestamp) (resolution : Duration) (points : Feed Float) :
    checkedBuckets n alone resource start finish resolution (points.keep (· = ds.label)) =
      (checkedBuckets n d resource start finish resolution points).keep (· = ds.label) := by
  refine Bucketing.run_only n ⟨?_, ⟨ds, [], none⟩, List.mem_map_of_mem hds, rfl, ?_⟩
  · simpa [Bucketing.start, Function.comp_def] using h
  · simp [Bucketing.start, hstep, halone]

end Telemetry
