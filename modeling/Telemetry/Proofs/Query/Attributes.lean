import Telemetry.Proofs.Expression.Calculated
import Telemetry.Proofs.Points.Notes
import Telemetry.Proofs.Query.Slicing
import Telemetry.Proofs.Selection

/-!
# What samples attach to the rows of a query

Along a range of whole resolutions, the measurement of a datasource in each bucket shows the merge
of what its primary points take, one point after the other. A note that one bucket takes and that
lies outside of it is the next sample behind it, carried over to all points from the last sample on.
Calculations and exports leave attributes as they are.
-/

namespace Telemetry

/-- The notes that a datasource's bucket takes if it ends with `c`, one primary point after the
other. -/
def Datasource.contributions (ds : Datasource) (step resolution : Duration)
    (rows : List (Row Value)) (c : Timestamp) : List Note :=
  (spaced (c.nanos - resolution.nanos + step.nanos) c.nanos step.nanos).flatMap fun g =>
    Timeline.contributing (g - step.nanos) g ds.heartbeat.nanos (notesOf ds.source rows)
      (rows.map (·.timestamp.nanos))

/-- What is attached to a datasource's measurement in a bucket, and in the row exported from it, is
the merge of the notes that the bucket takes. The very first note of the metric is not among them,
nor is one from before the bucket, and one from behind it is carried over to the bucket's end. -/
structure Datasource.Attached (ds : Datasource) (d : Descriptor) (resolution : Duration)
    (rows : List (Row Value)) (bucket row : Row Float) : Prop where
  merged : ∃ m, bucket.get? ds.label = some m ∧
    (ds.label ∈ d.exports → row.get? ds.label = some m) ∧
    Attributes.Merged
      ((ds.contributions d.step resolution rows bucket.timestamp).map (·.attributes)) m.attributes
  taken : ∀ n ∈ ds.contributions d.step resolution rows bucket.timestamp,
    n ∈ (notesOf ds.source rows).tail ∧ bucket.timestamp.nanos - resolution.nanos < n.nanos ∧
      (bucket.timestamp.nanos < n.nanos →
        Timeline.carried? bucket.timestamp.nanos ds.heartbeat.nanos (notesOf ds.source rows)
          (rows.map (·.timestamp.nanos)) = some n)

theorem Datasource.of_mem_contributions {ds : Datasource} {step resolution : Duration}
    {rows : List (Row Value)} {c : Timestamp} {n : Note} (hrows : ∀ row ∈ rows, row.Stamped)
    (hasc : Row.Ascending rows) (hstep : 0 < step.nanos)
    (hn : n ∈ ds.contributions step resolution rows c) :
    n ∈ (notesOf ds.source rows).tail ∧ c.nanos - resolution.nanos < n.nanos ∧
      (c.nanos < n.nanos →
        Timeline.carried? c.nanos ds.heartbeat.nanos (notesOf ds.source rows)
          (rows.map (·.timestamp.nanos)) = some n) := by
  obtain ⟨g, hg, hn⟩ := List.mem_flatMap.1 hn
  obtain ⟨hlo, hhi, -⟩ := (mem_spaced hstep).1 hg
  have hsorted := pairwise_notesOf ds.source hrows hasc
  obtain ⟨htail, hlt, hcarried⟩ := Timeline.of_mem_contributing hsorted (by omega) hn
  refine ⟨htail, by omega, fun hc => ?_⟩
  exact Timeline.carried?_of_le hsorted (hcarried (by omega)) hhi hc

/-! ## Rates -/

namespace Feed

variable {policy : CounterWrap} {tracked : List Tracked} {t : Tracked} {rows : List (Row Value)}
  {metrics : List String} {metric : String}

theorem ofSample_rated (policy : CounterWrap) (s : Sample) (previous : Option Sighting) :
    Note.ofSample (rated policy s previous) = .ofSample s := by
  unfold rated
  split <;> rfl

/-- The induction runs over the rows, whatever has been seen of the metrics before them. -/
theorem notesOf_scanned (h : (tracked.map (·.metric)).Nodup) (ht : t ∈ tracked) :
    notesOf t.metric (scanned (rateRow policy) tracked rows) = notesOf t.metric rows := by
  induction rows generalizing tracked t with
  | nil => rfl
  | cons row rest ih =>
    have hnodup : ((tracked.map (·.see row.readings)).map (·.metric)).Nodup := by
      simpa [Function.comp_def] using h
    have hrest := ih hnodup (List.mem_map_of_mem ht)
    rw [Tracked.metric_see] at hrest
    have hfirst : (t.rate? policy row.readings).map Note.ofSample =
        (row.get? t.metric).map Note.ofSample := by
      rw [Tracked.rate?, Option.map_map]
      exact congrArg (Option.map · _) (funext fun s => ofSample_rated policy s t.last)
    rw [scanned, notesOf_cons, get?_rateRow h ht, rateRow_eq h, hrest, hfirst, notesOf_cons]

/-- Rates change values only. -/
theorem notesOf_ratedRows (h : metrics.Nodup) (hm : metric ∈ metrics) :
    notesOf metric (ratedRows policy metrics rows) = notesOf metric rows := by
  have hnodup : ((metrics.map fun m => (⟨m, none⟩ : Tracked)).map (·.metric)).Nodup := by
    simpa [Function.comp_def] using h
  exact notesOf_scanned (t := ⟨metric, none⟩) hnodup (List.mem_map_of_mem hm)

theorem nanos_ratedRows (policy : CounterWrap) (metrics : List String) (rows : List (Row Value)) :
    (ratedRows policy metrics rows).map (·.timestamp.nanos) = rows.map (·.timestamp.nanos) := by
  have hsame := congrArg (List.map Timestamp.nanos)
    (timestamp_scanned (timestamp_rateRow policy) (metrics.map (⟨·, none⟩)) rows)
  rwa [List.map_map, List.map_map] at hsame

end Feed

/-! ## Buckets -/

namespace Query

variable {q : Query} {samples : List (Row Value)} {points : List (Row Float)} {ds : Datasource}

/-- The point at the end of a primary bucket shows the merge of what that bucket takes. -/
theorem merged_point (hfits : q.Fits) (hd : q.descriptor.WellFormed)
    (hrows : ∀ row ∈ samples, row.Stamped) (hasc : Row.Ascending samples)
    (hds : ds ∈ q.descriptor.datasources)
    (hhorizons : ∀ n ∈ notesOf ds.source samples, n.timestamp.AddFits ds.heartbeat)
    (h : q.points (.ofRows samples) = .ofRows points) {p : Row Float} (hp : p ∈ points) :
    ∃ m, p.get? ds.label = some m ∧ Attributes.Merged
      ((Timeline.contributing (p.timestamp.nanos - q.descriptor.step.nanos) p.timestamp.nanos
        ds.heartbeat.nanos (notesOf ds.source samples)
        (samples.map (·.timestamp.nanos))).map (·.attributes)) m.attributes := by
  rw [points_eq_pointAt hfits hd hrows h] at hp
  obtain ⟨c, hc, rfl⟩ := List.mem_map.1 hp
  have hsource : ds.source ∈ q.descriptor.sources :=
    List.mem_eraseDups.2 (List.mem_map_of_mem hds)
  have hnotes : notesOf ds.source
        (Feed.ratedRows q.counterWrap q.descriptor.sources samples) = notesOf ds.source samples :=
    Feed.notesOf_ratedRows (nodup_eraseDups _) hsource
  have hfloor : (c - q.descriptor.step).nanos = c.nanos - q.descriptor.step.nanos :=
    Timestamp.nanos_sub (hfits.points.floors c hc)
  refine ⟨_, Descriptor.get?_pointAt hd.datasources_nodup hds _ _ c, ?_⟩
  rw [Descriptor.timestamp_pointAt, ← hfloor, ← hnotes,
    ← Feed.nanos_ratedRows q.counterWrap q.descriptor.sources samples]
  exact Track.merged_close (Feed.stamped_ratedRows hrows) (Feed.ascending_ratedRows hasc)
    (hnotes ▸ hhorizons) (c - q.descriptor.step) c

/-- A bucket shows the merge of what its points take, one point after the other. -/
theorem merged_bucket (hfits : q.Fits) (haligned : q.Aligned) (hd : q.descriptor.WellFormed)
    (hmultiple : q.resolution.isMultipleOf q.descriptor.step = true)
    (hrows : ∀ row ∈ samples, row.Stamped) (hasc : Row.Ascending samples)
    (hds : ds ∈ q.descriptor.datasources)
    (hhorizons : ∀ n ∈ notesOf ds.source samples, n.timestamp.AddFits ds.heartbeat)
    (h : q.points (.ofRows samples) = .ofRows points) {c : Timestamp}
    (hc : c ∈ (Lattice.covering q.start q.finish q.resolution).toList) :
    ∃ m, (q.descriptor.consolidated q.resource (q.resolution.ratio q.descriptor.step)
        (Row.window q.resolution c points) c).get? ds.label = some m ∧
      Attributes.Merged ((ds.contributions q.descriptor.step q.resolution samples c).map
        (·.attributes)) m.attributes := by
  refine ⟨_, Descriptor.get?_consolidated hd.datasources_nodup hds _ _ _ c, ?_⟩
  have hwindow := nanos_window_aligned hfits haligned hd hmultiple h hc
  have hgroups : List.Forall₂
      (fun g p => Attributes.Merged ((Timeline.contributing (g - q.descriptor.step.nanos) g
          ds.heartbeat.nanos (notesOf ds.source samples)
          (samples.map (·.timestamp.nanos))).map (·.attributes))
        ((p.get? ds.label).bind (·.attributes)))
      (spaced (c.nanos - q.resolution.nanos + q.descriptor.step.nanos) c.nanos
        q.descriptor.step.nanos)
      (Row.window q.resolution c points) := by
    refine forall₂_of_map_eq ((List.map_id _).trans hwindow.symm) fun g _ p hp hg => ?_
    obtain ⟨m, hm, hmerged⟩ :=
      merged_point hfits hd hrows hasc hds hhorizons h (Row.window_subset hp)
    obtain rfl : g = p.timestamp.nanos := hg
    rw [hm]
    exact hmerged
  rw [Datasource.contributions, List.map_flatMap, List.flatMap_def]
  have hmerged := Attributes.Merged.nil.flatten
    (List.forall₂_map_left_iff.2 (List.forall₂_map_right_iff.2 hgroups))
  rw [List.nil_append] at hmerged
  show Attributes.Merged _ (Bucket.addAll ⟨ds, [], none⟩ _).attributes
  rw [Bucket.addAll_eq]
  exact hmerged

end Query

/-! ## Exports -/

theorem Feed.get?_exportRow {row : Row Float} {label : String} {exports : List String}
    (hexports : exports.Nodup) (hlabel : label ∈ exports) (hknown : label ∈ row.names) :
    (exportRow exports row).get? label = row.get? label := by
  obtain ⟨m, hm⟩ := Row.exists_get? hknown
  rw [hm, (projects_exportRow exports row).present label m
    (List.count_eq_one_of_mem hexports hlabel) hm]

/-- Neither calculations nor exports touch the measurements of datasources. -/
theorem Descriptor.get?_of_rowOf {d : Descriptor} {ds : Datasource} {resource : String}
    {resolution : Duration} {points : List (Row Float)} {c : Timestamp} {row : Row Float}
    (hd : d.WellFormed) (hds : ds ∈ d.datasources) (hexport : ds.label ∈ d.exports)
    (hrow : d.rowOf resource resolution points c = .ok row) :
    row.get? ds.label =
      (d.consolidated resource (resolution.ratio d.step) points c).get? ds.label := by
  obtain ⟨up, hup, rfl⟩ := exists_of_rowOf hrow
  have hshaped := consolidated_shaped hd.datasources_nodup resource (resolution.ratio d.step)
    points c
  have hknown : d.datasources.map (·.label) ⊆
      (d.consolidated resource (resolution.ratio d.step) points c).names := by
    rw [hshaped.names_eq]
    exact List.Subset.refl _
  obtain ⟨up', hup', hextends⟩ := Calculation.foldlM_extend hknown hd.in_order
  obtain ⟨up'', hup'', hshaped'⟩ :=
    Calculation.foldlM_extend_shaped hshaped hd.in_order hd.labels_nodup
  obtain rfl := Except.ok.inj (hup.symm.trans hup')
  obtain rfl := Except.ok.inj (hup.symm.trans hup'')
  rw [Feed.get?_exportRow hd.exports_nodup hexport
    (hshaped'.names_eq ▸ hd.exports_defined hexport)]
  refine hextends.kept ds.label fun hmem => ?_
  exact (List.nodup_append.1 hd.labels_nodup).2.2 _ (List.mem_map_of_mem hds) _ hmem rfl

namespace Query

variable {q : Query} {resource : String} {start finish : Timestamp} {resolution : Duration}
  {d : Descriptor} {policy : CounterWrap} {samples : List (Row Value)}

/-- The buckets of the samples, before anything is calculated from them. -/
def buckets (q : Query) (samples : Feed Value) : Feed Float :=
  (q.points samples).buckets q.descriptor q.resource q.start q.finish q.resolution

/-- Each bucket of an aligned query, and each row that is exported from it, shows the merge of just
the notes that it takes. -/
theorem process_attached {draft : Draft} (hd : draft.build = .ok d)
    (hq : check resource start finish resolution d policy = .ok q) (haligned : q.Aligned)
    (hfits : q.Fits) (hrows : ∀ row ∈ samples, row.Stamped) (hasc : Row.Ascending samples)
    (hhorizons : ∀ ds ∈ d.datasources, ∀ n ∈ notesOf ds.source samples,
      n.timestamp.AddFits ds.heartbeat) :
    ∃ buckets out,
      q.buckets (.ofRows samples) = .ofRows buckets ∧
      q.process (.ofRows samples) = .ok out ∧
      out.map (·.timestamp.nanos) = spaced start.nanos finish.nanos resolution.nanos ∧
      List.Forall₂ (fun bucket row => row.timestamp = bucket.timestamp ∧
        ∀ ds ∈ d.datasources, ds.Attached d resolution samples bucket row) buckets out := by
  obtain ⟨-, hmultiple, rfl⟩ := check_ok hq
  have hwf := Draft.wellFormed_of_build hd
  have hres := Duration.pos_of_isMultipleOf hmultiple
  obtain ⟨points, hpoints⟩ :=
    exists_points ⟨resource, start, finish, resolution, d, policy⟩ samples
  obtain ⟨out, hprocess, hmade⟩ := process_window hwf hres hfits hpoints
  have hbuckets := Feed.buckets_eq_window (d := d) resource hfits.buckets hres hfits.first
    (ascending_points hwf hfits hpoints)
  refine ⟨_, out, by rw [buckets, hpoints, hbuckets], hprocess, ?_, ?_⟩
  · have hinstants : (Lattice.covering start finish resolution).toList.map (·.nanos) =
        out.map (·.timestamp.nanos) :=
      map_eq_iff_forall₂.2 (hmade.imp fun c row hrow => congrArg Timestamp.nanos hrow.1.symm)
    rw [← hinstants, hfits.buckets.nanos_toList hres, floorTo_of_dvd haligned.start,
      ceilTo_of_dvd haligned.finish]
  · have hall := (List.forall₂_and_left _ _).2 ⟨fun c hc => hc, hmade⟩
    refine List.forall₂_map_left_iff.2 (hall.imp ?_)
    rintro c row ⟨hc, rfl, hrow⟩
    have hstamp : (d.consolidated resource (resolution.ratio d.step)
        (Row.window resolution row.timestamp points) row.timestamp).timestamp = row.timestamp :=
      Row.timestamp_insertAll
    refine ⟨hstamp.symm, fun ds hds => ⟨?_, ?_⟩⟩
    · rw [hstamp]
      obtain ⟨m, hm, hmerged⟩ := merged_bucket hfits haligned hwf hmultiple hrows hasc hds
        (hhorizons ds hds) hpoints hc
      refine ⟨m, hm, fun hexport => ?_, hmerged⟩
      rw [Descriptor.get?_of_rowOf hwf hds hexport hrow]
      exact hm
    · rw [hstamp]
      exact fun n hn => Datasource.of_mem_contributions hrows hasc hwf.step_pos hn

/-- Three samples of a metric with labels attached, the last of them after a gap of four seconds. -/
def labelledRows : List (Row Value) :=
  [(0, [("zone", "a")]), (2, [("rack", "1"), ("zone", "b")]), (6, [("zone", "c")])].map
    fun (n, l) => (Row.empty (.ofTicks n .seconds) "host").insert
      { timestamp := .ofTicks n .seconds
        resource := "host"
        name := "cpu"
        value := .gauge 1
        attributes := some (.ofList l) }

/-- The first bucket already shows the text of the third sample, which is carried over to its end.
-/
theorem process_attached_labelled :
    Draft.load.build = .ok .load ∧
    check "host" (.ofTicks 4 .seconds) (.ofTicks 8 .seconds) (.ofTicks 4 .seconds) .load .wrap =
      .ok (.load 4 8) ∧
    (load 4 8).Aligned ∧ (load 4 8).Fits ∧
    (∀ row ∈ labelledRows, row.Stamped) ∧ Row.Ascending labelledRows ∧
    ∃ bucket rest m,
      (load 4 8).buckets (.ofRows labelledRows) = .ofRows (bucket :: rest) ∧
      bucket.get? "load" = some m ∧
      m.attributes = some (.ofList [("rack", "1"), ("zone", "c")]) := by
  have hq : check "host" (.ofTicks 4 .seconds) (.ofTicks 8 .seconds) (.ofTicks 4 .seconds) .load
      .wrap = .ok (.load 4 8) := rfl
  have haligned : (load 4 8).Aligned := ⟨by decide, by decide⟩
  have hfits : (load 4 8).Fits := ⟨by decide, by decide, by decide, by decide, by decide⟩
  have hrows : ∀ row ∈ labelledRows, row.Stamped := by decide
  have hasc : Row.Ascending labelledRows := by decide
  have hhorizons : ∀ ds ∈ Descriptor.load.datasources, ∀ n ∈ notesOf ds.source labelledRows,
      n.timestamp.AddFits ds.heartbeat := by decide
  obtain ⟨buckets, out, hbuckets, -, hinstants, hattached⟩ :=
    process_attached Draft.build_load hq haligned hfits hrows hasc hhorizons
  refine ⟨Draft.build_load, hq, haligned, hfits, hrows, hasc, ?_⟩
  have hspaced : spaced (Timestamp.ofTicks 4 .seconds).nanos (Timestamp.ofTicks 8 .seconds).nanos
      (Duration.ofTicks 4 .seconds).nanos = [4000000000, 8000000000] := by decide
  rw [hspaced] at hinstants
  obtain ⟨row, _, rfl, hrow, -⟩ := List.map_eq_cons_iff.1 hinstants
  obtain ⟨bucket, rest, ⟨hsame, hds⟩, -, rfl⟩ := List.forall₂_cons_right_iff.1 hattached
  obtain ⟨⟨m, hm, -, hmerged⟩, -⟩ := hds _ List.mem_cons_self
  refine ⟨bucket, rest, m, hbuckets, hm, ?_⟩
  -- the primary buckets that end with 1 s and 2 s take the second sample, the others the third
  rw [Datasource.contributions, ← hsame, hrow] at hmerged
  exact (hmerged.unique (Attributes.Merged.nil.foldl _)).trans (by decide +kernel)

end Query

end Telemetry
