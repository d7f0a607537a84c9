import Telemetry.Proofs.Points.Closings

/-!
# Each point by itself

Where samples carry the timestamp of their row, a bucket needs nothing of the buckets before it but
when each metric was sampled last, and a walk that begins with the bucket finds that out by itself:
rows that are not later than the bucket's floor credit nothing to it. So the point at an instant is
the same in every walk that comes by, and `Descriptor.pointAt` is that point.
-/

namespace Telemetry

/-- The point at an instant, made by a walk that begins there. -/
def Descriptor.pointAt (d : Descriptor) (resource : String) (rows : List (Row Value))
    (ceiling : Timestamp) : Row Float :=
  pointOf resource ceiling (d.tracks.map (·.close (ceiling - d.step) ceiling rows))

/-- The bucket behind that point. -/
def Descriptor.closingAt (d : Descriptor) (rows : List (Row Value)) (ceiling : Timestamp) :
    Closing :=
  ⟨ceiling, d.tracks.map (·.close (ceiling - d.step) ceiling rows)⟩

@[simp] theorem Descriptor.timestamp_pointAt (d : Descriptor) (resource : String)
    (rows : List (Row Value)) (c : Timestamp) : (d.pointAt resource rows c).timestamp = c :=
  Row.timestamp_insertAll

namespace Coverage

variable {c : Coverage} {floor : Timestamp} {heartbeat : Duration} {s : Sample}

theorem last_advance : (c.advance floor heartbeat s).last = some s.timestamp := by
  unfold advance
  split <;> rfl

theorem reset_credit (c : Coverage) (millis : Int) (known : Bool) (x : Float) :
    (c.credit millis known x).reset = c.reset := by
  unfold credit
  split <;> rfl

/-- A sample that is not later than the floor credits nothing. -/
theorem advance_of_le (hle : s.timestamp ≤ floor) :
    c.advance floor heartbeat s = { c with last := some s.timestamp } := by
  unfold advance
  split
  · rfl
  · rename_i last hlast
    have hlater : ¬ last.later floor < s.timestamp := by
      rw [Timestamp.le_iff] at hle
      rw [Timestamp.lt_iff, Timestamp.nanos_later]
      omega
    have hfloor : ¬ floor < s.timestamp := by
      rw [Timestamp.le_iff] at hle
      rw [Timestamp.lt_iff]
      omega
    simp only [if_neg hlater, if_neg hfloor]

end Coverage

namespace Track

variable {t u : Track} {floor floor' ceiling p : Timestamp} {rows : List (Row Value)}
  {row : Row Value}

theorem advance_of_get? {s : Sample} (hs : row.get? t.datasource.source = some s) :
    t.advance floor row =
      { t with coverage := t.coverage.advance floor t.datasource.heartbeat s } := by
  rw [advance, hs]

theorem advance_of_none (hs : row.get? t.datasource.source = none) : t.advance floor row = t := by
  rw [advance, hs]

theorem datasource_absorb : (t.absorb floor rows).datasource = t.datasource := by
  induction rows generalizing t with
  | nil => rfl
  | cons row rest ih =>
    rw [absorb_cons, ih]
    unfold advance
    split <;> rfl

theorem datasource_complete : (t.complete floor ceiling rows).datasource = t.datasource := by
  unfold complete
  split
  · rfl
  · split
    · rfl
    · unfold Resampling.carry
      dsimp only
      split <;> rfl

@[simp] theorem datasource_close : (t.close floor ceiling rows).datasource = t.datasource := by
  rw [close, datasource_complete, datasource_absorb]

theorem absorb_append (t : Track) (floor : Timestamp) (rows more : List (Row Value)) :
    t.absorb floor (rows ++ more) = (t.absorb floor rows).absorb floor more :=
  List.foldl_append

/-- What is left of a row at the end of its bucket does not depend on the bucket. -/
theorem reset_advance (h : t.reset = u.reset) :
    (t.advance floor row).reset = (u.advance floor' row).reset := by
  have hds : t.datasource = u.datasource := by injection h
  cases hs : row.get? t.datasource.source with
  | none => rw [advance_of_none hs, advance_of_none (hds ▸ hs), h]
  | some s =>
    rw [advance_of_get? hs, advance_of_get? (hds ▸ hs)]
    simp only [reset, Coverage.reset, Coverage.last_advance, hds]

theorem reset_absorb (h : t.reset = u.reset) (floor floor' : Timestamp)
    (rows : List (Row Value)) : (t.absorb floor rows).reset = (u.absorb floor' rows).reset := by
  induction rows generalizing t u with
  | nil => exact h
  | cons row rest ih => exact ih (reset_advance h)

/-- Rows that are not later than the floor leave nothing but when the last sample was taken. -/
theorem reset_absorb_of_le (ht : t.reset = t) (hrows : ∀ row ∈ rows, row.Stamped)
    (hle : ∀ row ∈ rows, row.timestamp ≤ floor) :
    (t.absorb floor rows).reset = t.absorb floor rows := by
  induction rows generalizing t with
  | nil => exact ht
  | cons row rest ih =>
    apply ih
    case hrows => exact fun row hrow => hrows row (List.mem_cons_of_mem _ hrow)
    case hle => exact fun row hrow => hle row (List.mem_cons_of_mem _ hrow)
    dsimp only
    cases hs : row.get? t.datasource.source with
    | none => rw [advance_of_none hs, ht]
    | some s =>
      have hstamp := hrows row List.mem_cons_self s (Row.mem_of_get? hs)
      have hrow := hle row List.mem_cons_self
      have hsample : s.timestamp ≤ floor := by
        rw [Timestamp.le_iff] at hrow ⊢
        omega
      have hcov : t.coverage.reset = t.coverage := congrArg coverage ht
      rw [advance_of_get? hs, Coverage.advance_of_le hsample, ← hcov]
      rfl

theorem reset_complete : (t.complete floor ceiling rows).reset = t.reset := by
  unfold complete
  split
  · rfl
  · split
    · rfl
    · unfold Resampling.carry
      dsimp only
      split
      · exact congrArg (Track.mk t.datasource) (Coverage.reset_credit t.coverage _ _ _)
      · exact congrArg (Track.mk t.datasource) (Coverage.reset_credit t.coverage _ _ _)
      · rfl

/-- After a bucket, a track is as if it had only begun with the floor of the next one. -/
theorem reset_close (ht : t.reset = t) (hrows : ∀ row ∈ rows, row.Stamped)
    (hle : ceiling ≤ floor') :
    (t.close floor ceiling rows).reset = t.absorb floor' (Row.upTo ceiling rows) := by
  rw [close, reset_complete, reset_absorb rfl floor floor']
  apply reset_absorb_of_le ht
  · intro row hrow
    exact hrows row (Row.upTo_subset _ _ hrow)
  · intro row hrow
    have := Row.le_of_mem_upTo hrow
    rw [Timestamp.le_iff] at this hle ⊢
    omega

theorem close_absorb (hp : p ≤ ceiling) :
    (t.absorb floor (Row.upTo p rows)).close floor ceiling (Row.after p rows) =
      t.close floor ceiling rows := by
  rw [close, close, ← absorb_append, ← Row.upTo_of_le hp, ← Row.after_of_le hp]

end Track

/-- One instant of a walk follows another when its bucket does not begin before it. -/
def Follows (step : Duration) (p c : Timestamp) : Prop := p ≤ c ∧ p ≤ c - step

/-- The induction runs over the instants of the walk; before each of them, the tracks have been
left behind by the instant before. -/
theorem closeAll_of_follows {step : Duration} {p : Timestamp} {cs : List Timestamp}
    {tracks : List Track} {rows : List (Row Value)} (hcs : (p :: cs).IsChain (Follows step))
    (htracks : ∀ t ∈ tracks, t.reset = t) (hrows : ∀ row ∈ rows, row.Stamped) :
    closeAll step cs (tracks.map fun t => (t.close (p - step) p rows).reset) (Row.after p rows) =
      cs.map fun c => ⟨c, tracks.map (·.close (c - step) c rows)⟩ := by
  induction cs generalizing p with
  | nil => rfl
  | cons c rest ih =>
    obtain ⟨⟨hpc, hfloor⟩, hrest⟩ := List.isChain_cons_cons.1 hcs
    have hclosed : (tracks.map fun t => (t.close (p - step) p rows).reset).map
        (·.close (c - step) c (Row.after p rows)) = tracks.map (·.close (c - step) c rows) := by
      rw [List.map_map]
      apply List.map_congr_left
      intro t ht
      rw [Function.comp_apply, Track.reset_close (htracks t ht) hrows hfloor,
        Track.close_absorb hpc]
    have hreset := ih hrest
    rw [Row.after_of_le hpc] at hreset
    rw [closeAll, hclosed, List.map_map, List.map_cons]
    exact congrArg (_ :: ·) hreset

theorem WalkFits.follows {start finish : Timestamp} {step : Duration}
    (h : WalkFits start finish step) (hd : 0 < step.nanos) :
    (Lattice.covering start finish step).toList.IsChain (Follows step) := by
  apply (h.isChain hd).imp_of_mem_tail_imp
  intro p c _ hc hnext
  have hfloor := Timestamp.nanos_sub (h.floors c (List.mem_of_mem_tail hc))
  rw [Follows, Timestamp.le_iff, Timestamp.le_iff]
  omega

theorem Descriptor.reset_tracks {d : Descriptor} : ∀ t ∈ d.tracks, t.reset = t := by
  intro t ht
  obtain ⟨ds, -, rfl⟩ := List.mem_map.1 ht
  rfl

/-- A point holds one measurement of each datasource. -/
theorem Descriptor.readings_pointAt {d : Descriptor} (hd : (d.datasources.map (·.label)).Nodup)
    (resource : String) (rows : List (Row Value)) (c : Timestamp) :
    (d.pointAt resource rows c).readings =
      d.tracks.map fun t => (t.close (c - d.step) c rows).measurement resource c := by
  rw [pointAt, pointOf, Row.readings_insertAll_empty, List.map_map]
  · rfl
  · simpa [Descriptor.tracks, Track.measurement, Function.comp_def] using hd

theorem Descriptor.get?_pointAt {d : Descriptor} {ds : Datasource}
    (hd : (d.datasources.map (·.label)).Nodup) (hds : ds ∈ d.datasources) (resource : String)
    (rows : List (Row Value)) (c : Timestamp) :
    (d.pointAt resource rows c).get? ds.label =
      some (((⟨ds, {}⟩ : Track).close (c - d.step) c rows).measurement resource c) := by
  let m := ((⟨ds, {}⟩ : Track).close (c - d.step) c rows).measurement resource c
  have hmem : m ∈ (d.pointAt resource rows c).readings := by
    rw [readings_pointAt hd]
    exact List.mem_map_of_mem (f := fun t : Track =>
      (t.close (c - d.step) c rows).measurement resource c) (List.mem_map_of_mem hds)
  have hname : m.name = ds.label := congrArg Datasource.label Track.datasource_close
  rw [← hname]
  exact Row.get?_name hmem

theorem Descriptor.coverage?_closingAt {d : Descriptor} {ds : Datasource}
    (hd : (d.datasources.map (·.label)).Nodup) (hds : ds ∈ d.datasources)
    (rows : List (Row Value)) (c : Timestamp) :
    (d.closingAt rows c).coverage? ds.label =
      some ((⟨ds, {}⟩ : Track).close (c - d.step) c rows).coverage := by
  have hnodup : ((d.closingAt rows c).tracks.map (·.datasource.label)).Nodup := by
    simpa [closingAt, Descriptor.tracks, Function.comp_def] using hd
  have hmem : (⟨ds, {}⟩ : Track).close (c - d.step) c rows ∈ (d.closingAt rows c).tracks :=
    List.mem_map_of_mem (List.mem_map_of_mem hds)
  have hfind := Row.find?_key (·.datasource.label) hnodup hmem
  rw [Track.datasource_close] at hfind
  rw [Closing.coverage?, hfind, Option.map_some]

/-- Along a walk whose instants follow each other, each bucket is closed by itself. -/
theorem Feed.closings_eq_map {d : Descriptor} {start finish : Timestamp}
    {rows : List (Row Value)} (resource : String) (hrows : ∀ row ∈ rows, row.Stamped)
    (hcs : (Lattice.covering start finish d.step).toList.IsChain (Follows d.step)) :
    Feed.closings d resource start finish (.ofRows rows) =
      (Lattice.covering start finish d.step).toList.map (d.closingAt rows) := by
  rw [Feed.closings_ofRows]
  cases hlist : (Lattice.covering start finish d.step).toList with
  | nil => rfl
  | cons c rest =>
    rw [hlist] at hcs
    have hrest := closeAll_of_follows hcs d.reset_tracks hrows
    rw [closeAll, List.map_map, List.map_cons]
    exact congrArg (_ :: ·) hrest

/-- Along a walk whose instants follow each other, each point is made by itself. -/
theorem Feed.points_eq_pointAt {d : Descriptor} {start finish : Timestamp}
    {rows : List (Row Value)} (resource : String) (hrows : ∀ row ∈ rows, row.Stamped)
    (hcs : (Lattice.covering start finish d.step).toList.IsChain (Follows d.step)) :
    Feed.points d resource start finish (.ofRows rows) =
      .ofRows ((Lattice.covering start finish d.step).toList.map (d.pointAt resource rows)) := by
  rw [Feed.points_eq_closings, Feed.closings_eq_map resource hrows hcs, List.map_map]
  rfl

end Telemetry
