import Telemetry.Proofs.Buckets.Single
import Telemetry.Proofs.Number.Magnitude
import Telemetry.Proofs.Query.Slicing
import Telemetry.Proofs.Query.Unrequested

/-!
# A resolution of one step

Where the resolution is the step and nothing is calculated, a query gives back the primary points in
the shape of the exports. The first point, which lies one step before the first bucket, is left out.
Each bucket holds one point, and its value is the value of that point as long as one point exceeds
the xff. With an xff of one it does not, so that all values are unknown.
-/

namespace Telemetry

/-- What the bucket of a single point makes of its value `x` under a label. -/
def Descriptor.Repeats (d : Descriptor) (label : String) (x y : Float) : Prop :=
  ∃ ds ∈ d.datasources, ds.label = label ∧ ds.Repeats x y

/-- Both measurements show the same, with values that `R` relates. -/
structure Reading.Like (R : String → Float → Float → Prop) (p m : Measurement) : Prop where
  timestamp : p.timestamp.nanos = m.timestamp.nanos
  resource : p.resource = m.resource
  name : p.name = m.name
  attributes : p.attributes = m.attributes
  value : R p.name p.value m.value

/-- Both rows show the same, with values that `R` relates. -/
structure Row.Like (R : String → Float → Float → Prop) (p row : Row Float) : Prop where
  timestamp : p.timestamp.nanos = row.timestamp.nanos
  resource : p.resource = row.resource
  readings : List.Forall₂ (Reading.Like R) p.readings row.readings

/-- A run returns the points but for the first one, in the shape of the exports, with values that
`R` relates to those of the points. -/
def Query.PassesPoints (q : Query) (n : Nat) (R : String → Float → Float → Prop)
    (samples : List (Row Value)) : Prop :=
  ∃ points out,
    q.points (.ofRows samples) = .ofRows points ∧
    q.run n (.ofRows samples) = .ok out ∧
    List.Forall₂ (fun p row => Row.Like R (Feed.exportRow q.descriptor.exports p) row)
      points.tail out

/-! ## One point -/

theorem Duration.ratio_eq_one {a b : Duration} (h : a.RatioFits b) (hpos : 0 < b.nanos)
    (hsame : a.nanos = b.nanos) : a.ratio b = 1 := by
  obtain ⟨u, hu⟩ : ∃ u, a.commonUnit b = u := ⟨_, rfl⟩
  have hunit := u.nanos_pos
  have ha : a.ticksIn u * u.nanos = a.nanos :=
    ticksIn_mul_nanos (hu ▸ TimeUnit.nanos_finest_le_left _ _) (hu ▸ h.1)
  have hb : b.ticksIn u * u.nanos = b.nanos :=
    ticksIn_mul_nanos (hu ▸ TimeUnit.nanos_finest_le_right _ _) (hu ▸ h.2)
  have hticks : a.ticksIn u = b.ticksIn u := mul_right_cancel₀ hunit.ne' (by rw [ha, hb, hsame])
  have hle : b.ticksIn u ≤ maxTicks := by
    refine le_of_mul_le_mul_right ?_ hunit
    rw [hb, ← hu]
    exact h.2.2
  have hticks_pos : 0 < b.ticksIn u := pos_of_mul_pos_left (hb ▸ hpos) hunit.le
  obtain ⟨m, e, hcanonical, hfinite, -⟩ := Number.within_ofInt hticks_pos hle
  rw [ratio, hu, hticks]
  exact Number.div_self_of_finite hfinite

section Points

variable {resource : String} {tracks : List Track} {rows : List (Row Value)}

theorem shaped_pointOf (resource : String) (ceiling : Timestamp)
    (h : (tracks.map (·.datasource.label)).Nodup) :
    (pointOf resource ceiling tracks).Shaped resource ceiling
      (tracks.map (·.datasource.label)) := by
  refine Row.shaped_insertAll_empty ?_ h ?_
  · simp [Track.measurement]
  · simp [Track.measurement]

/-- The induction runs over the instants; closing and resetting keep the datasources. -/
theorem shaped_pointRows (resource : String) (step : Duration) (cs : List Timestamp)
    (rows : List (Row Value)) (h : (tracks.map (·.datasource.label)).Nodup) :
    ∀ p ∈ pointRows resource step cs tracks rows,
      p.Shaped resource p.timestamp (tracks.map (·.datasource.label)) := by
  induction cs generalizing tracks rows with
  | nil => simp [pointRows]
  | cons c rest ih =>
    let next (t : Track) : Track := t.close (c - step) c rows
    have hclosed : (tracks.map next).map (·.datasource.label) =
        tracks.map (·.datasource.label) := by
      simp [next, Function.comp_def]
    have hreset : ((tracks.map next).map Track.reset).map (·.datasource.label) =
        tracks.map (·.datasource.label) := by
      simp [next, Track.reset, Function.comp_def]
    intro p hp
    rcases List.mem_cons.1 hp with rfl | hmem
    · have hshaped := shaped_pointOf resource c (hclosed ▸ h)
      rw [hclosed] at hshaped
      rwa [hshaped.timestamp_eq]
    · rw [← hreset]
      exact ih _ (hreset ▸ h) p hmem

end Points

section Rows

variable {d : Descriptor} {resource : String} {resolution : Duration} {c : Timestamp}
  {p row : Row Float}

/-- Each measurement of a bucket of one point is made of the point's measurement under the same
label. -/
theorem like_of_consolidated (hxff : ∀ ds ∈ d.datasources, 0 ≤ ds.xff)
    (hp : ∀ m ∈ p.readings, m.timestamp.nanos = c.nanos ∧ m.resource = resource)
    {m m' : Measurement} (hm : m ∈ p.readings)
    (hm' : m' ∈ (d.consolidated resource 1 [p] c).readings) (hname : m.name = m'.name) :
    Reading.Like d.Repeats m m' := by
  rcases Row.mem_insertAll hm' with hmem | hmem
  · obtain ⟨b, hb, rfl⟩ := List.mem_map.1 hmem
    obtain ⟨ds, hds, rfl⟩ := List.mem_map.1 hb
    have hlabel : m.name = ds.label := by simpa [Bucket.measurement] using hname
    have hbucket : (⟨ds, [], none⟩ : Bucket).addAll [p] = ⟨ds, [m.value], m.attributes⟩ :=
      Bucket.addAll_singleton (hlabel ▸ Row.get?_name hm)
    obtain ⟨htimestamp, hresource⟩ := hp m hm
    rw [hbucket]
    exact ⟨htimestamp, hresource, hlabel, rfl, ds, hds, hlabel.symm,
      Bucket.repeats_value m.attributes (hxff ds hds)⟩
  · cases hmem

theorem like_of_rowOf (hd : d.WellFormed) (hxff : ∀ ds ∈ d.datasources, 0 ≤ ds.xff)
    (hcalculations : d.calculations = []) (hratio : resolution.ratio d.step = 1)
    (hp : p.Shaped resource p.timestamp (d.datasources.map (·.label)))
    (hc : p.timestamp.nanos = c.nanos) (hrow : d.rowOf resource resolution [p] c = .ok row) :
    Row.Like d.Repeats (Feed.exportRow d.exports p) row := by
  obtain ⟨up, hup, rfl⟩ := Descriptor.exists_of_rowOf hrow
  rw [hcalculations, hratio] at hup
  obtain rfl := Except.ok.inj hup
  have hlabels : d.exports ⊆ d.datasources.map (·.label) := by
    have := hd.exports_defined
    rwa [Descriptor.labels, hcalculations, List.map_nil, List.append_nil] at this
  have hshaped := Descriptor.consolidated_shaped hd.datasources_nodup resource 1 [p] c
  obtain ⟨hpoint, hpoint_sub⟩ := Feed.exportRow_shaped hp hd.exports_nodup hlabels
  obtain ⟨hbucket, hbucket_sub⟩ := Feed.exportRow_shaped hshaped hd.exports_nodup hlabels
  refine ⟨?_, ?_, forall₂_of_map_eq (hpoint.names_eq.trans hbucket.names_eq.symm) ?_⟩
  · rw [hpoint.timestamp_eq, hbucket.timestamp_eq, hc]
  · rw [hpoint.resource_eq, hbucket.resource_eq]
  · intro m hm m' hm' hname
    refine like_of_consolidated hxff (fun r hr => ?_) (hpoint_sub hm) (hbucket_sub hm') hname
    obtain ⟨htimestamp, hresource⟩ := hp.stamped r hr
    exact ⟨by rw [htimestamp, hc], hresource⟩

end Rows

/-- `Draft.load` with an xff of one. -/
def Draft.strict : Draft :=
  { Draft.load with xff := 1 }

/-- What `Draft.strict` is built into. -/
def Descriptor.strict : Descriptor :=
  { Descriptor.load with
    datasources := [⟨"load", "cpu", .ofTicks 2 .seconds, 1, .average⟩] }

/-! ## Queries -/

namespace Query

variable {q : Query} {n : Nat} {samples : List (Row Value)} {points : List (Row Float)}

theorem shaped_points (hd : q.descriptor.WellFormed)
    (h : q.points (.ofRows samples) = .ofRows points) :
    ∀ p ∈ points, p.Shaped q.resource p.timestamp (q.descriptor.datasources.map (·.label)) := by
  have hlabels : q.descriptor.tracks.map (·.datasource.label) =
      q.descriptor.datasources.map (·.label) := by
    simp [Descriptor.tracks]
  rw [Query.points, Feed.rates_ofRows, Feed.points_ofRows, Feed.ofRows_inj] at h
  rw [← h, ← hlabels]
  exact shaped_pointRows _ _ _ _ (hlabels ▸ hd.datasources_nodup)

/-- The window of a bucket of one step holds one point. -/
theorem window_eq_singleton (hd : q.descriptor.WellFormed) (hfits : q.Fits)
    (hmultiple : q.resolution.isMultipleOf q.descriptor.step = true)
    (hstep : q.resolution.nanos = q.descriptor.step.nanos)
    (h : q.points (.ofRows samples) = .ofRows points) {p : Row Float} {c : Timestamp}
    (hp : p ∈ points) (hc : p.timestamp.nanos = c.nanos)
    (hle : floorTo q.start.nanos q.descriptor.step.nanos ≤ c.nanos) :
    Row.window q.resolution c points = [p] := by
  have hpos := hd.step_pos
  have hmem := List.mem_map_of_mem (f := (·.timestamp.nanos)) hp
  rw [nanos_points hd hfits hmultiple h, hc, mem_spaced hpos] at hmem
  obtain ⟨-, hlast, hdvd⟩ := hmem
  have hon : q.descriptor.step.nanos ∣ c.nanos := by
    refine (Int.dvd_iff_dvd_of_dvd_sub hdvd).2 (Int.dvd_sub dvd_floorTo ?_)
    rw [hstep]
  have hwindow := nanos_window hd hfits hmultiple h hon hlast
  rw [hstep, max_eq_right (by omega), sub_add_cancel, spaced_of_le hpos le_rfl,
    spaced_of_lt hpos (by omega)] at hwindow
  obtain ⟨p', hp'⟩ := List.length_eq_one_iff.1 (by simpa using congrArg List.length hwindow)
  have hpw : p ∈ Row.window q.resolution c points := by
    refine List.mem_filter.2 ⟨hp, decide_eq_true ?_⟩
    omega
  rw [hp'] at hpw ⊢
  rw [List.mem_singleton.1 hpw]

/-- All points but the first lie where the buckets end. -/
theorem nanos_tail_points (hd : q.descriptor.WellFormed) (hfits : q.Fits)
    (hmultiple : q.resolution.isMultipleOf q.descriptor.step = true)
    (hstep : q.resolution.nanos = q.descriptor.step.nanos) (hrange : q.start ≤ q.finish)
    (h : q.points (.ofRows samples) = .ofRows points) :
    points.tail.map (·.timestamp.nanos) =
      (Lattice.covering q.start q.finish q.resolution).toList.map (·.nanos) := by
  have hpos := hd.step_pos
  have hle : floorTo q.start.nanos q.descriptor.step.nanos ≤
      ceilTo q.finish.nanos q.descriptor.step.nanos :=
    (floorTo_le hpos).trans (hrange.trans (le_ceilTo hpos))
  rw [List.map_tail, nanos_points hd hfits hmultiple h, hfits.buckets.nanos_toList (hstep ▸ hpos),
    hstep, spaced_of_le hpos (by omega), sub_add_cancel]
  rfl

variable {resource : String} {start finish : Timestamp} {resolution : Duration} {d : Descriptor}
  {policy : CounterWrap}

/-- With a resolution of one step and no calculations, the points pass through the buckets, unless a
count overflows on the way. -/
theorem run_single_step {draft : Draft} (hd : draft.build = .ok d)
    (hcalculations : d.calculations = [])
    (hq : check resource start finish resolution d policy = .ok q)
    (hstep : resolution.nanos = d.step.nanos) (hfits : q.Fits) (hends : q.EndsWithin n)
    (samples : List (Row Value)) :
    q.run n (.ofRows samples) = .error (.abandoned .overflow) ∨
      q.PassesPoints n d.Repeats samples := by
  obtain ⟨hrange, hmultiple, rfl⟩ := check_ok hq
  have hwf := Draft.wellFormed_of_build hd
  have hpos := hwf.step_pos
  have hxff : ∀ ds ∈ d.datasources, 0 ≤ ds.xff := fun ds hds =>
    (Draft.admissible_of_build hd ds hds).nonneg
  have hratio := Duration.ratio_eq_one hfits.ratio hpos hstep
  obtain ⟨points, hpoints⟩ := exists_points _ samples
  obtain ⟨out, hprocess, hrows⟩ := process_window hwf (hstep ▸ hpos) hfits hpoints
  have hout : (Lattice.covering start finish resolution).toList.map (·.nanos) =
      out.map (·.timestamp.nanos) :=
    map_eq_iff_forall₂.2 (hrows.imp fun c row hrow => congrArg Timestamp.nanos hrow.1.symm)
  have htail := nanos_tail_points hwf hfits hmultiple hstep hrange hpoints
  refine (run_eq_process hwf (hstep ▸ hpos) hfits.points.toRangeFits hfits.buckets hends
    samples).imp_right fun hrun => ⟨points, out, hpoints, hrun.trans hprocess,
      forall₂_of_map_eq (htail.trans hout) ?_⟩
  intro p hp row hrow hsame
  obtain ⟨c, hc, htimestamp, hrow⟩ := exists_of_forall₂_mem hrows hrow
  have hp := List.mem_of_mem_tail hp
  have hfloor := (hfits.buckets.nanos_of_mem (hstep ▸ hpos) hc).1
  rw [htimestamp] at hsame
  rw [window_eq_singleton hwf hfits hmultiple hstep hpoints hp hsame (hstep ▸ hfloor)] at hrow
  exact like_of_rowOf hwf hxff hcalculations hratio (shaped_points hwf hpoints p hp) hsame hrow

theorem run_single_step_load :
    check "host" (.ofTicks 1 .seconds) (.ofTicks 1 .seconds) (.ofTicks 1 .seconds) .load .wrap =
      .ok firstSecond ∧
    firstSecond.Fits ∧
    firstSecond.EndsWithin 2 ∧
    firstSecond.PassesPoints 2 Descriptor.load.Repeats loadRows := by
  have hq : check "host" (.ofTicks 1 .seconds) (.ofTicks 1 .seconds) (.ofTicks 1 .seconds) .load
      .wrap = .ok firstSecond := rfl
  have hfits : firstSecond.Fits := ⟨by decide, by decide, by decide, by decide, by decide⟩
  have hends : firstSecond.EndsWithin 2 := by decide
  have hsome : (firstSecond.run 2 (.ofRows loadRows)).toOption.isSome = true := by decide +kernel
  refine ⟨hq, hfits, hends, ?_⟩
  rcases run_single_step Draft.build_load rfl hq rfl hfits hends loadRows with hover | hpasses
  · rw [hover] at hsome
    cases hsome
  · exact hpasses

/-- Which values of rows are unknown. -/
def unknowns (rows : List (Row Float)) : List (List Bool) :=
  rows.map fun row => row.readings.map (·.value.isNaN)

theorem unknowns_of_passesPoints (h : q.PassesPoints n (fun _ => SameNumber) samples) :
    (q.points (.ofRows samples)).collect.toOption.map (fun points =>
      unknowns (points.tail.map (Feed.exportRow q.descriptor.exports))) =
      (q.run n (.ofRows samples)).toOption.map unknowns := by
  obtain ⟨points, out, hpoints, hrun, hlike⟩ := h
  have hsame : unknowns (points.tail.map (Feed.exportRow q.descriptor.exports)) =
      unknowns out := by
    rw [unknowns, List.map_map, unknowns, map_eq_iff_forall₂]
    refine hlike.imp fun p row hrow => ?_
    exact map_eq_iff_forall₂.2 (hrow.readings.imp fun m m' hm => hm.value.isNaN_eq)
  rw [hpoints, hrun, Feed.collect_ofRows]
  exact congrArg some hsame

/-- Asks for `Draft.load` at the least second that can be counted. -/
def leastSecond : Query :=
  ⟨"host", .ofTicks minTicks .seconds, .ofTicks minTicks .seconds, .ofTicks 1 .seconds, .load,
    .wrap⟩

/-- With an xff of one, a known point does not make a known value, and where there is no room for
an instant before the first bucket, the only point is left out. -/
theorem run_strict :
    Row.Ascending loadRows ∧
    Draft.strict.build = .ok .strict ∧
    check "host" (.ofTicks 1 .seconds) (.ofTicks 1 .seconds) (.ofTicks 1 .seconds) .strict .wrap =
      .ok { firstSecond with descriptor := .strict } ∧
    { firstSecond with descriptor := .strict }.EndsWithin 2 ∧
    ¬ { firstSecond with descriptor := .strict }.PassesPoints 2 (fun _ => SameNumber) loadRows ∧
    check "host" (.ofTicks minTicks .seconds) (.ofTicks minTicks .seconds) (.ofTicks 1 .seconds)
      .load .wrap = .ok leastSecond ∧
    leastSecond.EndsWithin 1 ∧
    (leastSecond.run 1 (.ofRows loadRows)).toOption.isSome = true ∧
    ¬ leastSecond.PassesPoints 1 (fun _ => SameNumber) loadRows := by
  refine ⟨by decide, rfl, rfl, by decide, fun h => ?_, rfl, by decide, by decide +kernel,
    fun h => ?_⟩
  · exact absurd (unknowns_of_passesPoints h) (by decide +kernel)
  · exact absurd (unknowns_of_passesPoints h) (by decide +kernel)

end Query

end Telemetry
