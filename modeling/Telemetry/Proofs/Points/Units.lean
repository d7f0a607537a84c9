import Telemetry.Proofs.Points.Matching
import Telemetry.Proofs.Points.Refinement
import Telemetry.Proofs.Rates

/-!
# Points do not depend on units

Each time is a count of some unit, and operations give their results in the finer unit of the two.
As long as no count leaves its range, which units these are has no influence on what instants and
spans they stand for, nor on their whole milliseconds. So runs that are given the same instants and
spans, in whatever units, match each other from their beginning.
-/

namespace Telemetry

/-- The datasources read the same metric with heartbeats of the same length. -/
structure Datasource.Coincides (ds ds' : Datasource) : Prop where
  label_eq : ds.label = ds'.label
  source_eq : ds.source = ds'.source
  nanos_eq : ds.heartbeat.nanos = ds'.heartbeat.nanos

/-- The descriptors have steps of the same length, and the same datasources. -/
structure Descriptor.Coincides (d d' : Descriptor) : Prop where
  nanos_eq : d.step.nanos = d'.step.nanos
  datasources : List.Forall₂ Datasource.Coincides d.datasources d'.datasources

/-- The feeds hand out rows that coincide, and the same errors between them. -/
def Feed.Coincides {α : Type} (feed feed' : Feed α) : Prop :=
  List.Forall₂ (Likewise Row.Coincides) feed feed'

section

variable {d d' : Descriptor} {ds ds' : Datasource} {start start' finish finish' : Timestamp}
  {step step' : Duration} {rows rows' : List (Row Value)} {row row' : Row Value} {s s' : Sample}

theorem Datasource.Coincides.matches (h : ds.Coincides ds')
    (hfits : Fits ds.heartbeat.nanos .milliseconds) : ds.Matches ds' := by
  refine ⟨h.label_eq, h.source_eq, ?_⟩
  have hfits' := h.nanos_eq ▸ hfits
  exact (TimeUnit.convert_eq_tdiv hfits).trans
    ((congrArg (Int.tdiv · 1000000) h.nanos_eq).trans (TimeUnit.convert_eq_tdiv hfits').symm)

theorem Reading.Coincides.matches (h : s.Coincides s') (hds : ds.Coincides ds')
    (hfits : Fits s.timestamp.nanos .milliseconds) (hs : s.timestamp.AddFits ds.heartbeat)
    (hs' : s'.timestamp.AddFits ds'.heartbeat) : Sample.Matches ds ds' s s' := by
  refine ⟨⟨Timestamp.same_of_fits h.nanos_eq hfits, ?_⟩, h.value_eq, h.attributes_eq⟩
  rw [Timestamp.nanos_add hs, Timestamp.nanos_add hs', h.nanos_eq, hds.nanos_eq]

/-- Both runs are asked for the same instants. -/
theorem WalkFits.ceilingMatches (h : WalkFits start finish step)
    (h' : WalkFits start' finish' step') (hpos : 0 < step.nanos)
    (hstep : step.nanos = step'.nanos) (hstart : start.nanos = start'.nanos)
    (hfinish : finish.nanos = finish'.nanos) :
    List.Forall₂ (Resampling.CeilingMatches step step')
      (Lattice.covering start finish step).toList
      (Lattice.covering start' finish' step').toList := by
  have hlist : (Lattice.covering start finish step).toList.map (·.nanos) =
      (Lattice.covering start' finish' step').toList.map (·.nanos) := by
    rw [h.nanos_toList hpos, h'.nanos_toList (hstep ▸ hpos), hstep, hstart, hfinish]
  refine forall₂_of_map_eq hlist fun c hc c' hc' hnanos => ?_
  obtain ⟨hceiling, hfloor⟩ := h.millis c hc
  have hsub := Timestamp.nanos_sub (h.floors c hc)
  have hsub' := Timestamp.nanos_sub (h'.floors c' hc')
  refine ⟨Timestamp.same_of_fits hnanos hceiling, Timestamp.same_of_fits ?_ (hsub ▸ hfloor)⟩
  rw [hsub, hsub', hnanos, hstep]

/-- Datasources that stand at the same place. -/
def Descriptor.Paired (d d' : Descriptor) (ds ds' : Datasource) : Prop :=
  ds ∈ d.datasources ∧ ds' ∈ d'.datasources ∧ ds.Coincides ds'

theorem Row.Coincides.matches (h : row.Coincides row') (hfits : PointsFit d start finish rows)
    (hfits' : PointsFit d' start' finish' rows') (hrow : row ∈ rows) (hrow' : row' ∈ rows') :
    Row.Matches (d.Paired d') row row' := by
  refine ⟨h.nanos_eq, ?_⟩
  rintro ds ds' ⟨hds, hds', hpair⟩
  rw [← hpair.source_eq]
  rcases rel_iff.1 (Row.get?_coincides h ds.source) with ⟨hs, hs'⟩ | ⟨s, s', hs, hs', hcoincide⟩
  · rw [hs, hs']
    exact .none
  · obtain ⟨hmillis, hadd⟩ := hfits.samples ds hds s (List.mem_filterMap.2 ⟨row, hrow, hs⟩)
    obtain ⟨-, hadd'⟩ := hfits'.samples ds' hds' s'
      (List.mem_filterMap.2 ⟨row', hrow', hpair.source_eq ▸ hs'⟩)
    rw [hs, hs']
    exact .some (hcoincide.matches hpair hmillis hadd hadd')

theorem Feed.Coincides.matches {input input' : Feed Value} (h : input.Coincides input')
    (hfits : PointsFit d start finish (Feed.rowsOf input))
    (hfits' : PointsFit d' start' finish' (Feed.rowsOf input')) :
    Resampling.FeedMatches (d.Paired d') input input' := by
  refine (forall₂_mem h).imp ?_
  rintro item item' ⟨hmem, hmem', hitem⟩
  cases hitem with
  | error e => exact .error e
  | @ok row row' hrow =>
    exact .ok (hrow.matches hfits hfits' (List.mem_filterMap.2 ⟨.ok row, hmem, rfl⟩)
      (List.mem_filterMap.2 ⟨.ok row', hmem', rfl⟩))

end

/-- Runs over the same instants and spans, in whatever units, hand out the same points and errors,
one after the other. -/
theorem Feed.points_coincide {draft draft' : Draft} {d d' : Descriptor}
    (hd : draft.build = .ok d) (hd' : draft'.build = .ok d')
    {start start' finish finish' : Timestamp} {input input' : Feed Value} (resource : String)
    (hdescriptor : d.Coincides d') (hstart : start.nanos = start'.nanos)
    (hfinish : finish.nanos = finish'.nanos) (hinput : input.Coincides input')
    (hfits : PointsFit d start finish (Feed.rowsOf input))
    (hfits' : PointsFit d' start' finish' (Feed.rowsOf input')) :
    (Feed.points d resource start finish input).Coincides
      (Feed.points d' resource start' finish' input') := by
  have hpos := (Draft.wellFormed_of_build hd).step_pos
  have hpos' := (Draft.wellFormed_of_build hd').step_pos
  have hwalk := hfits.walk.ceilingMatches hfits'.walk hpos hdescriptor.nanos_eq hstart hfinish
  have hcount : (Lattice.covering start finish d.step).count =
      (Lattice.covering start' finish' d'.step).count := by
    rw [hfits.walk.count_eq hpos, hfits'.walk.count_eq hpos', hstart, hfinish,
      hdescriptor.nanos_eq]
  have htracks : List.Forall₂ (Track.Matches (d.Paired d')) d.tracks d'.tracks := by
    rw [Descriptor.tracks, Descriptor.tracks, List.forall₂_map_left_iff,
      List.forall₂_map_right_iff]
    refine (forall₂_mem hdescriptor.datasources).imp fun ds ds' hpair => ?_
    exact ⟨hpair, hpair.2.2.matches (hfits.heartbeats ds hpair.1), Coverage.matches_empty ds ds'⟩
  have hbegin : Resampling.Matches (d.Paired d') (.start d resource start finish input)
      (.start d' resource start' finish' input') :=
    ⟨rfl, htracks, .nil, hinput.matches hfits hfits'⟩
  rw [Lattice.toList, Lattice.toList, ← hcount] at hwalk
  rw [Feed.points, Feed.points]
  have hrequests : (Resampling.start d' resource start' finish' input').points.count =
      (Resampling.start d resource start finish input).points.count := hcount.symm
  rw [hrequests]
  exact Resampling.unfold_coincides _ hbegin hwalk

/-! ## A gauge in finer units -/

theorem Row.gauge_coincides {t t' : Timestamp} (h : t.nanos = t'.nanos) (resource metric : String)
    (x : Float) : (Row.gauge t resource metric x).Coincides (Row.gauge t' resource metric x) :=
  ⟨h, rfl, .cons ⟨h, rfl, rfl, rfl, rfl⟩ .nil⟩

/-- `Draft.punctual` in finer units. -/
def Draft.fine : Draft :=
  ({ step := .ofTicks 1000 .milliseconds } : Draft).datasource "load" "cpu" .average
    (some (.ofTicks 1000000 .microseconds)) none |>.exporting ["load"]

/-- What `Draft.fine` is built into. -/
def Descriptor.fine : Descriptor :=
  { Descriptor.load with
    step := .ofTicks 1000 .milliseconds
    datasources := [⟨"load", "cpu", .ofTicks 1000000 .microseconds, defaultXff, .average⟩] }

theorem Draft.build_fine : Draft.fine.build = .ok .fine := rfl

/-- The instants of `punctualRows`, in nanoseconds. -/
def fineRows : List (Row Value) :=
  [500900000, 1500400000, 2000400000].map fun n : Int =>
    .gauge (.ofTicks n .nanoseconds) "host" "cpu" (.ofNat 5)

theorem Feed.points_coincide_fine :
    (Feed.points .punctual "host" (.ofTicks 1 .seconds) (.ofTicks 1999 .milliseconds)
        (.ofRows punctualRows)).Coincides
      (Feed.points .fine "host" (.ofTicks 1000000 .microseconds)
        (.ofTicks 1999000000 .nanoseconds) (.ofRows fineRows)) := by
  have hrow (n m : Int) (h : (Timestamp.ofTicks n .microseconds).nanos =
      (Timestamp.ofTicks m .nanoseconds).nanos) := Row.gauge_coincides h "host" "cpu" (.ofNat 5)
  have hinput : Feed.Coincides (.ofRows punctualRows) (.ofRows fineRows) :=
    .cons (.ok (hrow 500900 500900000 rfl)) (.cons (.ok (hrow 1500400 1500400000 rfl))
      (.cons (.ok (hrow 2000400 2000400000 rfl)) .nil))
  exact Feed.points_coincide Draft.build_punctual Draft.build_fine "host"
    ⟨rfl, .cons ⟨rfl, rfl, rfl⟩ .nil⟩ rfl rfl hinput ⟨by decide, by decide, by decide⟩
    ⟨by decide, by decide, by decide⟩

end Telemetry
