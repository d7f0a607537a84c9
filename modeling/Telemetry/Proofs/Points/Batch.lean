import Telemetry.Proofs.Points.Stretches

/-!
# Points made from rows one after the other

The coverage of a track tells which stretches it has been credited with. Samples of the bucket add
the stretches that they end, and completing the bucket adds the rest. With that, each point holds
the average that the whole timeline gives.
-/

namespace Telemetry

/-! ## Stretches of a timeline -/

namespace Timeline

variable {f c heartbeat : Int} {samples later : List Observation}

theorem closed_cons_cons (p s : Observation) (samples : List Observation) :
    closed f c heartbeat (p :: s :: samples) =
      (if f < s.millis ∧ s.millis ≤ c then
        [⟨s.millis - max p.millis f, s.millis - p.millis < heartbeat, s.value⟩] else []) ++
      closed f c heartbeat (s :: samples) := by
  unfold closed
  rw [List.tail_cons, List.zip_cons_cons, List.filterMap_cons, List.tail_cons]
  by_cases h : f < s.millis ∧ s.millis ≤ c
  · simp [h]
  · simp [h]

theorem closed_of_lt (h : ∀ s ∈ later, c < s.millis) (p : Observation) :
    closed f c heartbeat (p :: later) = [] := by
  rw [closed, List.filterMap_eq_nil_iff]
  rintro ⟨a, s⟩ hmem
  have hs := h s (List.of_mem_zip hmem).2
  exact if_neg fun hle => by omega

/-- Later samples end no stretch of the bucket. -/
theorem closed_append (h : ∀ s ∈ later, c < s.millis) :
    closed f c heartbeat (samples ++ later) = closed f c heartbeat samples := by
  induction samples with
  | nil =>
    cases later with
    | nil => rfl
    | cons p later => exact closed_of_lt (fun s hs => h s (List.mem_cons_of_mem _ hs)) p
  | cons p samples ih =>
    cases samples with
    | nil => exact closed_of_lt h p
    | cons s samples =>
      rw [List.cons_append, List.cons_append, closed_cons_cons, closed_cons_cons]
      exact congrArg (_ ++ ·) ih

section Split

variable {α : Type} {key : α → Int} {l l' : List α}

theorem filter_append_of_le (hle : ∀ a ∈ l, key a ≤ c) (hlt : ∀ a ∈ l', c < key a) :
    (l ++ l').filter (key · ≤ c) = l := by
  rw [List.filter_append, List.filter_eq_self.2 (by simpa using hle),
    List.filter_eq_nil_iff.2 (by simpa using hlt), List.append_nil]

theorem find?_append_of_le (hle : ∀ a ∈ l, key a ≤ c) (hlt : ∀ a ∈ l', c < key a) :
    (l ++ l').find? (c < key ·) = l'.head? := by
  rw [List.find?_append, List.find?_eq_none.2 (by simpa using hle), Option.none_or]
  cases l' with
  | nil => rfl
  | cons next rest => exact List.find?_cons_of_pos (by simpa using hlt next List.mem_cons_self)

end Split

theorem rest_of_lt (h : ∀ s ∈ later, c < s.millis) (rows : List Int) :
    rest f c heartbeat later rows = [] := by
  have hfilter : later.filter (·.millis ≤ c) = [] := List.filter_eq_nil_iff.2 (by simpa using h)
  rw [rest, hfilter, List.getLast?_nil]

theorem rest_append {last : Observation} (hlast : samples.getLast? = some last)
    (hle : ∀ s ∈ samples, s.millis ≤ c) (hlt : ∀ s ∈ later, c < s.millis) (rows : List Int) :
    rest f c heartbeat (samples ++ later) rows =
      behind f c heartbeat last.millis later.head?
        (rows.any fun row => c < row ∧ last.millis + heartbeat ≤ row) := by
  rw [rest, filter_append_of_le hle hlt, find?_append_of_le hle hlt, hlast]

end Timeline

/-! ## Coverage -/

/-- Where milliseconds are exact, the stretches that samples of a bucket end are those of the
timeline. -/
theorem Coverage.stretches_eq_closed {floor : Timestamp} {heartbeat : Duration} {ceiling : Int}
    {samples : List Sample} (hf : floor.Whole) (hwhole : ∀ s ∈ samples, s.timestamp.Whole)
    (hsorted : samples.Pairwise fun s s' => s.timestamp < s'.timestamp)
    (hle : ∀ s ∈ samples, s.timestamp.millis ≤ ceiling) :
    Coverage.stretches floor heartbeat samples =
      Timeline.closed floor.millis ceiling heartbeat.millis (samples.map .ofSample) := by
  rw [Coverage.stretches, neighbours, Timeline.closed, ← List.map_tail, List.zip_map,
    List.filterMap_map]
  apply List.filterMap_congr
  rintro ⟨p, s⟩ hmem
  have hlt : p.timestamp < s.timestamp := rel_of_mem_neighbours hsorted hmem
  obtain ⟨hp, hs⟩ := mem_of_mem_neighbours hmem
  have hp' := hwhole p hp
  have hs' := hwhole s hs
  have hin : p.timestamp.later floor < s.timestamp ↔
      floor.millis < s.timestamp.millis ∧ s.timestamp.millis ≤ ceiling := by
    have hceiling := hle s hs
    rw [← hf.lt_iff hs']
    rw [Timestamp.lt_iff] at hlt
    rw [Timestamp.lt_iff, Timestamp.lt_iff, Timestamp.nanos_later]
    omega
  simp only [Coverage.stretch?, Coverage.isKnown, Timestamp.millisSince, Timestamp.millis_later,
    Function.comp_apply, Prod.map_apply, Observation.ofSample, hp'.exactMillis, hs'.exactMillis]
  exact if_congr hin rfl rfl

/-! ## Rows of a bucket -/

section Samples

variable {metric : String} {rows : List (Row Value)} {s : Sample} {c : Timestamp}

theorem exists_of_mem_samplesOf (h : s ∈ samplesOf metric rows) :
    ∃ row ∈ rows, row.get? metric = some s :=
  List.mem_filterMap.1 h

theorem samplesOf_split (metric : String) (c : Timestamp) (rows : List (Row Value)) :
    samplesOf metric rows =
      samplesOf metric (Row.upTo c rows) ++ samplesOf metric (Row.after c rows) := by
  rw [samplesOf, samplesOf, samplesOf, ← List.filterMap_append, Row.upTo_append_after]

theorem nanos_of_mem_samplesOf (hrows : ∀ row ∈ rows, row.Stamped) (h : s ∈ samplesOf metric rows) :
    ∃ row ∈ rows, s.timestamp.nanos = row.timestamp.nanos := by
  obtain ⟨row, hrow, hs⟩ := exists_of_mem_samplesOf h
  exact ⟨row, hrow, hrows row hrow s (Row.mem_of_get? hs)⟩

theorem le_of_mem_samplesOf_upTo (hrows : ∀ row ∈ rows, row.Stamped) :
    ∀ s ∈ samplesOf metric (Row.upTo c rows), s.timestamp ≤ c := by
  intro s hs
  have hsub := Row.upTo_subset c rows
  obtain ⟨row, hrow, hnanos⟩ := nanos_of_mem_samplesOf (fun row hr => hrows row (hsub hr)) hs
  have hle := Row.le_of_mem_upTo hrow
  rw [Timestamp.le_iff] at hle ⊢
  omega

theorem lt_of_mem_samplesOf_after (hrows : ∀ row ∈ rows, row.Stamped)
    (hasc : Row.Ascending rows) :
    ∀ s ∈ samplesOf metric (Row.after c rows), c < s.timestamp := by
  intro s hs
  have hsub := Row.after_subset c rows
  obtain ⟨row, hrow, hnanos⟩ := nanos_of_mem_samplesOf (fun row hr => hrows row (hsub hr)) hs
  have hlt := (hasc.mem_after_iff.1 hrow).2
  rw [Timestamp.lt_iff] at hlt ⊢
  omega

theorem mem_samplesOf_upTo_iff (hrows : ∀ row ∈ rows, row.Stamped) (hasc : Row.Ascending rows) :
    s ∈ samplesOf metric (Row.upTo c rows) ↔ s ∈ samplesOf metric rows ∧ s.timestamp ≤ c := by
  constructor
  · intro hs
    exact ⟨samplesOf_upTo_subset metric c rows hs, le_of_mem_samplesOf_upTo hrows s hs⟩
  · rintro ⟨hs, hle⟩
    rw [samplesOf_split metric c] at hs
    refine (List.mem_append.1 hs).resolve_right fun hafter => ?_
    exact Int.not_lt.2 hle (lt_of_mem_samplesOf_after hrows hasc s hafter)

theorem mem_samplesOf_after_iff (hrows : ∀ row ∈ rows, row.Stamped) (hasc : Row.Ascending rows) :
    s ∈ samplesOf metric (Row.after c rows) ↔ s ∈ samplesOf metric rows ∧ c < s.timestamp := by
  constructor
  · intro hs
    exact ⟨List.filterMap_subset _ (Row.after_subset c rows) hs,
      lt_of_mem_samplesOf_after hrows hasc s hs⟩
  · rintro ⟨hs, hlt⟩
    rw [samplesOf_split metric c] at hs
    refine (List.mem_append.1 hs).resolve_left fun hupTo => ?_
    exact Int.not_lt.2 (le_of_mem_samplesOf_upTo hrows s hupTo) hlt

theorem pairwise_samplesOf (metric : String) (hrows : ∀ row ∈ rows, row.Stamped)
    (hasc : Row.Ascending rows) :
    (samplesOf metric rows).Pairwise fun s s' => s.timestamp < s'.timestamp := by
  rw [samplesOf, List.pairwise_filterMap]
  apply hasc.imp_of_mem
  intro row row' hrow hrow' hlt s hs s' hs'
  have hstamp := hrows row hrow s (Row.mem_of_get? hs)
  have hstamp' := hrows row' hrow' s' (Row.mem_of_get? hs')
  rw [Timestamp.lt_iff] at hlt ⊢
  omega

theorem pairwise_samplesOf_upTo (metric : String) (c : Timestamp)
    (hrows : ∀ row ∈ rows, row.Stamped) (hasc : Row.Ascending rows) :
    (samplesOf metric (Row.upTo c rows)).Pairwise fun s s' => s.timestamp < s'.timestamp :=
  pairwise_samplesOf metric (fun row hrow => hrows row (Row.upTo_subset c rows hrow)) hasc.upTo

/-- The first row has a sample, or it tells that the last one is stale, or it tells nothing. -/
theorem CarryOver.among_cons (metric : String) (horizon : Timestamp) (row : Row Value)
    (rows : List (Row Value)) :
    among metric horizon (row :: rows) =
      match row.get? metric with
      | some s => .found s
      | none => if horizon ≤ row.timestamp then .stale else among metric horizon rows := by
  cases hs : row.get? metric with
  | some s => simp [among, Resampling.judge?, hs]
  | none => by_cases hle : horizon ≤ row.timestamp <;> simp [among, Resampling.judge?, hs, hle]

theorem samplesOf_cons (metric : String) (row : Row Value) (rows : List (Row Value)) :
    samplesOf metric (row :: rows) = (row.get? metric).toList ++ samplesOf metric rows := by
  cases h : row.get? metric <;> simp [samplesOf, h]

/-- What a row tells first: the next sample, or that a heartbeat has gone by, or nothing. -/
theorem CarryOver.among_spec (metric : String) (horizon : Timestamp)
    (hrows : ∀ row ∈ rows, row.Stamped) (hasc : Row.Ascending rows) :
    match CarryOver.among metric horizon rows with
    | .found s => (samplesOf metric rows).head? = some s
    | .stale =>
      (∃ row ∈ rows, horizon ≤ row.timestamp) ∧
        ∀ s ∈ samplesOf metric rows, horizon ≤ s.timestamp
    | .ended => samplesOf metric rows = [] ∧ ∀ row ∈ rows, ¬ horizon ≤ row.timestamp := by
  induction rows with
  | nil => simp [CarryOver.among, samplesOf]
  | cons row rest ih =>
    obtain ⟨hfirst, hrest⟩ := List.pairwise_cons.1 hasc
    have hstamped := fun row hrow => hrows row (List.mem_cons_of_mem _ hrow)
    rw [CarryOver.among_cons, samplesOf_cons]
    cases hs : row.get? metric with
    | some s => exact rfl
    | none =>
      rw [Option.toList_none, List.nil_append]
      by_cases hle : horizon ≤ row.timestamp
      · have hlater : ∀ s ∈ samplesOf metric rest, horizon ≤ s.timestamp := by
          intro s hs
          obtain ⟨row', hrow', hnanos⟩ := nanos_of_mem_samplesOf hstamped hs
          have := hfirst row' hrow'
          rw [Timestamp.le_iff] at hle ⊢
          rw [Timestamp.lt_iff] at this
          omega
        simp only [if_pos hle]
        exact ⟨⟨row, List.mem_cons_self, hle⟩, hlater⟩
      · simp only [if_neg hle]
        have hspec := ih hstamped hrest
        split at hspec
        · exact hspec
        · obtain ⟨⟨row', hrow', hrow⟩, hall⟩ := hspec
          exact ⟨⟨row', List.mem_cons_of_mem _ hrow', hrow⟩, hall⟩
        · exact ⟨hspec.1, by simpa [hle] using hspec.2⟩

end Samples

/-! ## Closing a bucket -/

/-- All times that matter to a datasource are exact in milliseconds. -/
structure Datasource.InMillis (ds : Datasource) (rows : List (Row Value)) : Prop where
  heartbeat : ds.heartbeat.nanos = ds.heartbeat.millis * 1000000
  instants : ∀ row ∈ rows, 1000000 ∣ row.timestamp.nanos
  samples : ∀ s ∈ samplesOf ds.source rows, s.timestamp.Whole
  horizons : ∀ s ∈ samplesOf ds.source rows, s.timestamp.AddFits ds.heartbeat

section Close

variable {ds : Datasource} {rows : List (Row Value)} {floor ceiling : Timestamp}

/-- What completing a track adds is the rest of the bucket, as the samples and rows behind it
tell. -/
theorem Track.tells_complete (floor : Timestamp) {c : Coverage} {last : Sample}
    {l : List Stretch} (ht : c.Tells l) (hlast : c.last = some last.timestamp)
    (hrows : ∀ row ∈ rows, row.Stamped) (hasc : Row.Ascending rows)
    (h : ds.InMillis rows) (hwhole : last.timestamp.Whole)
    (hfits : last.timestamp.AddFits ds.heartbeat) (hc : ceiling.Whole) :
    ((⟨ds, c⟩ : Track).complete floor ceiling rows).coverage.Tells
      (l ++ Timeline.behind floor.millis ceiling.millis ds.heartbeat.millis last.timestamp.millis
        ((samplesOf ds.source rows).head?.map .ofSample)
        (rows.any fun row => last.timestamp + ds.heartbeat ≤ row.timestamp)) := by
  have hspec := CarryOver.among_spec ds.source (last.timestamp + ds.heartbeat) hrows hasc
  have hmillis : ∀ s ∈ samplesOf ds.source rows,
      (Observation.ofSample s).millis = s.timestamp.millis := by
    intro s hs
    exact (h.samples s hs).exactMillis
  rw [Track.complete, hlast]
  unfold Timeline.behind
  dsimp only
  by_cases hle : ceiling ≤ last.timestamp
  · rw [if_pos hle, if_neg (not_lt.2 ((hc.le_iff hwhole).1 hle)), List.append_nil]
    exact ht
  · rw [if_neg hle, if_pos (not_le.1 (mt (hc.le_iff hwhole).2 hle))]
    unfold Resampling.carry
    rw [Timestamp.millisSince, Timestamp.millis_later]
    cases hamong : CarryOver.among ds.source (last.timestamp + ds.heartbeat) rows with
    | found next =>
      rw [hamong] at hspec
      have hnext : (samplesOf ds.source rows).head? = some next := hspec
      rw [hnext, Option.map_some]
      dsimp only
      rw [hmillis next (List.mem_of_mem_head? hnext)]
      exact (ht.credit _ _ _).attach next
    | stale =>
      rw [hamong] at hspec
      obtain ⟨hrow, hlater⟩ := hspec
      cases hnext : (samplesOf ds.source rows).head? with
      | none => simpa [hrow] using ht.credit _ false unknown
      | some next =>
        have hmem := List.mem_of_mem_head? hnext
        have hgap : ¬ next.timestamp.millis - last.timestamp.millis < ds.heartbeat.millis := by
          have hge := hlater next hmem
          have hnanos : next.timestamp.nanos = next.timestamp.millis * 1000000 :=
            h.samples next hmem
          have hnanos' : last.timestamp.nanos = last.timestamp.millis * 1000000 := hwhole
          have hheartbeat := h.heartbeat
          rw [Timestamp.le_iff, Timestamp.nanos_add hfits] at hge
          omega
        rw [Option.map_some]
        dsimp only
        rw [hmillis next hmem, decide_eq_false hgap]
        exact ht.credit _ false next.value.number
    | ended =>
      rw [hamong] at hspec
      obtain ⟨hnone, hrow⟩ := hspec
      have hnone' : ¬ ∃ row ∈ rows, last.timestamp + ds.heartbeat ≤ row.timestamp := by
        rintro ⟨row, hmem, hge⟩
        exact hrow row hmem hge
      simpa [hnone, hnone'] using ht

theorem Datasource.InMillis.mono {rows' : List (Row Value)} (h : ds.InMillis rows)
    (hsub : rows' ⊆ rows) : ds.InMillis rows' := by
  have hsamples : samplesOf ds.source rows' ⊆ samplesOf ds.source rows :=
    List.filterMap_subset _ hsub
  exact ⟨h.heartbeat, fun row hrow => h.instants row (hsub hrow),
    fun s hs => h.samples s (hsamples hs), fun s hs => h.horizons s (hsamples hs)⟩

/-- A row behind the bucket shows that a heartbeat has gone by. -/
theorem any_horizon {last : Sample} (hasc : Row.Ascending rows) (h : ds.InMillis rows)
    (hwhole : last.timestamp.Whole) (hfits : last.timestamp.AddFits ds.heartbeat)
    (hc : ceiling.Whole) :
    ((Row.after ceiling rows).any fun row => last.timestamp + ds.heartbeat ≤ row.timestamp) =
      (rows.map (·.timestamp.exactMillis)).any fun row =>
        ceiling.millis < row ∧ last.timestamp.millis + ds.heartbeat.millis ≤ row := by
  have hlast : last.timestamp.nanos = last.timestamp.millis * 1000000 := hwhole
  have hceiling : ceiling.nanos = ceiling.millis * 1000000 := hc
  have hheartbeat := h.heartbeat
  have hrow : ∀ row ∈ rows, (ceiling < row.timestamp ↔
        ceiling.millis < row.timestamp.exactMillis) ∧
      (last.timestamp + ds.heartbeat ≤ row.timestamp ↔
        last.timestamp.millis + ds.heartbeat.millis ≤ row.timestamp.exactMillis) := by
    intro row hrow
    have hdvd := h.instants row hrow
    rw [Timestamp.lt_iff, Timestamp.le_iff, Timestamp.nanos_add hfits, Timestamp.exactMillis]
    omega
  rw [Bool.eq_iff_iff, List.any_eq_true, List.any_eq_true]
  simp only [decide_eq_true_eq, List.mem_map, exists_exists_and_eq_and, hasc.mem_after_iff,
    and_assoc]
  apply exists_congr
  intro row
  apply and_congr_right
  intro hmem
  rw [(hrow row hmem).1, (hrow row hmem).2]

/-- An observation counts the milliseconds of its sample. -/
theorem Datasource.InMillis.forall_ofSample {P : Int → Prop} (h : ds.InMillis rows)
    (hP : ∀ s ∈ samplesOf ds.source rows, P s.timestamp.millis) :
    ∀ o ∈ (samplesOf ds.source rows).map Observation.ofSample, P o.millis := by
  rw [List.forall_mem_map]
  intro s hs
  rw [Observation.ofSample, (h.samples s hs).exactMillis]
  exact hP s hs

theorem millis_le_of_mem_upTo (hrows : ∀ row ∈ rows, row.Stamped) (h : ds.InMillis rows)
    (hc : ceiling.Whole) : ∀ s ∈ samplesOf ds.source (Row.upTo ceiling rows),
      s.timestamp.millis ≤ ceiling.millis := by
  intro s hs
  have hwhole := (h.mono (Row.upTo_subset ceiling rows)).samples s hs
  exact (hwhole.le_iff hc).1 (le_of_mem_samplesOf_upTo hrows s hs)

theorem lt_millis_of_mem_after (hrows : ∀ row ∈ rows, row.Stamped) (hasc : Row.Ascending rows)
    (h : ds.InMillis rows) (hc : ceiling.Whole) :
    ∀ s ∈ samplesOf ds.source (Row.after ceiling rows),
      ceiling.millis < s.timestamp.millis := by
  intro s hs
  have hwhole := (h.mono (Row.after_subset ceiling rows)).samples s hs
  exact (hc.lt_iff hwhole).1 (lt_of_mem_samplesOf_after hrows hasc s hs)

/-- A bucket that is closed tells all that the timeline says about it. -/
theorem Track.tells_close (hrows : ∀ row ∈ rows, row.Stamped) (hasc : Row.Ascending rows)
    (h : ds.InMillis rows) (hf : floor.Whole) (hc : ceiling.Whole) :
    let samples := (samplesOf ds.source rows).map .ofSample
    ((⟨ds, {}⟩ : Track).close floor ceiling rows).coverage.Tells
      (Timeline.closed floor.millis ceiling.millis ds.heartbeat.millis samples ++
        Timeline.rest floor.millis ceiling.millis ds.heartbeat.millis samples
          (rows.map (·.timestamp.exactMillis))) := by
  have hearly := h.mono (Row.upTo_subset ceiling rows)
  have hlater := h.mono (Row.after_subset ceiling rows)
  have hstamped : ∀ row ∈ Row.upTo ceiling rows, row.Stamped := by
    intro row hrow
    exact hrows row (Row.upTo_subset _ _ hrow)
  have hstamped' : ∀ row ∈ Row.after ceiling rows, row.Stamped := by
    intro row hrow
    exact hrows row (Row.after_subset _ _ hrow)
  have hle := millis_le_of_mem_upTo hrows h hc
  have hlt := hlater.forall_ofSample (lt_millis_of_mem_after hrows hasc h hc)
  have habsorb := tells_absorb ds floor (Row.upTo ceiling rows)
  rw [Coverage.stretches_eq_closed hf hearly.samples
    (pairwise_samplesOf_upTo ds.source ceiling hrows hasc) hle] at habsorb
  have hend := last_absorb ds floor (Row.upTo ceiling rows)
  dsimp only
  rw [samplesOf_split ds.source ceiling rows, List.map_append, Timeline.closed_append hlt,
    Track.close]
  rcases List.eq_nil_or_concat (samplesOf ds.source (Row.upTo ceiling rows)) with
    hnil | ⟨_, last, hinit⟩
  · rw [hnil] at hend habsorb
    rw [Track.complete, hend, hnil, List.map_nil, List.nil_append, Timeline.rest_of_lt hlt,
      List.append_nil]
    exact habsorb
  · have hlast : (samplesOf ds.source (Row.upTo ceiling rows)).getLast? = some last := by
      simp [hinit]
    have hlast' : ((samplesOf ds.source (Row.upTo ceiling rows)).map
        Observation.ofSample).getLast? = some (.ofSample last) := by
      rw [List.getLast?_map, hlast, Option.map_some]
    have hmem := List.mem_of_getLast? hlast
    have hwhole := hearly.samples last hmem
    have hfits := hearly.horizons last hmem
    rw [hlast] at hend
    have hdone := Track.tells_complete floor habsorb hend hstamped' hasc.after hlater hwhole
      hfits hc
    rw [Track.absorb_eq_foldl] at hdone ⊢
    rw [Timeline.rest_append hlast' (hearly.forall_ofSample (P := (· ≤ ceiling.millis)) hle) hlt,
      List.head?_map, Observation.ofSample, hwhole.exactMillis]
    rwa [any_horizon hasc h hwhole hfits hc] at hdone

end Close

end Telemetry
