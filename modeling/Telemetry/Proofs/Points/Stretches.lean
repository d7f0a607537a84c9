import Mathlib.Algebra.Order.BigOperators.Group.List
import Telemetry.Proofs.Points.Local
import Telemetry.Proofs.Points.Timeline

/-!
# What a bucket is credited with

The coverage of a closed bucket tells which stretches of time it has been credited with. Each sample
that has a predecessor ends one, and what follows the last sample ends one more if the bucket goes
on behind it. This is so in every unit: a stretch counts whole milliseconds from one instant to the
other, each of the two taken in whole milliseconds.
-/

namespace Telemetry

/-! ## Neighbours in a list -/

/-- Each item of a list with the one that follows it. -/
def neighbours {α : Type} (l : List α) : List (α × α) :=
  l.zip l.tail

section Neighbours

variable {α : Type} {R : α → α → Prop} {a b : α} {l l' : List α} {q : α × α}

theorem neighbours_cons_cons (a b : α) (l : List α) :
    neighbours (a :: b :: l) = (a, b) :: neighbours (b :: l) := rfl

theorem mem_of_mem_neighbours (h : q ∈ neighbours l) : q.1 ∈ l ∧ q.2 ∈ l :=
  ⟨(List.of_mem_zip h).1, List.mem_of_mem_tail (List.of_mem_zip h).2⟩

/-- Neighbours in a sorted list are in order. -/
theorem rel_of_mem_neighbours (h : l.Pairwise R) (hq : q ∈ neighbours l) : R q.1 q.2 := by
  induction l with
  | nil => cases hq
  | cons a rest ih =>
    cases rest with
    | nil => cases hq
    | cons b rest =>
      obtain ⟨hfirst, hrest⟩ := List.pairwise_cons.1 h
      rcases List.mem_cons.1 hq with rfl | hmem
      · exact hfirst b List.mem_cons_self
      · exact ih hrest hmem

/-- Nothing in a sorted list is behind its last item. -/
theorem eq_or_rel_of_getLast? (h : l.Pairwise R) (hb : l.getLast? = some b) (ha : a ∈ l) :
    a = b ∨ R a b := by
  obtain ⟨init, rfl⟩ := List.getLast?_eq_some_iff.1 hb
  rcases List.mem_append.1 ha with hinit | hlast
  · exact .inr ((List.pairwise_append.1 h).2.2 a hinit b (List.mem_singleton_self b))
  · exact .inl (List.mem_singleton.1 hlast)

/-- Where two lists meet, the last item of the first is followed by the first of the second. -/
theorem mem_neighbours_append : q ∈ neighbours (l ++ l') ↔
    q ∈ neighbours l ∨ (l.getLast? = some q.1 ∧ l'.head? = some q.2) ∨ q ∈ neighbours l' := by
  induction l with
  | nil => simp [neighbours]
  | cons a rest ih =>
    cases rest with
    | nil =>
      cases l' with
      | nil => simp [neighbours]
      | cons b l' => simp [neighbours, Prod.ext_iff, eq_comm]
    | cons b rest =>
      simp only [List.cons_append, neighbours_cons_cons, List.mem_cons, List.getLast?_cons_cons]
        at ih ⊢
      rw [ih]
      exact or_assoc.symm

end Neighbours

/-! ## Stretches -/

namespace Timeline

variable {l l' : List Stretch}

@[simp] theorem knownMillis_append :
    knownMillis (l ++ l') = knownMillis l + knownMillis l' := by
  simp [knownMillis]

@[simp] theorem unknownMillis_append :
    unknownMillis (l ++ l') = unknownMillis l + unknownMillis l' := by
  simp [unknownMillis]

theorem knownMillis_add_unknownMillis (l : List Stretch) :
    knownMillis l + unknownMillis l = (l.map (·.millis)).sum := by
  induction l with
  | nil => rfl
  | cons x rest ih =>
    rw [List.map_cons, List.sum_cons, ← ih]
    cases h : x.known <;> simp [knownMillis, unknownMillis, h] <;> omega

theorem knownMillis_nonneg (hnonneg : ∀ x ∈ l, 0 ≤ x.millis) : 0 ≤ knownMillis l := by
  refine List.sum_nonneg (List.forall_mem_map.2 ?_)
  exact fun x hx => hnonneg x (List.mem_of_mem_filter hx)

theorem unknownMillis_nonneg (hnonneg : ∀ x ∈ l, 0 ≤ x.millis) : 0 ≤ unknownMillis l := by
  refine List.sum_nonneg (List.forall_mem_map.2 ?_)
  exact fun x hx => hnonneg x (List.mem_of_mem_filter hx)

/-- Nothing is unknown just if each unknown stretch is empty. -/
theorem unknownMillis_eq_zero_iff (hnonneg : ∀ x ∈ l, 0 ≤ x.millis) :
    unknownMillis l = 0 ↔ ∀ x ∈ l, x.known = false → x.millis = 0 := by
  induction l with
  | nil => simp [unknownMillis]
  | cons x rest ih =>
    obtain ⟨hx, hrest⟩ := List.forall_mem_cons.1 hnonneg
    have hsum := unknownMillis_nonneg hrest
    rw [List.forall_mem_cons, ← ih hrest]
    cases h : x.known with
    | true => simp [unknownMillis, h]
    | false =>
      have hcons : unknownMillis (x :: rest) = x.millis + unknownMillis rest := by
        simp [unknownMillis, h]
      rw [hcons]
      constructor
      · intro hzero
        exact ⟨fun _ => by omega, by omega⟩
      · rintro ⟨hnone, hzero⟩
        rw [hnone rfl, hzero]
        rfl

end Timeline

/-! ## Coverage -/

namespace Coverage

variable {c : Coverage} {l : List Stretch} {floor ceiling : Timestamp} {heartbeat : Duration}
  {p s : Sample} {samples : List Sample}

/-- More of the bucket is known than not. -/
def MostlyKnown (c : Coverage) : Prop :=
  c.knownMillis ≠ 0 ∧ c.unknownMillis < c.knownMillis

theorem MostlyKnown.average (h : c.MostlyKnown) :
    c.average = c.weighted / Float.ofInt c.knownMillis := by
  obtain ⟨hsome, hmost⟩ := h
  exact if_neg (by omega)

/-- The coverage has been credited with these stretches since the bucket began. -/
structure Tells (c : Coverage) (l : List Stretch) : Prop where
  known : c.knownMillis = Timeline.knownMillis l
  unknown : c.unknownMillis = Timeline.unknownMillis l
  weighted : c.weighted = Timeline.weighted l

theorem Tells.credit (h : c.Tells l) (millis : Int) (known : Bool) (x : Float) :
    (c.credit millis known x).Tells (l ++ [⟨millis, known, x⟩]) := by
  obtain ⟨hk, hu, hw⟩ := h
  cases known with
  | true =>
    refine ⟨?_, ?_, ?_⟩
    · simp [Coverage.credit, Timeline.knownMillis, hk]
    · simp [Coverage.credit, Timeline.unknownMillis, hu]
    · simp [Coverage.credit, Timeline.weighted, hw]
  | false =>
    refine ⟨?_, ?_, ?_⟩
    · simp [Coverage.credit, Timeline.knownMillis, hk]
    · simp [Coverage.credit, Timeline.unknownMillis, hu]
    · simp [Coverage.credit, Timeline.weighted, hw]

theorem Tells.attach (h : c.Tells l) (s : Sample) : (c.attach s).Tells l :=
  ⟨h.known, h.unknown, h.weighted⟩

theorem Tells.average (h : c.Tells l) : c.average = Timeline.average l := by
  obtain ⟨hk, hu, hw⟩ := h
  unfold Coverage.average Timeline.average
  rw [hk, hu, hw]
  exact if_congr (by omega) rfl rfl

/-- The stretch that a sample ends, from its predecessor or from the beginning of the bucket on. -/
def stretch? (floor : Timestamp) (heartbeat : Duration) (q : Sample × Sample) : Option Stretch :=
  let lower := q.1.timestamp.later floor
  if lower < q.2.timestamp then
    some ⟨q.2.timestamp.millisSince lower, isKnown q.2.timestamp q.1.timestamp heartbeat,
      q.2.value.number⟩
  else none

theorem stretch?_of_lt {q : Sample × Sample} (h : q.1.timestamp.later floor < q.2.timestamp)
    (heartbeat : Duration) :
    stretch? floor heartbeat q =
      some ⟨q.2.timestamp.millisSince (q.1.timestamp.later floor),
        isKnown q.2.timestamp q.1.timestamp heartbeat, q.2.value.number⟩ :=
  if_pos h

theorem stretch?_of_not_lt {q : Sample × Sample}
    (h : ¬ q.1.timestamp.later floor < q.2.timestamp) (heartbeat : Duration) :
    stretch? floor heartbeat q = none :=
  if_neg h

/-- The stretches that samples end, each of them the predecessor of the next. -/
def stretches (floor : Timestamp) (heartbeat : Duration) (samples : List Sample) : List Stretch :=
  (neighbours samples).filterMap (stretch? floor heartbeat)

theorem mem_stretches_iff {x : Stretch} : x ∈ stretches floor heartbeat samples ↔
    ∃ q ∈ neighbours samples, q.1.timestamp.later floor < q.2.timestamp ∧
      (⟨q.2.timestamp.millisSince (q.1.timestamp.later floor),
        isKnown q.2.timestamp q.1.timestamp heartbeat, q.2.value.number⟩ : Stretch) = x := by
  simp only [stretches, stretch?, List.mem_filterMap, Option.ite_none_right_eq_some,
    Option.some.injEq]

theorem stretches_cons_cons (floor : Timestamp) (heartbeat : Duration) (p s : Sample)
    (samples : List Sample) :
    stretches floor heartbeat (p :: s :: samples) =
      (stretch? floor heartbeat (p, s)).toList ++ stretches floor heartbeat (s :: samples) := by
  rw [stretches, neighbours_cons_cons, List.filterMap_cons]
  cases stretch? floor heartbeat (p, s) <;> rfl

/-- A sample that has a predecessor adds the stretch that it ends. -/
theorem Tells.advance (h : c.Tells l) (heartbeat : Duration) (hlast : c.last = some p.timestamp)
    (s : Sample) :
    (c.advance floor heartbeat s).Tells (l ++ (stretch? floor heartbeat (p, s)).toList) := by
  have hcredit := h.credit (s.timestamp.millisSince (p.timestamp.later floor))
    (isKnown s.timestamp p.timestamp heartbeat) s.value.number
  unfold Coverage.advance stretch?
  rw [hlast]
  by_cases hlower : p.timestamp.later floor < s.timestamp
  · simp only [if_pos hlower, Option.toList_some]
    split
    · exact ⟨hcredit.known, hcredit.unknown, hcredit.weighted⟩
    · exact ⟨hcredit.known, hcredit.unknown, hcredit.weighted⟩
  · simp only [if_neg hlower, Option.toList_none, List.append_nil]
    split
    · exact ⟨h.known, h.unknown, h.weighted⟩
    · exact ⟨h.known, h.unknown, h.weighted⟩

/-- The induction runs over the samples behind `p`, each of them the predecessor of the next. -/
theorem Tells.foldl (h : c.Tells l) (hlast : c.last = some p.timestamp) (samples : List Sample) :
    (samples.foldl (fun c s => c.advance floor heartbeat s) c).Tells
      (l ++ stretches floor heartbeat (p :: samples)) := by
  induction samples generalizing c l p with
  | nil => simpa [stretches, neighbours] using h
  | cons s samples ih =>
    have hstep : (c.advance floor heartbeat s).Tells _ := h.advance heartbeat hlast s
    have hrun := ih hstep last_advance
    rw [List.append_assoc, ← stretches_cons_cons] at hrun
    exact hrun

/-- The very first sample ends no stretch. -/
theorem tells_foldl_empty (floor : Timestamp) (heartbeat : Duration) (samples : List Sample) :
    (samples.foldl (fun c s => c.advance floor heartbeat s) ({} : Coverage)).Tells
      (stretches floor heartbeat samples) := by
  cases samples with
  | nil => exact ⟨rfl, rfl, rfl⟩
  | cons p samples =>
    have hfirst : ({ last := some p.timestamp } : Coverage).Tells [] := ⟨rfl, rfl, rfl⟩
    exact hfirst.foldl rfl samples

/-- The stretches follow each other without a gap, from the first sample or the beginning of the
bucket, whichever is later, to the last sample. -/
theorem sum_stretches (floor : Timestamp) (heartbeat : Duration)
    (hsorted : (p :: samples).Pairwise fun s s' => s.timestamp < s'.timestamp)
    (hlast : (p :: samples).getLast? = some s) :
    ((stretches floor heartbeat (p :: samples)).map (·.millis)).sum =
      max s.timestamp.millis floor.millis - max p.timestamp.millis floor.millis := by
  induction samples generalizing p with
  | nil =>
    obtain rfl : p = s := by simpa using hlast
    simp [stretches, neighbours]
  | cons next rest ih =>
    obtain ⟨hfirst, hsorted⟩ := List.pairwise_cons.1 hsorted
    have hlt := hfirst next List.mem_cons_self
    have hmono := Timestamp.millis_le_millis (Int.le_of_lt hlt)
    rw [List.getLast?_cons_cons] at hlast
    rw [stretches_cons_cons, List.map_append, List.sum_append, ih hsorted hlast]
    by_cases hlower : p.timestamp.later floor < next.timestamp
    · have hfloor : floor ≤ next.timestamp := by
        rw [Timestamp.lt_iff, Timestamp.nanos_later] at hlower
        rw [Timestamp.le_iff]
        omega
      have hmono' := Timestamp.millis_le_millis hfloor
      simp only [stretch?, if_pos hlower, Option.toList_some, List.map_singleton,
        List.sum_singleton, Timestamp.millisSince, Timestamp.millis_later]
      omega
    · have hfloor : next.timestamp ≤ floor := by
        rw [Timestamp.lt_iff, Timestamp.nanos_later] at hlower
        rw [Timestamp.lt_iff] at hlt
        rw [Timestamp.le_iff]
        omega
      have hmono' := Timestamp.millis_le_millis hfloor
      simp only [stretch?, if_neg hlower, Option.toList_none, List.map_nil, List.sum_nil]
      omega

theorem last_foldl (samples : List Sample) :
    (samples.foldl (fun c s => c.advance floor heartbeat s) c).last =
      (samples.getLast?.map (·.timestamp)).or c.last := by
  rcases List.eq_nil_or_concat samples with rfl | ⟨samples, s, rfl⟩
  · rfl
  · simp [last_advance]

end Coverage

/-! ## Closing a bucket -/

section Close

variable {ds : Datasource} {rows : List (Row Value)} {floor ceiling : Timestamp}

theorem samplesOf_upTo_subset (metric : String) (c : Timestamp) (rows : List (Row Value)) :
    samplesOf metric (Row.upTo c rows) ⊆ samplesOf metric rows :=
  List.filterMap_subset _ (Row.upTo_subset c rows)

theorem Track.absorb_eq_foldl (t : Track) (floor : Timestamp) :
    t.absorb floor rows =
      { t with
        coverage := (samplesOf t.datasource.source rows).foldl
          (fun c s => c.advance floor t.datasource.heartbeat s) t.coverage } := by
  induction rows generalizing t with
  | nil => rfl
  | cons row rest ih =>
    rw [Track.absorb_cons, ih]
    cases hs : row.get? t.datasource.source with
    | none => simp [Track.advance_of_none hs, samplesOf, hs]
    | some s => simp [Track.advance_of_get? hs, samplesOf, hs]

theorem last_absorb (ds : Datasource) (floor : Timestamp) (rows : List (Row Value)) :
    ((⟨ds, {}⟩ : Track).absorb floor rows).coverage.last =
    (samplesOf ds.source rows).getLast?.map (·.timestamp) := by
  rw [Track.absorb_eq_foldl, Coverage.last_foldl, Option.or_none]

theorem tells_absorb (ds : Datasource) (floor : Timestamp) (rows : List (Row Value)) :
    ((⟨ds, {}⟩ : Track).absorb floor rows).coverage.Tells
      (Coverage.stretches floor ds.heartbeat (samplesOf ds.source rows)) := by
  rw [Track.absorb_eq_foldl]
  exact Coverage.tells_foldl_empty floor ds.heartbeat _

/-- The stretch behind the last sample of the bucket. -/
def CarryOver.stretches (floor ceiling last : Timestamp) (heartbeat : Duration) :
    CarryOver → List Stretch
  | found s =>
    [⟨ceiling.millisSince (last.later floor), Coverage.isKnown s.timestamp last heartbeat,
      s.value.number⟩]
  | stale => [⟨ceiling.millisSince (last.later floor), false, unknown⟩]
  | ended => []

/-- All stretches that a datasource is credited with in a bucket. -/
def Datasource.stretches (ds : Datasource) (floor ceiling : Timestamp) (rows : List (Row Value)) :
    List Stretch :=
  let samples := samplesOf ds.source (Row.upTo ceiling rows)
  Coverage.stretches floor ds.heartbeat samples ++
    match samples.getLast? with
    | none => []
    | some last =>
      if ceiling ≤ last.timestamp then []
      else
        (CarryOver.among ds.source (last.timestamp + ds.heartbeat)
          (Row.after ceiling rows)).stretches floor ceiling last.timestamp ds.heartbeat

/-- The bucket ends behind its beginning, and the heartbeats that begin with samples can be
counted. -/
structure Datasource.BucketFits (ds : Datasource) (floor ceiling : Timestamp)
    (rows : List (Row Value)) : Prop where
  lt : floor < ceiling
  horizons : ∀ s ∈ samplesOf ds.source rows, s.timestamp.AddFits ds.heartbeat

/-- No stretch runs backwards. -/
theorem Datasource.BucketFits.millis_nonneg (h : ds.BucketFits floor ceiling rows) :
    ∀ x ∈ ds.stretches floor ceiling rows, 0 ≤ x.millis := by
  have hspan {p t : Timestamp} (hpt : p ≤ t) (hft : floor ≤ t) :
      0 ≤ t.millisSince (p.later floor) := by
    have := Timestamp.millis_le_millis hpt
    have := Timestamp.millis_le_millis hft
    rw [Timestamp.millisSince, Timestamp.millis_later]
    omega
  intro x hx
  rcases List.mem_append.1 hx with hx | hx
  · obtain ⟨q, hq, hlt, rfl⟩ := Coverage.mem_stretches_iff.1 hx
    rw [Timestamp.lt_iff, Timestamp.nanos_later] at hlt
    exact hspan (Timestamp.le_iff.2 (by omega)) (Timestamp.le_iff.2 (by omega))
  · cases hlast : (samplesOf ds.source (Row.upTo ceiling rows)).getLast? with
    | none => simp [hlast] at hx
    | some last =>
      rw [hlast] at hx
      dsimp only at hx
      split at hx
      · cases hx
      · rename_i hle
        have hrest := hspan (Int.le_of_lt (Int.not_le.1 hle)) (Int.le_of_lt h.lt)
        unfold CarryOver.stretches at hx
        split at hx
        · exact List.mem_singleton.1 hx ▸ hrest
        · exact List.mem_singleton.1 hx ▸ hrest
        · cases hx

/-- A bucket that is closed tells all that its datasource is credited with. -/
theorem Track.tells_stretches (ds : Datasource) (floor ceiling : Timestamp)
    (rows : List (Row Value)) :
    ((⟨ds, {}⟩ : Track).close floor ceiling rows).coverage.Tells
      (ds.stretches floor ceiling rows) := by
  have htells := tells_absorb ds floor (Row.upTo ceiling rows)
  have hlast := last_absorb ds floor (Row.upTo ceiling rows)
  have hds : ((⟨ds, {}⟩ : Track).absorb floor (Row.upTo ceiling rows)).datasource = ds :=
    datasource_absorb
  rw [close, complete, hlast, Datasource.stretches]
  cases hend : (samplesOf ds.source (Row.upTo ceiling rows)).getLast? with
  | none => simpa [hend] using htells
  | some last =>
    simp only [Option.map_some]
    split
    · simpa using htells
    · unfold Resampling.carry
      rw [hds]
      cases CarryOver.among ds.source (last.timestamp + ds.heartbeat) (Row.after ceiling rows) with
      | found s => exact (htells.credit _ _ _).attach s
      | stale => exact htells.credit _ false unknown
      | ended => simpa [CarryOver.stretches] using htells

end Close

end Telemetry
