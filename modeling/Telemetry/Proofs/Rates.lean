import Mathlib.Data.List.Induction
import Telemetry.Proofs.Feed
import Telemetry.Proofs.Points.Timeline
import Telemetry.Proofs.Selection
import Telemetry.Proofs.Time.Elapsed

/-!
# Rates against the latest earlier sample

A rate is taken against what its metric showed last, however many rows without the metric lie in
between and whatever became of that last sample itself. What is remembered of each metric while rows
go by is its latest sample; the rows before an item say what that is.
-/

namespace Telemetry

namespace Feed

variable {policy : CounterWrap} {metrics : List String} {row : Row Value} {feed : Feed Value}

/-! ## What a scan remembers -/

/-- An item is answered in the state that the rows before it have led to. -/
theorem getElem?_scanRows {α β σ : Type} (f : σ → Row α → Row β × σ) (s : σ) (feed : Feed α)
    (i : Nat) :
    (scanRows f s feed)[i]? = feed[i]?.map (Except.map fun row =>
      (f ((rowsOf (feed.take i)).foldl (fun s row => (f s row).2) s) row).1) := by
  induction feed generalizing s i with
  | nil => rfl
  | cons item rest ih =>
    cases item <;> cases i
    case ok.zero | error.zero => rfl
    case ok.succ row i => exact ih (f s row).2 i
    case error.succ e i => exact ih s i

/-- A metric as it is tracked after rows. -/
def trackedAfter (rows : List (Row Value)) (metric : String) : Tracked :=
  ⟨metric, (samplesOf metric rows).getLast?.map fun s => ⟨s.timestamp, s.value⟩⟩

theorem see_trackedAfter (rows : List (Row Value)) (row : Row Value) (metric : String) :
    (trackedAfter rows metric).see row.readings = trackedAfter (rows ++ [row]) metric := by
  unfold Tracked.see
  rw [trackedAfter, trackedAfter, samplesOf_concat, Row.get?]
  cases row.readings.find? (·.name = metric) <;> simp

theorem metric_trackedAfter (rows : List (Row Value)) (metrics : List String) :
    (metrics.map (trackedAfter rows)).map (·.metric) = metrics := by
  simp [Function.comp_def, trackedAfter]

theorem nodup_trackedAfter (h : metrics.Nodup) (rows : List (Row Value)) :
    ((metrics.map (trackedAfter rows)).map (·.metric)).Nodup := by
  rwa [metric_trackedAfter]

/-- What is remembered of each metric is its latest sample. -/
theorem foldl_rateRow (h : metrics.Nodup) (rows : List (Row Value)) :
    rows.foldl (fun tracked row => (rateRow policy tracked row).2)
      (metrics.map fun metric => ⟨metric, none⟩) = metrics.map (trackedAfter rows) := by
  induction rows using List.reverseRecOn with
  | nil => rfl
  | append_singleton rows row ih =>
    rw [List.foldl_concat, ih, rateRow_eq (nodup_trackedAfter h rows), List.map_map]
    exact List.map_congr_left fun metric _ => see_trackedAfter rows row metric

/-! ## Rates of samples, rows and feeds -/

/-- The rate of an accumulating sample where `last?` is the latest earlier sample of its metric.
The quotient is only claimed of instants whose distance is `Exact`. -/
structure RateIs (Exact : Timestamp → Timestamp → Prop) (policy : CounterWrap)
    (last? : Option Sample) (s : Sample) (x : Float) : Prop where
  first : last? = none → x = unknown
  not_later : ∀ p ∈ last?, ¬ p.timestamp < s.timestamp → x = unknown
  wrapped : ∀ p ∈ last?, policy = .unknown → s.value.wrapped p.value = true → x = unknown
  quotient : ∀ p ∈ last?, p.timestamp < s.timestamp → Exact s.timestamp p.timestamp →
    ¬ (policy = .unknown ∧ s.value.wrapped p.value = true) →
    ∃ span : Duration, span.nanos = s.timestamp.nanos - p.timestamp.nanos ∧
      span.unit = s.timestamp.unit.finest p.timestamp.unit ∧
      x = (s.value.delta p.value).number / span.toSeconds

/-- What becomes of a sample: a gauge stays as it is, and of anything else only the value changes,
into a gauge of its rate. -/
inductive RatedAs (Exact : Timestamp → Timestamp → Prop) (policy : CounterWrap)
    (last? : Option Sample) (s : Sample) : Sample → Prop
  | gauge (h : s.value.kind = .gauge) : RatedAs Exact policy last? s s
  | rate {x : Float} (h : s.value.kind ≠ .gauge) (hx : RateIs Exact policy last? s x) :
      RatedAs Exact policy last? s { s with value := .gauge x }

section
variable {s : Sample} {p : Sighting}

theorem ratePerSecond_of_not_lt (h : ¬ p.timestamp < s.timestamp) :
    ratePerSecond policy s (some p) = unknown := by
  cases hspan : s.timestamp.since? p.timestamp with
  | none => simp [ratePerSecond, hspan]
  | some span => simp [ratePerSecond, hspan, Timestamp.isZero_since? h hspan]

theorem ratePerSecond_of_wrapped (h : s.value.wrapped p.value = true) :
    ratePerSecond .unknown s (some p) = unknown := by
  cases hspan : s.timestamp.since? p.timestamp <;> simp [ratePerSecond, hspan, h]

theorem ratePerSecond_of_lt (hlt : p.timestamp < s.timestamp)
    (hfits : s.timestamp.SinceFits p.timestamp)
    (hwrap : ¬ (policy = .unknown ∧ s.value.wrapped p.value = true)) :
    ∃ span : Duration, span.nanos = s.timestamp.nanos - p.timestamp.nanos ∧
      span.unit = s.timestamp.unit.finest p.timestamp.unit ∧
      ratePerSecond policy s (some p) = (s.value.delta p.value).number / span.toSeconds := by
  obtain ⟨span, hspan, hnanos, hunit⟩ := Timestamp.nanos_since? (Int.le_of_lt hlt) hfits
  have hzero : span.isZero = false := Timestamp.isZero_eq_of_lt hlt hnanos
  refine ⟨span, hnanos, hunit, ?_⟩
  have hkeep : (s.value.wrapped p.value && decide (policy = .unknown)) = false := by
    simpa using fun hwrapped hpolicy => hwrap ⟨hpolicy, hwrapped⟩
  simp [ratePerSecond, hspan, hzero, hkeep]

end

theorem rateIs_ratePerSecond (policy : CounterWrap) (last? : Option Sample) (s : Sample) :
    RateIs Timestamp.SinceFits policy last? s
      (ratePerSecond policy s (last?.map fun p => ⟨p.timestamp, p.value⟩)) := by
  cases last? with
  | none => exact ⟨fun _ => rfl, by simp, by simp, by simp⟩
  | some p =>
    refine ⟨nofun, ?_, ?_, ?_⟩
    · rintro _ ⟨⟩ h
      exact ratePerSecond_of_not_lt (p := ⟨p.timestamp, p.value⟩) h
    · rintro _ ⟨⟩ rfl h
      exact ratePerSecond_of_wrapped (p := ⟨p.timestamp, p.value⟩) h
    · rintro _ ⟨⟩ hlt hfits hwrap
      exact ratePerSecond_of_lt (p := ⟨p.timestamp, p.value⟩) hlt hfits hwrap

theorem ratedAs_rated (policy : CounterWrap) (last? : Option Sample) (s : Sample) :
    RatedAs Timestamp.SinceFits policy last? s
      (rated policy s (last?.map fun p => ⟨p.timestamp, p.value⟩)) := by
  unfold rated
  split
  · rename_i hacc
    refine .rate (fun hkind => ?_) (rateIs_ratePerSecond policy last? s)
    rw [hkind] at hacc
    cases hacc
  · rename_i hacc
    refine .gauge ?_
    cases hkind : s.value.kind <;> simp_all [MetricKind.accumulates]

/-- The rated row: of the listed metrics those that the row has, in the order of the list. -/
structure RowRatedAs (Exact : Timestamp → Timestamp → Prop) (policy : CounterWrap)
    (metrics : List String) (earlier : List (Row Value)) (row out : Row Value) : Prop where
  timestamp_eq : out.timestamp = row.timestamp
  resource_eq : out.resource = row.resource
  readings : List.Forall₂
    (fun metric s' => ∃ s, row.get? metric = some s ∧
      RatedAs Exact policy (samplesOf metric earlier).getLast? s s')
    (metrics.filter (· ∈ row.names)) out.readings

theorem forall₂_filterMap {α β : Type} (g : α → Option β) (l : List α) :
    List.Forall₂ (fun a b => g a = some b) (l.filter fun a => (g a).isSome) (l.filterMap g) := by
  induction l with
  | nil => exact .nil
  | cons a as ih =>
    cases h : g a with
    | none => simpa [h] using ih
    | some b => simpa [h] using ih

theorem rowRatedAs_rateRow (h : metrics.Nodup) (earlier : List (Row Value)) (row : Row Value) :
    RowRatedAs Timestamp.SinceFits policy metrics earlier row
      (rateRow policy (metrics.map (trackedAfter earlier)) row).1 := by
  have hnodup := nodup_trackedAfter h earlier
  have hnames := hnodup.sublist (names_rates_sublist policy _ row.readings)
  rw [rateRow_eq hnodup]
  refine ⟨Row.timestamp_insertAll, Row.resource_insertAll, ?_⟩
  have hfilter : metrics.filter (· ∈ row.names) =
      metrics.filter fun metric =>
        ((trackedAfter earlier metric).rate? policy row.readings).isSome := by
    refine List.filter_congr fun metric _ => ?_
    rw [Tracked.isSome_rate?]
    rfl
  rw [Row.readings_insertAll_empty _ _ hnames, List.filterMap_map, hfilter]
  refine (forall₂_filterMap _ metrics).imp fun metric s' hs' => ?_
  obtain ⟨s, hs, rfl⟩ := Option.map_eq_some_iff.1 hs'
  exact ⟨s, hs, ratedAs_rated policy _ s⟩

/-- The rates of a feed: errors are kept in their places, and each row is rated against the rows
before it. -/
structure FeedRatedAs (Exact : Timestamp → Timestamp → Prop) (policy : CounterWrap)
    (metrics : List String) (feed out : Feed Value) : Prop where
  length_eq : out.length = feed.length
  errors : ∀ (i : Nat) (e : QueryError), feed[i]? = some (.error e) → out[i]? = some (.error e)
  rows : ∀ (i : Nat) (row : Row Value), feed[i]? = some (.ok row) →
    ∃ row', out[i]? = some (.ok row') ∧
      RowRatedAs Exact policy metrics (rowsOf (feed.take i)) row row'

theorem length_scanRows {α β σ : Type} (f : σ → Row α → Row β × σ) (s : σ) (feed : Feed α) :
    (scanRows f s feed).length = feed.length := by
  induction feed generalizing s with
  | nil => rfl
  | cons item rest ih =>
    cases item with
    | ok row => exact congrArg (· + 1) (ih _)
    | error e => exact congrArg (· + 1) (ih _)

/-- The counter is missing from the second row, and not told apart by an error behind it. -/
def sparseCounter : Feed Value :=
  [.ok ((Row.empty .epoch "host").insert ⟨.epoch, "host", "cpu", .counter 1, none⟩),
    .ok (Row.gauge (.ofTicks 1 .seconds) "host" "mem" 3),
    .error (.unreadable (.unavailable "offline")),
    .ok ((Row.empty (.ofTicks 2 .seconds) "host").insert
      ⟨.ofTicks 2 .seconds, "host", "cpu", .counter 5, some default⟩)]

/-- A counter that is seen at the last instant that can be counted in nanoseconds, and again at one
that cannot. -/
def farCounter : Feed Value :=
  let t : Timestamp := .ofTicks maxTicks .nanoseconds
  let t' : Timestamp := .ofTicks 200000 .days
  [.ok ((Row.empty t "host").insert ⟨t, "host", "cpu", .counter 1, none⟩),
    .ok ((Row.empty t' "host").insert ⟨t', "host", "cpu", .counter 2, none⟩)]

end Feed

end Telemetry
