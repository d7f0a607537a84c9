import Telemetry.Proofs.Number.Magnitude
import Telemetry.Proofs.Rates.Repeated
import Telemetry.Proofs.Value

/-!
# Counters that went backwards

Where a counter went backwards, one policy rates what it has gained since, the other says that
nothing is known. Both remember the same of every metric, so nothing else tells the two apart, and
what comes after a wrap is the same again. The rate across a wrap is a positive number of any span
that can be counted; only the counter that lies a full turn of 32 bits behind is rated at zero.
-/

namespace Telemetry.Feed

open Number

variable {s : Sample} {p : Sighting}

/-! ## The rate across a wrap -/

/-- Time goes by from the one instant to the other, and it can be counted. -/
def Elapses (earlier t : Timestamp) : Prop :=
  earlier < t ∧ t.SinceFits earlier

instance (earlier t : Timestamp) : Decidable (Elapses earlier t) :=
  inferInstanceAs (Decidable (_ ∧ _))

theorem ratePerSecond_wrap (s : Sample) (p : Sighting) :
    ratePerSecond .wrap s (some p) = unknown ∧ ¬ Elapses p.timestamp s.timestamp ∨
      ∃ span : Duration, span.isZero = false ∧
        ratePerSecond .wrap s (some p) = (s.value.delta p.value).number / span.toSeconds := by
  by_cases hknown : ∃ span, s.timestamp.since? p.timestamp = some span ∧ span.isZero = false
  · obtain ⟨span, hspan, hzero⟩ := hknown
    exact .inr ⟨span, hzero, by simp [ratePerSecond, hspan, hzero]⟩
  · refine .inl ⟨?_, ?_⟩
    · cases hspan : s.timestamp.since? p.timestamp with
      | none => simp [ratePerSecond, hspan]
      | some span =>
        have hzero : span.isZero = true := by
          by_contra hne
          exact hknown ⟨span, hspan, by simpa using hne⟩
        simp [ratePerSecond, hspan, hzero]
    · rintro ⟨hlt, hfits⟩
      obtain ⟨span, hspan, hnanos, -⟩ := Timestamp.nanos_since? (Int.le_of_lt hlt) hfits
      exact hknown ⟨span, hspan, Timestamp.isZero_eq_of_lt hlt hnanos⟩

/-- What a counter is rated at that moved back: never at zero, but for a full turn. -/
inductive RateAcross (s : Sample) (p : Sighting) : Float → Prop
  | unknown (h : ¬ Elapses p.timestamp s.timestamp) : RateAcross s p unknown
  | fullTurn (h : s.value.FullTurn p.value) : RateAcross s p 0
  | gained {x : Float} (h : ¬ s.value.FullTurn p.value) (hx : 0 < x) : RateAcross s p x

theorem pos_of_gain {v previous : Value} {span : Duration} (h : v.MovedBack previous)
    (hgain : ¬ v.FullTurn previous) (hspan : span.isZero = false) :
    0 < (v.delta previous).number / span.toSeconds := by
  have hnumber := within_toFloat ((Value.word_delta_pos_iff h).2 hgain)
  rw [Value.number_delta h.1]
  exact (hnumber.div (Duration.within_toSeconds hspan) (by decide) (by decide)).pos

theorem zero_of_fullTurn {v previous : Value} {span : Duration} (h : v.MovedBack previous)
    (hturn : v.FullTurn previous) (hspan : span.isZero = false) :
    (v.delta previous).number / span.toSeconds = 0 := by
  have hword : (v.delta previous).word = 0 := by
    have hpos := (Value.word_delta_pos_iff h).not_left.2 hturn
    exact UInt64.toNat_inj.1 (by simpa using hpos)
  rw [Value.number_delta h.1, hword]
  exact zero_div (Duration.within_toSeconds hspan)

theorem rateAcross_ratePerSecond (h : s.value.MovedBack p.value) :
    RateAcross s p (ratePerSecond .wrap s (some p)) := by
  obtain ⟨hunknown, hnot⟩ | ⟨span, hspan, hquotient⟩ := ratePerSecond_wrap s p
  · rw [hunknown]
    exact .unknown hnot
  · rw [hquotient]
    by_cases hturn : s.value.FullTurn p.value
    · rw [zero_of_fullTurn h hturn hspan]
      exact .fullTurn hturn
    · exact .gained hturn (pos_of_gain h hturn hspan)

theorem rated_of_wraps {policy : CounterWrap} {last : Option Sighting}
    (h : s.value.kind.wraps = true) :
    rated policy s last = { s with value := .gauge (ratePerSecond policy s last) } := by
  rw [rated, if_pos (MetricKind.accumulates_of_wraps h)]

/-- A counter that is seen to move back twice: short of a turn of 32 bits, and by a full one. -/
def turningCounter : Feed Value :=
  let row (t : Int) (w : UInt64) : Row Value :=
    (Row.empty (.ofTicks t .seconds) "host").insert
      ⟨.ofTicks t .seconds, "host", "cpu", .counter w, none⟩
  [.ok (row 0 0x100000005), .ok (row 2 7), .ok (row 3 0x100000003), .ok (row 4 3)]

/-- A sample under both policies, where `last?` is the latest earlier sample of its metric: nothing
is known under the second if the counter moved back, and a number is given under the first if time
went by; all else is the same. -/
inductive Parted (last? : Option Sample) (s r : Sample) : Sample → Prop
  | same (h : ∀ p ∈ last?, ¬ s.value.MovedBack p.value) : Parted last? s r r
  | movedBack {p : Sample} (hp : p ∈ last?) (h : s.value.MovedBack p.value)
      (hr : Elapses p.timestamp s.timestamp → r.value.isUnknown = false) :
      Parted last? s r { r with value := .gauge unknown }

/-- The rows that the two policies answer a row with. -/
structure RowParted (metrics : List String) (earlier : List (Row Value))
    (row wrapped unknown : Row Value) : Prop where
  timestamp_eq : wrapped.timestamp = row.timestamp ∧ unknown.timestamp = row.timestamp
  resource_eq : wrapped.resource = row.resource ∧ unknown.resource = row.resource
  names_eq : wrapped.names = metrics.eraseDups.filter (· ∈ row.names)
  readings : List.Forall₂ (fun r r' => ∃ s, row.get? r.name = some s ∧
    Parted (samplesOf r.name earlier).getLast? s r r') wrapped.readings unknown.readings

/-- The two policies answer each item alike, errors by the same error. -/
structure FeedParted (metrics : List String) (feed wrapped unknown : Feed Value) : Prop where
  length_eq : wrapped.length = feed.length ∧ unknown.length = feed.length
  errors : ∀ (i : Nat) (e : QueryError), feed[i]? = some (.error e) →
    wrapped[i]? = some (.error e) ∧ unknown[i]? = some (.error e)
  rows : ∀ (i : Nat) (row : Row Value), feed[i]? = some (.ok row) →
    ∃ w u, wrapped[i]? = some (.ok w) ∧ unknown[i]? = some (.ok u) ∧
      RowParted metrics (rowsOf (feed.take i)) row w u

theorem RateAcross.isNaN_eq {x : Float} (h : RateAcross s p x)
    (helapses : Elapses p.timestamp s.timestamp) : x.isNaN = false := by
  cases h with
  | unknown h => exact absurd helapses h
  | fullTurn => decide
  | gained _ hx => exact isNaN_eq_of_pos hx

theorem ratePerSecond_of_not_wrapped (h : s.value.wrapped p.value = false) :
    ratePerSecond .unknown s (some p) = ratePerSecond .wrap s (some p) := by
  simp [ratePerSecond, h]

theorem parted_rated (last? : Option Sample) (s : Sample) :
    Parted last? s (rated .wrap s (last?.map fun p => ⟨p.timestamp, p.value⟩))
      (rated .unknown s (last?.map fun p => ⟨p.timestamp, p.value⟩)) := by
  cases last? with
  | none =>
    have hrated : rated .unknown s none = rated .wrap s none := by
      unfold rated ratePerSecond
      rfl
    rw [Option.map_none, hrated]
    exact .same (by simp)
  | some p =>
    let q : Sighting := ⟨p.timestamp, p.value⟩
    by_cases h : s.value.MovedBack p.value
    · have hunknown : ratePerSecond .unknown s (some q) = unknown :=
        ratePerSecond_of_wrapped (Value.wrapped_iff.2 h)
      have hnumber : RateAcross s q (ratePerSecond .wrap s (some q)) := rateAcross_ratePerSecond h
      rw [Option.map_some, rated_of_wraps h.1, rated_of_wraps h.1, hunknown]
      refine .movedBack rfl h ?_
      intro helapses
      exact hnumber.isNaN_eq helapses
    · have hwrapped : s.value.wrapped q.value = false := by
        rwa [← Bool.not_eq_true, Value.wrapped_iff]
      have hrated : rated .unknown s (some q) = rated .wrap s (some q) := by
        rw [rated, rated, ratePerSecond_of_not_wrapped hwrapped]
      rw [Option.map_some, hrated]
      refine .same ?_
      rintro _ ⟨⟩
      exact h

/-- Both policies find the same samples under the tracked metrics. -/
theorem forall₂_rates {R : Sample → Sample → Prop} (tracked : List Tracked) (samples : List Sample)
    (h : ∀ t ∈ tracked, ∀ s, samples.find? (·.name = t.metric) = some s →
      R (rated .wrap s t.last) (rated .unknown s t.last)) :
    List.Forall₂ R (tracked.filterMap (·.rate? .wrap samples))
      (tracked.filterMap (·.rate? .unknown samples)) := by
  induction tracked with
  | nil => exact .nil
  | cons t rest ih =>
    obtain ⟨ht, hrest⟩ := List.forall_mem_cons.1 h
    cases hfind : samples.find? (·.name = t.metric) with
    | none => simpa [Tracked.rate?, hfind] using ih hrest
    | some s => simpa [Tracked.rate?, hfind] using ⟨ht s hfind, ih hrest⟩

theorem rowParted_rateRow (metrics : List String) (earlier : List (Row Value)) (row : Row Value) :
    RowParted metrics earlier row
      (rateRow .wrap (metrics.eraseDups.map (trackedAfter earlier)) row).1
      (rateRow .unknown (metrics.eraseDups.map (trackedAfter earlier)) row).1 := by
  have hnodup := nodup_trackedAfter (nodup_eraseDups metrics) earlier
  have hnames (policy : CounterWrap) := hnodup.sublist (names_rates_sublist policy _ row.readings)
  rw [rateRow_eq hnodup, rateRow_eq hnodup]
  refine ⟨⟨Row.timestamp_insertAll, Row.timestamp_insertAll⟩,
    ⟨Row.resource_insertAll, Row.resource_insertAll⟩, ?names, ?readings⟩
  case names =>
    rw [Row.names, Row.readings_insertAll_empty _ _ (hnames _), names_rates,
      metric_trackedAfter]
    rfl
  case readings =>
    rw [Row.readings_insertAll_empty _ _ (hnames _), Row.readings_insertAll_empty _ _ (hnames _)]
    refine forall₂_rates _ _ ?_
    intro t ht s hs
    obtain ⟨metric, -, rfl⟩ := List.mem_map.1 ht
    have hfound := List.find?_some hs
    obtain rfl : s.name = metric := of_decide_eq_true hfound
    rw [name_rated]
    exact ⟨s, hs, parted_rated _ s⟩

end Telemetry.Feed
