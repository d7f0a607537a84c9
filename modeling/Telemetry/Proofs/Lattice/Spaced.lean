import Telemetry.Proofs.Lattice.Pulls
import Telemetry.Proofs.Time.Spacing

/-!
# Walks within the range of a count

As long as no pull leaves the range of a count, `StepsFit`, a walk yields the instants one interval
apart from its first one up to its goal, and nothing behind them. In which units the ends and the
interval are given plays no part.
-/

namespace Telemetry

namespace Lattice

variable {l : Lattice} {t : Timestamp} {n : Nat}

/-! ## Steps within range -/

/-- The instant that follows `t` on the walk is worked out exactly. -/
def StepFits (l : Lattice) (t : Timestamp) : Prop :=
  if l.reversed then t.SubFits l.interval else t.AddFits l.interval

instance (l : Lattice) (t : Timestamp) : Decidable (l.StepFits t) :=
  inferInstanceAs (Decidable (ite _ _ _))

/-- No pull of the walk leaves the range of a count. -/
def StepsFit (l : Lattice) : Prop :=
  ∀ n t, l.pull? n = some t → l.StepFits t

theorem StepsFit.of_mem_take (h : l.StepsFit) : ∀ t ∈ l.take n, l.StepFits t := by
  intro t ht
  rw [take_eq] at ht
  obtain ⟨i, -, hi⟩ := List.mem_filterMap.1 ht
  exact h i t hi

theorem along_moved (h : l.StepFits t) : l.along (l.moved t) = l.along t + l.interval.nanos := by
  unfold StepFits at h
  unfold along moved
  split at h
  · rw [if_pos ‹_›, if_pos ‹_›, if_pos ‹_›, Timestamp.nanos_sub h]
    omega
  · rw [if_neg ‹_›, if_neg ‹_›, if_neg ‹_›, Timestamp.nanos_add h]

theorem along_following? (hd : 0 < l.interval.nanos) (h : l.StepFits t) :
    (l.following? t).map l.along =
      if l.along t + l.interval.nanos ≤ l.along l.goal then some (l.along t + l.interval.nanos)
      else none := by
  have hzero := Duration.nanos_pos_iff.1 hd
  rw [following?_eq, if_neg hzero, ← along_moved h]
  split <;> rfl

/-! ## What is yielded -/

section Yielded

variable (hd : 0 < l.interval.nanos) (hcur : l.current = some t)
include hd hcur

/-- The induction runs over the pulls; each looks at what the one before it has yielded. -/
theorem along_pull? (hle : l.along t ≤ l.along l.goal)
    (hfits : ∀ i < n, ∀ s, l.pull? i = some s → l.StepFits s) :
    (l.pull? n).map l.along =
      if (n : Int) ≤ (l.along l.goal - l.along t) / l.interval.nanos then
        some (l.along t + n * l.interval.nanos)
      else none := by
  induction n with
  | zero =>
    have hq : 0 ≤ (l.along l.goal - l.along t) / l.interval.nanos :=
      Int.ediv_nonneg (by omega) hd.le
    rw [pull?_zero, hcur, if_pos (by simpa using hq)]
    simp
  | succ n ih =>
    specialize ih fun i hi => hfits i (by omega)
    rw [pull?_succ]
    cases hn : l.pull? n with
    | none =>
      rw [hn, Option.map_none] at ih
      split at ih
      · cases ih
      · rw [if_neg (by omega), Option.bind_none, Option.map_none]
    | some s =>
      rw [hn, Option.map_some] at ih
      split at ih
      · have hs : l.along s = l.along t + n * l.interval.nanos := Option.some.inj ih
        have hnext : (n + 1 : Nat) * l.interval.nanos =
            n * l.interval.nanos + l.interval.nanos := by
          push_cast
          ring
        rw [Option.bind_some, along_following? hd (hfits n (by omega) s hn), hs, hnext,
          ← Int.add_assoc]
        refine if_congr ?_ rfl rfl
        rw [Int.le_ediv_iff_mul_le hd, hnext]
        omega
      · cases ih

theorem map_along_take (hle : l.along t ≤ l.along l.goal) (hfits : ∀ s ∈ l.take n, l.StepFits s)
    (hn : (l.along l.goal - l.along t) / l.interval.nanos < n) :
    (l.take n).map l.along = spaced (l.along t) (l.along l.goal) l.interval.nanos := by
  have hq : 0 ≤ (l.along l.goal - l.along t) / l.interval.nanos :=
    Int.ediv_nonneg (by omega) hd.le
  obtain ⟨k, hk⟩ := Int.eq_ofNat_of_zero_le hq
  rw [take_eq] at hfits ⊢
  have hpull : ∀ i ∈ List.range n, (l.pull? i).map l.along =
      if i < k + 1 then some (l.along t + i * l.interval.nanos) else none := by
    intro i hi
    have hprefix : ∀ j < i, ∀ s, l.pull? j = some s → l.StepFits s := fun j hj s hs =>
      hfits s (List.mem_filterMap.2 ⟨j, List.mem_range.2 (hj.trans (List.mem_range.1 hi)), hs⟩)
    rw [along_pull? hd hcur hle hprefix, hk]
    exact if_congr (by omega) rfl rfl
  obtain ⟨m, rfl⟩ : ∃ m, n = k + 1 + m := ⟨n - (k + 1), by omega⟩
  have hcount : ((l.along l.goal - l.along t) / l.interval.nanos + 1).toNat = k + 1 := by omega
  have hrest : ∀ i ∈ (List.range m).map (k + 1 + ·),
      (if i < k + 1 then some (l.along t + i * l.interval.nanos) else none) = none := by
    intro i hi
    obtain ⟨j, -, rfl⟩ := List.mem_map.1 hi
    exact if_neg (by omega)
  have hfirst : ∀ i ∈ List.range (k + 1),
      (if i < k + 1 then some (l.along t + i * l.interval.nanos) else none) =
        some (l.along t + i * l.interval.nanos) :=
    fun i hi => if_pos (List.mem_range.1 hi)
  rw [List.map_filterMap, List.filterMap_congr hpull, List.range_add, List.filterMap_append,
    List.filterMap_eq_nil_iff.2 hrest, List.append_nil, List.filterMap_congr hfirst, spaced, hcount]
  exact congrFun List.filterMap_eq_map _

end Yielded

theorem count_of_current (hd : 0 < l.interval.nanos) (hcur : l.current = some t) :
    l.count = ((l.along l.goal - l.along t) / l.interval.nanos).toNat + 1 := by
  have hzero := Duration.nanos_pos_iff.1 hd
  obtain ⟨interval, start, finish, current, reversed⟩ := l
  obtain rfl : current = some t := hcur
  cases reversed with
  | false => exact if_neg hzero
  | true =>
    refine (if_neg hzero).trans ?_
    simp only [along, goal, if_true, neg_sub_neg]

/-- Over a range that is not inverted, a walk in steps of some length yields the instants that lie
whole steps behind its first one, up to the last of them within the range, and then nothing any
more; whether there is one left is told before each pull. Where the range is a whole number of steps
long, the walk downwards yields what the walk upwards does, the other way round. -/
theorem pulls_spaced {start finish : Timestamp} {interval : Duration} (hle : start ≤ finish)
    (hpos : 0 < interval.nanos) :
    let up := ascending start finish interval
    let down := descending start finish interval
    let last := (finish.nanos - start.nanos) / interval.nanos
    (up.StepsFit → ∀ n : Nat, (up.pull? n).map (·.nanos) =
      if (n : Int) ≤ last then some (start.nanos + n * interval.nanos) else none) ∧
    (down.StepsFit → ∀ n : Nat, (down.pull? n).map (·.nanos) =
      if (n : Int) ≤ last then some (finish.nanos - n * interval.nanos) else none) ∧
    (∀ l ∈ [up, down], ∀ n, (l.after n).hasNext = (l.pull? n).isSome) ∧
    (up.StepsFit → down.StepsFit → interval.nanos ∣ finish.nanos - start.nanos →
      ∀ n : Nat, last < n →
        (down.take n).map (·.nanos) = ((up.take n).map (·.nanos)).reverse) := by
  intro up down last
  have hup : up.current = some start := if_pos hle
  have hdown : down.current = some finish := if_pos hle
  have hle' : -finish.nanos ≤ -start.nanos := Int.neg_le_neg hle
  have hlast : (-start.nanos - -finish.nanos) / interval.nanos = last := by
    rw [neg_sub_neg]
  refine ⟨?upwards, ?downwards, fun l _ n => hasNext_after l n, ?reversed⟩
  case upwards =>
    intro hfits n
    exact along_pull? (l := up) hpos hup hle fun i _ s hs => hfits i s hs
  case downwards =>
    intro hfits n
    have hpull : (down.pull? n).map (fun t => -t.nanos) =
        if (n : Int) ≤ (-start.nanos - -finish.nanos) / interval.nanos then
          some (-finish.nanos + n * interval.nanos)
        else none :=
      along_pull? (l := down) hpos hdown hle' fun i _ s hs => hfits i s hs
    rw [hlast] at hpull
    have hneg := congrArg (Option.map (- ·)) hpull
    rw [Option.map_map, apply_ite (Option.map _)] at hneg
    simpa [Function.comp_def, sub_eq_neg_add] using hneg
  case reversed =>
    intro hfitsUp hfitsDown hdvd n hn
    have hforth : (up.take n).map (·.nanos) = spaced start.nanos finish.nanos interval.nanos :=
      map_along_take (l := up) hpos hup hle hfitsUp.of_mem_take hn
    have hback : (down.take n).map (fun t => -t.nanos) =
        spaced (-finish.nanos) (-start.nanos) interval.nanos :=
      map_along_take (l := down) hpos hdown hle' hfitsDown.of_mem_take (hlast.trans_lt hn)
    have hneg := congrArg (List.map (- ·)) hback
    rw [← reverse_spaced hdvd, ← hforth, List.map_map] at hneg
    simpa [Function.comp_def] using hneg

/-- Half seconds across the epoch, each of the three times given in a unit of its own. -/
theorem pulls_spaced_acrossEpoch :
    let start : Timestamp := .ofTicks (-1500) .milliseconds
    let finish : Timestamp := .ofTicks 1 .seconds
    let interval : Duration := .ofTicks 500000 .microseconds
    let up := ascending start finish interval
    let down := descending start finish interval
    start ≤ finish ∧ 0 < interval.nanos ∧ up.StepsFit ∧ down.StepsFit ∧
      interval.nanos ∣ finish.nanos - start.nanos ∧
      (up.pull? 5).map (·.nanos) = some 1000000000 ∧ (up.pull? 6).map (·.nanos) = none ∧
      (down.pull? 3).map (·.nanos) = some (-500000000) ∧ (down.after 6).hasNext = false ∧
      (down.take 6).map (·.nanos) = ((up.take 6).map (·.nanos)).reverse := by
  intro start finish interval up down
  have hle : start ≤ finish := by decide
  have hpos : 0 < interval.nanos := by decide
  have hup : up.StepsFit := forall_pull?_of_take (n := 6) (by decide) (by decide)
  have hdown : down.StepsFit := forall_pull?_of_take (n := 6) (by decide) (by decide)
  have hdvd : interval.nanos ∣ finish.nanos - start.nanos := by decide
  obtain ⟨hforth, hback, hleft, hreversed⟩ := pulls_spaced hle hpos
  refine ⟨hle, hpos, hup, hdown, hdvd, hforth hup 5, hforth hup 6, hback hdown 3, ?_,
    hreversed hup hdown hdvd 6 (by decide)⟩
  exact (hleft down (by simp [down]) 6).trans (by decide)

end Lattice

end Telemetry
