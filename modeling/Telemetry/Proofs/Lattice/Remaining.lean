import Telemetry.Proofs.Lattice.Spaced
import Telemetry.Proofs.Number.Quotient
import Telemetry.Proofs.Time.Elapsed

/-!
# How much of a walk is left

How many instants a walk has left is told by a quotient of doubles, while the walk itself counts in
integers. As long as what is left of the range comes to fewer than `2 ^ 53` ticks, the walk yields
as many instants as it was told. Longer ranges may be told one instant too many.
-/

namespace Telemetry

/-- The whole part of a ratio is the quotient of the lengths. -/
theorem Duration.toNat_ratio {a b : Duration} (hpos : 0 < b.nanos) (hfits : a.RatioFits b)
    (hlt : a.nanos < 2 ^ 53 * (a.commonUnit b).nanos) :
    ((a.ratio b).toUInt64.toNat : Int) = a.nanos / b.nanos := by
  obtain ⟨ha, hb⟩ := hfits
  have hnonneg := a.nanos_nonneg
  have hu := (a.commonUnit b).nanos_pos
  have hn : a.ticksIn (a.commonUnit b) * (a.commonUnit b).nanos = a.nanos :=
    ticksIn_mul_nanos (TimeUnit.nanos_finest_le_left _ _) ha
  have hm : b.ticksIn (a.commonUnit b) * (a.commonUnit b).nanos = b.nanos :=
    ticksIn_mul_nanos (TimeUnit.nanos_finest_le_right _ _) hb
  have hmax := hb.2
  rw [← hn] at hnonneg hlt
  rw [← hm] at hpos hmax
  rw [ratio, Number.toNat_ofInt_div (nonneg_of_mul_nonneg_left hnonneg hu)
    (lt_of_mul_lt_mul_right hlt hu.le) (pos_of_mul_pos_left hpos hu.le)
    (le_of_mul_le_mul_right hmax hu), ← hn, ← hm, Int.mul_ediv_mul_of_pos_left _ _ hu]

namespace Lattice

variable {l : Lattice} {s t : Timestamp} {i n : Nat}

/-! ## Counting by integers -/

theorem StepsFit.after (h : l.StepsFit) (n : Nat) : (l.after n).StepsFit := by
  intro i t ht
  rw [pull?_after] at ht
  rw [after_eq]
  exact h (n + i) t ht

/-- The walk yields as many instants as are counted. -/
theorem isSome_pull?_iff (hfits : l.StepsFit) (hle : ∀ s ∈ l.current, l.along s ≤ l.along l.goal) :
    (l.pull? i).isSome ↔ i < l.count := by
  cases hcur : l.current with
  | none =>
    rw [pull?_eq_none_of_le ((pull?_zero l).trans hcur) (Nat.zero_le i)]
    simp [count, hcur]
  | some t =>
    by_cases hzero : l.interval.isZero = true
    · have hcount : l.count = 1 := by simp [count, hcur, hzero]
      rw [hcount]
      cases i with
      | zero => simp [hcur]
      | succ i =>
        have hnone (s : Timestamp) : l.following? s = none := by rw [following?_eq, if_pos hzero]
        simp [pull?_succ, Option.bind_eq_none_iff.2 fun s _ => hnone s]
    · have hd := Duration.nanos_pos_iff.2 hzero
      have hquot : 0 ≤ (l.along l.goal - l.along t) / l.interval.nanos :=
        Int.ediv_nonneg (Int.sub_nonneg_of_le (hle t hcur)) hd.le
      have hpull := along_pull? (n := i) hd hcur (hle t hcur) fun j _ s hs => hfits j s hs
      rw [← Option.isSome_map (f := l.along), hpull, count_of_current hd hcur]
      split <;> simp <;> omega

/-! ## Counting by doubles -/

/-- What is left of the range ahead of `t`, and its ratio to the interval, are worked out on counts
that do not leave their range. -/
def AheadFits (l : Lattice) (t : Timestamp) : Prop :=
  (if l.reversed then t.SinceFits l.start else l.finish.SinceFits t) ∧
    ∀ span ∈ l.ahead? t, span.RatioFits l.interval

instance (l : Lattice) (t : Timestamp) : Decidable (l.AheadFits t) :=
  inferInstanceAs (Decidable (ite _ _ _ ∧ _))

theorem exists_ahead? (hle : l.along t ≤ l.along l.goal) (hfits : l.AheadFits t) :
    ∃ span, l.ahead? t = some span ∧ span.nanos = l.along l.goal - l.along t ∧
      span.unit.nanos = min t.unit.nanos l.goal.unit.nanos := by
  obtain ⟨hsince, -⟩ := hfits
  obtain ⟨interval, start, finish, current, reversed⟩ := l
  cases reversed with
  | false =>
    obtain ⟨span, hspan, hnanos, hunit⟩ := Timestamp.nanos_since? hle hsince
    refine ⟨span, hspan, hnanos, ?_⟩
    exact (congrArg TimeUnit.nanos hunit).trans ((TimeUnit.nanos_finest _ _).trans (min_comm _ _))
  | true =>
    obtain ⟨span, hspan, hnanos, hunit⟩ :=
      Timestamp.nanos_since? (Timestamp.le_iff.2 (neg_le_neg_iff.1 hle)) hsince
    refine ⟨span, hspan, hnanos.trans (neg_sub_neg _ _).symm, ?_⟩
    exact (congrArg TimeUnit.nanos hunit).trans (TimeUnit.nanos_finest _ _)

/-- What is told by doubles is what is counted. -/
theorem remaining_eq_count (hcur : l.current = some t) (hle : l.along t ≤ l.along l.goal)
    (hfits : l.AheadFits t) (hshort : l.along l.goal - l.along t <
      2 ^ 53 * min (min t.unit.nanos l.goal.unit.nanos) l.interval.unit.nanos) :
    l.remaining = l.count := by
  by_cases hzero : l.interval.isZero = true
  · simp [remaining, count, hcur, hzero]
  have hd := Duration.nanos_pos_iff.2 hzero
  obtain ⟨span, hspan, hnanos, hunit⟩ := exists_ahead? hle hfits
  have hcommon : (span.commonUnit l.interval).nanos =
      min (min t.unit.nanos l.goal.unit.nanos) l.interval.unit.nanos := by
    rw [Duration.commonUnit, TimeUnit.nanos_finest, hunit]
  have hratio := Duration.toNat_ratio hd (hfits.2 span hspan)
    (by rw [hcommon, hnanos]; exact hshort)
  rw [count_of_current hd hcur, ← hnanos, ← hratio, Int.toNat_natCast]
  simp only [remaining, hcur, hzero, hspan]
  rfl

section Origin

variable {o : Timestamp} (hcur : l.current = some o)
include hcur

/-- What is left of a walk is worked out in a unit that stays the same from pull to pull. -/
theorem min_nanos_of_pull? (h : l.pull? n = some t) :
    min (min t.unit.nanos l.goal.unit.nanos) l.interval.unit.nanos =
      min (min o.unit.nanos l.goal.unit.nanos) l.interval.unit.nanos := by
  have hunit := congrArg TimeUnit.nanos (finest_of_pull? hcur h)
  rw [TimeUnit.nanos_finest, TimeUnit.nanos_finest] at hunit
  omega

theorem le_along_of_pull? (hfits : l.StepsFit) (h : l.pull? n = some t) :
    l.along o ≤ l.along t := by
  induction n generalizing t with
  | zero =>
    rw [pull?_zero, hcur] at h
    rw [Option.some.inj h]
  | succ n ih =>
    obtain ⟨s, hs, hstep⟩ := exists_pull?_of_succ h
    have hd := l.interval.nanos_nonneg
    have := ih hs
    rw [(along_of_following? hstep).1, along_moved (hfits n s hs)]
    omega

end Origin

section Left

variable (hle : ∀ o ∈ l.current, l.along o ≤ l.along l.goal) (hsteps : l.StepsFit)
include hle hsteps

theorem isSome_pull?_after_iff (n : Nat) :
    ((l.after n).pull? i).isSome ↔ i < (l.after n).count := by
  refine isSome_pull?_iff (hsteps.after n) fun s hs => ?_
  rw [← pull?_eq_current] at hs
  simpa using along_le_of_pull? hle hs

theorem remaining_after (hahead : ∀ n t, l.pull? n = some t → l.AheadFits t)
    (hshort : ∀ o ∈ l.current, l.along l.goal - l.along o <
      2 ^ 53 * min (min o.unit.nanos l.goal.unit.nanos) l.interval.unit.nanos) (n : Nat) :
    (l.after n).remaining = (l.after n).count := by
  have hcur := pull?_eq_current l n
  cases hn : l.pull? n with
  | none => simp [remaining, count, ← hcur, hn]
  | some t =>
    obtain ⟨o, ho⟩ : ∃ o, l.current = some o := by
      refine Option.ne_none_iff_exists'.1 fun hnone => ?_
      rw [pull?_eq_none_of_le ((pull?_zero l).trans hnone) (Nat.zero_le n)] at hn
      cases hn
    have hreached := along_le_of_pull? hle hn
    have hcovered := le_along_of_pull? ho hsteps hn
    have hrange := hshort o ho
    rw [← min_nanos_of_pull? ho hn] at hrange
    have hfits : (l.after n).AheadFits t := by
      rw [after_eq]
      exact hahead n t hn
    refine remaining_eq_count (hcur.symm.trans hn) (by simpa using hreached) hfits ?_
    simp only [along_after, goal_after, interval_after]
    omega

end Left

/-- Wherever a walk stands, it yields as many more instants as it says are left, provided that no
arithmetic on the way leaves the range of a count and that the whole range is shorter than `2 ^ 53`
ticks of the finest of its three units. -/
theorem remaining_counts {start finish : Timestamp} {interval : Duration} {l : Lattice}
    (hl : l = ascending start finish interval ∨ l = descending start finish interval)
    (hsteps : l.StepsFit) (hahead : ∀ n t, l.pull? n = some t → l.AheadFits t)
    (hshort : finish.nanos - start.nanos <
      2 ^ 53 * ((start.unit.finest finish.unit).finest interval.unit).nanos) (n i : Nat) :
    ((l.after n).pull? i).isSome ↔ i < (l.after n).remaining := by
  rw [TimeUnit.nanos_finest, TimeUnit.nanos_finest] at hshort
  have horigin : ∀ o ∈ l.current, l.along o ≤ l.along l.goal ∧ l.along l.goal - l.along o <
      2 ^ 53 * min (min o.unit.nanos l.goal.unit.nanos) l.interval.unit.nanos := by
    intro o hcur
    rcases hl with rfl | rfl
    · obtain ⟨hle, heq⟩ := Option.ite_none_right_eq_some.1 hcur
      cases heq
      exact ⟨hle, hshort⟩
    · obtain ⟨hle, heq⟩ := Option.ite_none_right_eq_some.1 hcur
      cases heq
      rw [min_comm start.unit.nanos, ← neg_sub_neg] at hshort
      exact ⟨neg_le_neg hle, hshort⟩
  have hle := fun o ho => (horigin o ho).1
  rw [remaining_after hle hsteps hahead (fun o ho => (horigin o ho).2) n]
  exact isSome_pull?_after_iff hle hsteps n

/-- Behind two pulls downwards there are four left. -/
theorem remaining_counts_downwards :
    let start : Timestamp := .ofTicks (-1500) .milliseconds
    let finish : Timestamp := .ofTicks 2 .seconds
    let interval : Duration := .ofTicks 700000 .microseconds
    let l := descending start finish interval
    l.StepsFit ∧ (∀ n t, l.pull? n = some t → l.AheadFits t) ∧
      finish.nanos - start.nanos <
        2 ^ 53 * ((start.unit.finest finish.unit).finest interval.unit).nanos ∧
      (l.after 2).remaining = 4 ∧ ((l.after 2).pull? 3).isSome ∧
      ¬ ((l.after 2).pull? 4).isSome := by
  intro start finish interval l
  have hsteps : l.StepsFit := forall_pull?_of_take (n := 6) (by decide) (by decide)
  have hahead : ∀ n t, l.pull? n = some t → l.AheadFits t :=
    forall_pull?_of_take (n := 6) (by decide) (by decide)
  have hshort : finish.nanos - start.nanos <
      2 ^ 53 * ((start.unit.finest finish.unit).finest interval.unit).nanos := by decide
  have hcounts := remaining_counts (.inr rfl) hsteps hahead hshort
  have hleft : (l.after 2).remaining = 4 := by decide +kernel
  refine ⟨hsteps, hahead, hshort, hleft, ?_, ?_⟩
  · rw [hcounts, hleft]
    decide
  · rw [hcounts, hleft]
    decide

end Lattice

end Telemetry
