import Telemetry.Proofs.Lattice.Pulls
import Telemetry.Proofs.Time.Elapsed

/-!
# Walks that end

A count that would leave its range stops at the end of it. From the first step on a walk counts in
the finer of the units of its first instant and of the interval, so that it comes no further than
the last instant that can be counted in this unit, its `limit`. A goal before the limit is passed,
and until then each pull moves on. Where the goal is not before the limit, the walk comes to stand
at the limit and yields it for ever.
-/

namespace Telemetry

/-! ## Counts near the ends of their range -/

theorem lt_clampTicks_add {q k : Int} (hk : 1 ≤ k) (h : q < maxTicks) :
    q < clampTicks (clampTicks q + k) := by
  simp only [clampTicks, minTicks, maxTicks] at *
  omega

theorem clampTicks_sub_lt {q k : Int} (hk : 1 ≤ k) (h : minTicks < q) :
    clampTicks (clampTicks q - k) < q := by
  simp only [clampTicks, minTicks, maxTicks] at *
  omega

/-- Integers that grow with every step leave any bound behind. -/
theorem exists_lt_of_lt_succ {f : Nat → Int} (h : ∀ n, f n < f (n + 1)) (bound : Int) :
    ∃ n, bound < f n := by
  have hfar (n : Nat) : f 0 + n ≤ f n := by
    induction n with
    | zero => simp
    | succ n ih =>
      have := h n
      push_cast
      omega
  exact ⟨(bound - f 0).toNat + 1, by have := hfar ((bound - f 0).toNat + 1); omega⟩

/-- A span that is not empty takes at least one tick of a finer unit. -/
theorem Duration.one_le_ticksIn {d : Duration} {u : TimeUnit} (hzero : d.isZero = false)
    (hle : u.nanos ≤ d.unit.nanos) : 1 ≤ d.ticksIn u := by
  have hticks : d.ticks ≠ 0 := by simpa [isZero] using hzero
  have hnonneg := d.nonneg
  have hratio : 0 < d.unit.nanos / u.nanos :=
    Int.ediv_pos_of_pos_of_dvd d.unit.nanos_pos u.nanos_pos.le (TimeUnit.nanos_dvd hle)
  have hpos : 0 < d.ticks * (d.unit.nanos / u.nanos) := mul_pos (by omega) hratio
  rw [ticksIn, TimeUnit.convert, if_pos hle]
  simp only [clampTicks, minTicks, maxTicks]
  omega

namespace Lattice

variable {l : Lattice} {o s t : Timestamp} {u : TimeUnit} {n : Nat}

/-! ## The limit -/

/-- The last instant in the direction of the walk that can be counted in a unit. -/
def limit (l : Lattice) (u : TimeUnit) : Timestamp :=
  .ofTicks (if l.reversed then minTicks else maxTicks) u

theorem along_le_limit (l : Lattice) (t : Timestamp) : l.along t ≤ l.along (l.limit t.unit) := by
  have hu := t.unit.nanos_pos
  unfold along limit
  split
  · exact neg_le_neg (mul_le_mul_of_nonneg_right t.min_le hu.le)
  · exact mul_le_mul_of_nonneg_right t.le_max hu.le

/-- A step is taken on counts of the finer unit. -/
theorem exists_ticks_moved (hzero : l.interval.isZero = false) (t : Timestamp) :
    ∃ q k : Int, 1 ≤ k ∧ t.nanos = q * (l.moved t).unit.nanos ∧ (l.moved t).ticks =
      clampTicks (if l.reversed then clampTicks q - k else clampTicks q + k) := by
  rw [unit_moved]
  obtain ⟨u, hu⟩ : ∃ u, t.unit.finest l.interval.unit = u := ⟨_, rfl⟩
  have hle : u.nanos ≤ t.unit.nanos := hu ▸ TimeUnit.nanos_finest_le_left _ _
  obtain ⟨q, hq⟩ := (TimeUnit.nanos_dvd hle).mul_left t.ticks
  refine ⟨q, l.interval.ticksIn u, ?_, ?_, ?_⟩
  · exact Duration.one_le_ticksIn hzero (hu ▸ TimeUnit.nanos_finest_le_right t.unit _)
  · rw [hu, mul_comm]
    exact hq
  · have hcount : t.ticksIn u = clampTicks q := by
      rw [Timestamp.ticksIn_eq_clampTicks hle, Timestamp.nanos, hq,
        Int.mul_ediv_cancel_left _ u.nanos_pos.ne']
    subst hu
    rw [← hcount]
    unfold moved
    split <;> rfl

theorem lt_limit_iff {q : Int} (hq : t.nanos = q * u.nanos) :
    l.along t < l.along (l.limit u) ↔ if l.reversed then minTicks < q else q < maxTicks := by
  have hu := u.nanos_pos
  unfold along limit
  rw [hq]
  split
  · exact neg_lt_neg_iff.trans (mul_lt_mul_iff_left₀ hu)
  · exact mul_lt_mul_iff_left₀ hu

/-- Short of the limit a step moves on. -/
theorem lt_along_moved (hzero : l.interval.isZero = false)
    (h : l.along t < l.along (l.limit (l.moved t).unit)) : l.along t < l.along (l.moved t) := by
  obtain ⟨q, k, hk, hq, hticks⟩ := exists_ticks_moved hzero t
  have hu := (l.moved t).unit.nanos_pos
  rw [lt_limit_iff hq] at h
  rw [along, along, hq, Timestamp.nanos, hticks]
  split at h
  · rw [if_pos ‹_›, if_pos ‹_›, if_pos ‹_›, neg_lt_neg_iff]
    exact mul_lt_mul_of_pos_right (clampTicks_sub_lt hk h) hu
  · rw [if_neg ‹_›, if_neg ‹_›, if_neg ‹_›]
    exact mul_lt_mul_of_pos_right (lt_clampTicks_add hk h) hu

/-- From the limit a step leads to the limit again. -/
theorem moved_eq_limit (hzero : l.interval.isZero = false)
    (h : ¬ l.along t < l.along (l.limit (l.moved t).unit)) :
    l.moved t = l.limit (l.moved t).unit := by
  obtain ⟨q, k, hk, hq, hticks⟩ := exists_ticks_moved hzero t
  rw [lt_limit_iff hq] at h
  refine Timestamp.eq_iff.1 ⟨?_, rfl⟩
  rw [hticks, limit, Timestamp.ofTicks]
  split at h
  · rw [if_pos ‹_›, if_pos ‹_›]
    simp only [clampTicks, minTicks, maxTicks] at *
    omega
  · rw [if_neg ‹_›, if_neg ‹_›]
    simp only [clampTicks, minTicks, maxTicks] at *
    omega

/-! ## Runs -/

/-- Some pull yields nothing, and none behind it does. -/
def Ends (l : Lattice) : Prop :=
  ∃ n, ∀ i, n ≤ i → l.pull? i = none

/-- What is yielded later lies further on in the direction of the walk. -/
def MovesOn (l : Lattice) : Prop :=
  ∀ i j s t, i < j → l.pull? i = some s → l.pull? j = some t → l.along s < l.along t

/-- The same instant is yielded by every pull from some pull on. -/
def Stands (l : Lattice) : Prop :=
  ∃ t n, ∀ i, n ≤ i → l.pull? i = some t

theorem movesOn_of_step (h : ∀ n s t, l.pull? n = some s → l.following? s = some t →
    l.along s < l.along t) : l.MovesOn := by
  intro i j s t hij hs ht
  induction j, hij using Nat.le_induction generalizing t with
  | base =>
    obtain ⟨s', hs', hstep⟩ := exists_pull?_of_succ ht
    obtain rfl := Option.some.inj (hs.symm.trans hs')
    exact h i s t hs hstep
  | succ j _ ih =>
    obtain ⟨t', ht', hstep⟩ := exists_pull?_of_succ ht
    exact (ih t' ht').trans (h j t' t ht' hstep)

/-- A walk that moves on comes to an end, since it comes no further than its goal. -/
theorem MovesOn.ends (h : l.MovesOn) (hcur : ∀ s ∈ l.current, l.along s ≤ l.along l.goal) :
    l.Ends := by
  by_contra hnever
  have hsome (n : Nat) : ∃ t, l.pull? n = some t := by
    refine Option.ne_none_iff_exists'.1 fun hnone => hnever ⟨n, fun i hi => ?_⟩
    exact pull?_eq_none_of_le hnone hi
  choose f hf using hsome
  have hlt (n : Nat) : l.along (f n) < l.along (f (n + 1)) :=
    h n (n + 1) _ _ (Nat.lt_succ_self n) (hf n) (hf (n + 1))
  obtain ⟨n, hn⟩ := exists_lt_of_lt_succ hlt (l.along l.goal)
  exact absurd (along_le_of_pull? hcur (hf n)) hn.not_ge

section Origin

variable (hcur : l.current = some o)
include hcur

/-- A goal before the limit is passed. -/
theorem movesOn_of_lt (hle : l.along o ≤ l.along l.goal)
    (h : l.along l.goal < l.along (l.limit (o.unit.finest l.interval.unit))) : l.MovesOn := by
  refine movesOn_of_step fun n s t hs hstep => ?_
  have hbound := along_le_of_pull? (by simpa [hcur] using hle) hs
  have hzero : l.interval.isZero = false := by
    rw [following?_eq] at hstep
    exact Bool.eq_false_iff.2 fun hzero => by simp [hzero] at hstep
  rw [(along_of_following? hstep).1]
  apply lt_along_moved hzero
  rw [unit_moved, finest_of_pull? hcur hs]
  exact hbound.trans_lt h

/-- A walk whose goal is not before the limit yields something for ever, and comes to the limit. -/
theorem stands_of_not_lt (hzero : l.interval.isZero = false)
    (h : ¬ l.along l.goal < l.along (l.limit (o.unit.finest l.interval.unit))) : l.Stands := by
  generalize hu : o.unit.finest l.interval.unit = u at h
  have hunit {n : Nat} {s : Timestamp} (hs : l.pull? n = some s) : (l.moved s).unit = u := by
    rw [unit_moved, finest_of_pull? hcur hs, hu]
  have hstep {n : Nat} {s : Timestamp} (hs : l.pull? n = some s) :
      l.pull? (n + 1) = some (l.moved s) := by
    have hlimit := along_le_limit l (l.moved s)
    rw [hunit hs] at hlimit
    rw [pull?_succ, hs, Option.bind_some, following?_eq, hzero, if_neg (by simp),
      if_pos (by omega)]
  -- Behind an instant at the limit there is only the limit.
  have hlimit {n : Nat} {s : Timestamp} (hs : l.pull? n = some s)
      (hlt : ¬ l.along s < l.along (l.limit u)) : l.pull? (n + 1) = some (l.limit u) := by
    rw [← hunit hs] at hlt
    rw [hstep hs, moved_eq_limit hzero hlt, hunit hs]
  have hsome (n : Nat) : ∃ t, l.pull? n = some t := by
    induction n with
    | zero => exact ⟨o, (pull?_zero l).trans hcur⟩
    | succ n ih => exact ih.imp' l.moved fun _ hs => hstep hs
  choose f hf using hsome
  obtain ⟨n, hn⟩ : ∃ n, ¬ l.along (f n) < l.along (l.limit u) := by
    by_contra! hshort
    have hmoved (n : Nat) : f (n + 1) = l.moved (f n) :=
      Option.some.inj ((hf (n + 1)).symm.trans (hstep (hf n)))
    have hlt (n : Nat) : l.along (f n) < l.along (f (n + 1)) := by
      rw [hmoved]
      exact lt_along_moved hzero (by rw [hunit (hf n)]; exact hshort n)
    obtain ⟨n, hn⟩ := exists_lt_of_lt_succ hlt (l.along (l.limit u))
    exact absurd (hshort n) hn.not_gt
  refine ⟨l.limit u, n + 1, fun i hi => ?_⟩
  induction i, hi using Nat.le_induction with
  | base => exact hlimit (hf n) hn
  | succ i _ ih => exact hlimit ih (lt_irrefl _)

end Origin

theorem Stands.not_ends (h : l.Stands) : ¬ l.Ends := by
  rintro ⟨m, hm⟩
  obtain ⟨t, n, hn⟩ := h
  have hnone := hm (max m n) (le_max_left m n)
  rw [hn _ (le_max_right m n)] at hnone
  cases hnone

/-- What decides is whether the goal lies before the limit. -/
theorem ends_iff_of_current (hcur : l.current = some o) (hle : l.along o ≤ l.along l.goal) :
    l.Ends ∧ l.MovesOn ↔ l.interval.isZero = true ∨
      l.along l.goal < l.along (l.limit (o.unit.finest l.interval.unit)) := by
  have hbound : ∀ s ∈ l.current, l.along s ≤ l.along l.goal := by simpa [hcur] using hle
  constructor
  · rintro ⟨hends, -⟩
    by_contra! h
    obtain ⟨hzero, hlimit⟩ := h
    exact (stands_of_not_lt hcur (Bool.eq_false_iff.2 hzero) hlimit.not_gt).not_ends hends
  · intro h
    have hmoves : l.MovesOn := by
      rcases h with hzero | hlt
      · refine movesOn_of_step fun n s t _ hstep => ?_
        rw [following?_eq, if_pos hzero] at hstep
        cases hstep
      · exact movesOn_of_lt hcur hle hlt
    exact ⟨hmoves.ends hbound, hmoves⟩

theorem stands_of_not_ends (hcur : l.current = some o) (hle : l.along o ≤ l.along l.goal)
    (h : ¬ (l.Ends ∧ l.MovesOn)) : l.Stands := by
  rw [ends_iff_of_current hcur hle, not_or] at h
  exact stands_of_not_lt hcur (Bool.eq_false_iff.2 h.1) h.2

/-- A walk over an inverted range yields nothing. -/
theorem ends_of_current_none (hcur : l.current = none) : l.Ends ∧ l.MovesOn := by
  have hnone (n : Nat) : l.pull? n = none :=
    pull?_eq_none_of_le ((pull?_zero l).trans hcur) (Nat.zero_le n)
  refine ⟨⟨0, fun i _ => hnone i⟩, fun i _ s _ _ hs => ?_⟩
  rw [hnone i] at hs
  cases hs

/-- A walk upwards ends, and whatever it yields lies further up than what it yielded before, just if
its range is inverted, its interval is empty, or its finish lies before the last instant that can be
counted in the finer of the units of its start and its interval; and so does a walk downwards, with
the ends of the range exchanged. Any other walk yields the same instant for ever in the end. -/
theorem ends_iff (start finish : Timestamp) (interval : Duration) :
    let up := ascending start finish interval
    let down := descending start finish interval
    (up.Ends ∧ up.MovesOn ↔ finish < start ∨ interval.isZero = true ∨
      finish.nanos < maxTicks * (start.unit.finest interval.unit).nanos) ∧
    (down.Ends ∧ down.MovesOn ↔ finish < start ∨ interval.isZero = true ∨
      minTicks * (finish.unit.finest interval.unit).nanos < start.nanos) ∧
    ∀ l ∈ [up, down], ¬ (l.Ends ∧ l.MovesOn) → l.Stands := by
  intro up down
  by_cases hle : start ≤ finish
  · have hup : up.current = some start := if_pos hle
    have hdown : down.current = some finish := if_pos hle
    have hdownLe : down.along finish ≤ down.along down.goal := Int.neg_le_neg hle
    have hnot : ¬ finish < start := Int.not_lt.2 hle
    refine ⟨?_, ?_, ?_⟩
    · rw [ends_iff_of_current hup hle, or_iff_right hnot]
      rfl
    · rw [ends_iff_of_current hdown hdownLe, or_iff_right hnot]
      exact or_congr_right neg_lt_neg_iff
    · intro l hl
      rcases List.mem_pair.1 hl with rfl | rfl
      · exact stands_of_not_ends hup hle
      · exact stands_of_not_ends hdown hdownLe
  · have hup := ends_of_current_none (l := up) (if_neg hle)
    have hdown := ends_of_current_none (l := down) (if_neg hle)
    have hinverted : finish < start := Int.not_le.1 hle
    refine ⟨iff_of_true hup (.inl hinverted), iff_of_true hdown (.inl hinverted), ?_⟩
    intro l hl hnot
    rcases List.mem_pair.1 hl with rfl | rfl
    · exact absurd hup hnot
    · exact absurd hdown hnot

/-- The last second that can be counted is yielded for ever. -/
theorem ends_iff_lastSecond :
    let last : Timestamp := .ofTicks maxTicks .seconds
    let up := ascending last last (.ofTicks 1 .seconds)
    ¬ (up.Ends ∧ up.MovesOn) ∧ up.Stands := by
  intro last up
  obtain ⟨hup, -, hstands⟩ := ends_iff last last (.ofTicks 1 .seconds)
  have hnot : ¬ (up.Ends ∧ up.MovesOn) := by
    rw [hup]
    decide
  exact ⟨hnot, hstands up (by simp [up]) hnot⟩

end Lattice

end Telemetry
