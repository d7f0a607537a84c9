import Mathlib.Logic.Function.Iterate
import Mathlib.Order.Lattice.Nat
import Telemetry.Proofs.Time.Range

/-!
# Walks, one pull at a time

A walk is pulled for one instant after the other. What a pull yields follows from what the pull
before it has yielded, and behind a pull that yields nothing there is none that does.

A walk downwards is told in the same words as one upwards: `along` counts instants in the direction
of the walk, and `goal` is the end of the range that the walk leads to.
-/

namespace Telemetry.Lattice

variable {l : Lattice} {t : Timestamp} {m n : Nat}

/-! ## Pulls -/

/-- The walk as a pull leaves it; one that is at its end stays as it is. -/
def pulled (l : Lattice) : Lattice :=
  match l.next? with
  | none => l
  | some (_, rest) => rest

/-- The walk after `n` pulls. -/
def after (l : Lattice) (n : Nat) : Lattice :=
  pulled^[n] l

/-- What a pull yields after `n` others. -/
def pull? (l : Lattice) (n : Nat) : Option Timestamp :=
  (l.after n).next?.map Prod.fst

theorem next?_of_current (h : l.current = some t) :
    l.next? = some (t, { l with current := l.following? t }) := by
  rw [next?, h]
  rfl

theorem interval_of_next? {rest : Lattice} (h : l.next? = some (t, rest)) :
    rest.interval = l.interval := by
  obtain ⟨_, _, heq⟩ := Option.map_eq_some_iff.1 h
  cases heq
  rfl

theorem pulled_eq (l : Lattice) :
    l.pulled = { l with current := l.current.bind l.following? } := by
  obtain ⟨interval, start, finish, current, reversed⟩ := l
  cases current <;> rfl

theorem after_succ (l : Lattice) (n : Nat) : l.after (n + 1) = (l.after n).pulled :=
  Function.iterate_succ_apply' pulled n l

theorem pull?_eq_current (l : Lattice) (n : Nat) : l.pull? n = (l.after n).current := by
  rw [pull?, next?, Option.map_map]
  exact Option.map_id'

@[simp] theorem pull?_zero (l : Lattice) : l.pull? 0 = l.current :=
  pull?_eq_current l 0

/-- Pulls change nothing of a walk but the instant that is yielded next. -/
theorem after_eq (l : Lattice) (n : Nat) : l.after n = { l with current := l.pull? n } := by
  induction n with
  | zero =>
    rw [pull?_zero]
    rfl
  | succ n ih =>
    rw [pull?_eq_current, after_succ, ih, pulled_eq]

theorem pull?_succ (l : Lattice) (n : Nat) : l.pull? (n + 1) = (l.pull? n).bind l.following? := by
  rw [pull?_eq_current, after_succ, after_eq, pulled_eq]
  rfl

theorem pull?_after (l : Lattice) (m n : Nat) : (l.after m).pull? n = l.pull? (m + n) := by
  rw [pull?, pull?, after, after, after, ← Function.iterate_add_apply, Nat.add_comm]

theorem hasNext_after (l : Lattice) (n : Nat) : (l.after n).hasNext = (l.pull? n).isSome := by
  rw [hasNext, pull?_eq_current]

theorem pull?_eq_none_of_le (h : l.pull? m = none) (hle : m ≤ n) : l.pull? n = none := by
  induction n, hle using Nat.le_induction with
  | base => exact h
  | succ n _ ih => rw [pull?_succ, ih, Option.bind_none]

theorem pull?_of_next?_none (h : l.next? = none) (n : Nat) : l.pull? n = none :=
  pull?_eq_none_of_le ((pull?_zero l).trans (Option.map_eq_none_iff.1 h)) (Nat.zero_le n)

theorem pull?_succ_of_next? {rest : Lattice} (h : l.next? = some (t, rest)) (n : Nat) :
    l.pull? (n + 1) = rest.pull? n := by
  have hrest : l.after 1 = rest := by
    rw [after, Function.iterate_one, pulled, h]
  rw [← hrest, pull?_after, Nat.add_comm]

theorem take_eq (l : Lattice) (n : Nat) : l.take n = (List.range n).filterMap l.pull? := by
  induction n generalizing l with
  | zero => rfl
  | succ n ih =>
    have hshift : (l.pull? ∘ Nat.succ) = l.pulled.pull? := by
      funext i
      exact (congrArg l.pull? (Nat.add_comm i 1)).trans (pull?_after l 1 i).symm
    rw [List.range_succ_eq_map, List.filterMap_cons, List.filterMap_map, hshift, ← ih]
    cases hcur : l.current with
    | none =>
      have hend : l.pulled.take n = [] := by
        rw [ih, List.filterMap_eq_nil_iff]
        intro i _
        rw [← hshift]
        exact pull?_eq_none_of_le ((pull?_zero l).trans hcur) (Nat.zero_le _)
      simp [take, next?, hcur, hend]
    | some t =>
      simp [take, next?, hcur, pulled_eq]

/-- Behind its end a walk has no more instants to take. -/
theorem take_add_of_pull?_none (h : l.pull? m = none) (k : Nat) : l.take (m + k) = l.take m := by
  have hrest : ((List.range k).map (m + ·)).filterMap l.pull? = [] := by
    rw [List.filterMap_eq_nil_iff]
    intro i hi
    obtain ⟨j, -, rfl⟩ := List.mem_map.1 hi
    exact pull?_eq_none_of_le h (Nat.le_add_right m j)
  rw [take_eq, take_eq, List.range_add, List.filterMap_append, hrest, List.append_nil]

theorem take_eq_of_pull?_none (hm : l.pull? m = none) (hn : l.pull? n = none) :
    l.take m = l.take n := by
  rw [← take_add_of_pull?_none hm n, ← take_add_of_pull?_none hn m, Nat.add_comm]

theorem exists_pull?_of_succ (h : l.pull? (n + 1) = some t) :
    ∃ s, l.pull? n = some s ∧ l.following? s = some t := by
  rw [pull?_succ, Option.bind_eq_some_iff] at h
  exact h

/-- Behind a pull that yields nothing there is nothing left to look at. -/
theorem forall_pull?_of_take {p : Timestamp → Prop} (hend : l.pull? n = none)
    (h : ∀ t ∈ l.take n, p t) : ∀ i t, l.pull? i = some t → p t := by
  intro i t ht
  have hi : i < n := by
    by_contra hle
    rw [pull?_eq_none_of_le hend (Nat.le_of_not_lt hle)] at ht
    cases ht
  rw [take_eq] at h
  exact h t (List.mem_filterMap.2 ⟨i, List.mem_range.2 hi, ht⟩)

/-! ## Instants along a walk -/

/-- The place of an instant in the direction of the walk. -/
def along (l : Lattice) (t : Timestamp) : Int :=
  if l.reversed then -t.nanos else t.nanos

/-- The end of the range that the walk leads to. -/
def goal (l : Lattice) : Timestamp :=
  if l.reversed then l.start else l.finish

/-- The instant one interval further on. -/
def moved (l : Lattice) (t : Timestamp) : Timestamp :=
  if l.reversed then t - l.interval else t + l.interval

@[simp] theorem interval_after (l : Lattice) (n : Nat) : (l.after n).interval = l.interval := by
  rw [after_eq]

@[simp] theorem along_after (l : Lattice) (n : Nat) : (l.after n).along = l.along := by
  rw [after_eq]
  rfl

@[simp] theorem goal_after (l : Lattice) (n : Nat) : (l.after n).goal = l.goal := by
  rw [after_eq]
  rfl

theorem following?_eq (l : Lattice) (t : Timestamp) :
    l.following? t =
      if l.interval.isZero then none
      else if l.along (l.moved t) ≤ l.along l.goal then some (l.moved t) else none := by
  obtain ⟨interval, start, finish, current, reversed⟩ := l
  cases reversed with
  | false => rfl
  | true =>
    simp only [following?, along, goal, moved, if_true, Timestamp.le_iff, neg_le_neg_iff]

theorem along_of_following? {next : Timestamp} (h : l.following? t = some next) :
    next = l.moved t ∧ l.along next ≤ l.along l.goal := by
  rw [following?_eq] at h
  split at h
  · cases h
  split at h
  · cases h
    exact ⟨rfl, ‹_›⟩
  · cases h

/-- Nothing is yielded beyond the goal. -/
theorem along_le_of_pull? (hcur : ∀ s ∈ l.current, l.along s ≤ l.along l.goal)
    (h : l.pull? n = some t) : l.along t ≤ l.along l.goal := by
  cases n with
  | zero => exact hcur t ((pull?_zero l).symm.trans h)
  | succ n =>
    obtain ⟨s, -, hs⟩ := exists_pull?_of_succ h
    exact (along_of_following? hs).2

/-! ## Units along a walk -/

theorem unit_moved (l : Lattice) (t : Timestamp) :
    (l.moved t).unit = t.unit.finest l.interval.unit := by
  unfold moved
  split <;> rfl

section Origin

variable {o : Timestamp} (hcur : l.current = some o)
include hcur

/-- All instants behind the first one are counted in the finer unit. -/
theorem unit_of_pull?_succ (h : l.pull? (n + 1) = some t) :
    t.unit = o.unit.finest l.interval.unit := by
  induction n generalizing t with
  | zero =>
    obtain ⟨s, hs, hstep⟩ := exists_pull?_of_succ h
    rw [pull?_zero, hcur] at hs
    obtain rfl := Option.some.inj hs
    rw [(along_of_following? hstep).1, unit_moved]
  | succ n ih =>
    obtain ⟨s, hs, hstep⟩ := exists_pull?_of_succ h
    rw [(along_of_following? hstep).1, unit_moved, ih hs, TimeUnit.finest_finest]

theorem finest_of_pull? (h : l.pull? n = some t) :
    t.unit.finest l.interval.unit = o.unit.finest l.interval.unit := by
  cases n with
  | zero =>
    rw [pull?_zero, hcur] at h
    rw [Option.some.inj h]
  | succ n => rw [unit_of_pull?_succ hcur h, TimeUnit.finest_finest]

end Origin

end Telemetry.Lattice
