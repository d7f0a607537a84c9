import Mathlib.Logic.Function.Iterate
import Telemetry.Feed.Basic

/-!
# What a feed hands out

The rows of a feed are its items without the errors. A reader that asks more often than there are
items is told each time that nothing is left. A producer is changed only by requests that it answers
with an item.
-/

namespace Telemetry.Feed

variable {α : Type}

theorem ofRows_cons (row : Row α) (rows : List (Row α)) :
    ofRows (row :: rows) = .ok row :: ofRows rows := rfl

theorem ofRows_append (rows rows' : List (Row α)) :
    ofRows (rows ++ rows') = ofRows rows ++ ofRows rows' :=
  List.map_append

/-- The rows of a feed without the errors. -/
def rowsOf {α : Type} (feed : Feed α) : List (Row α) :=
  feed.filterMap Except.toOption

@[simp] theorem rowsOf_nil : rowsOf ([] : Feed α) = [] := rfl

@[simp] theorem rowsOf_cons_ok (row : Row α) (feed : Feed α) :
    rowsOf (.ok row :: feed) = row :: rowsOf feed := rfl

@[simp] theorem rowsOf_append (feed feed' : Feed α) :
    rowsOf (feed ++ feed') = rowsOf feed ++ rowsOf feed' :=
  List.filterMap_append

@[simp] theorem rowsOf_ofRows (rows : List (Row α)) : rowsOf (ofRows rows) = rows := by
  induction rows with
  | nil => rfl
  | cons row rest ih => rw [ofRows_cons, rowsOf_cons_ok, ih]

theorem untilError_ofRows (rows : List (Row α)) : (ofRows rows).untilError = ofRows rows := by
  induction rows with
  | nil => rfl
  | cons row rest ih => exact congrArg (.ok row :: ·) ih

theorem untilError_failing (rows : List (Row α)) (e : QueryError) (later : Feed α) :
    (ofRows rows ++ .error e :: later).untilError = ofRows rows ++ [.error e] := by
  induction rows with
  | nil => rfl
  | cons row rest ih => exact congrArg (.ok row :: ·) ih

@[simp] theorem collect_ofRows (rows : List (Row α)) : (ofRows rows).collect = .ok rows := by
  induction rows with
  | nil => rfl
  | cons row rest ih =>
    rw [ofRows_cons, collect, ih]
    rfl

theorem collect_failing (rows : List (Row α)) (e : QueryError) (later : Feed α) :
    (ofRows rows ++ .error e :: later).collect = .error e := by
  induction rows with
  | nil => rfl
  | cons row rest ih =>
    rw [ofRows_cons, List.cons_append, collect, ih]
    rfl

theorem pulls_eq (feed : Feed α) (n : Nat) :
    feed.pulls n = (feed.take n).map some ++ List.replicate (n - feed.length) none := by
  refine List.ext_getElem (by simp [pulls]; omega) fun i hi hi' => ?_
  simp only [pulls, List.getElem_map, List.getElem_range, List.getElem_append, List.length_map,
    List.length_take, List.getElem_replicate, List.getElem_take]
  split
  next h => exact List.getElem?_eq_getElem (by omega)
  next h => exact List.getElem?_eq_none (by simp [pulls] at hi; omega)

/-! ## Requests -/

section Requests

variable {σ : Type} {next? : σ → Option (Except QueryError (Row α) × σ)} {s : σ}

/-- The state that a request leaves; a producer that has come to its end stays as it is. -/
def pulled (next? : σ → Option (Except QueryError (Row α) × σ)) (s : σ) : σ :=
  match next? s with
  | none => s
  | some (_, s') => s'

/-- The state after `n` requests. -/
def after (next? : σ → Option (Except QueryError (Row α) × σ)) (n : Nat) (s : σ) : σ :=
  (pulled next?)^[n] s

@[simp] theorem after_zero : after next? 0 s = s := rfl

theorem after_succ (n : Nat) : after next? (n + 1) s = pulled next? (after next? n s) :=
  Function.iterate_succ_apply' _ n s

theorem pulled_of_none (h : next? s = none) : pulled next? s = s := by
  rw [pulled, h]

theorem pulled_of_some {item : Except QueryError (Row α)} {s' : σ}
    (h : next? s = some (item, s')) : pulled next? s = s' := by
  rw [pulled, h]

theorem unfold_of_none (h : next? s = none) (n : Nat) : unfold next? n s = [] := by
  cases n with
  | zero => rfl
  | succ n => rw [unfold, h]

theorem unfold_of_some {item : Except QueryError (Row α)} {s' : σ}
    (h : next? s = some (item, s')) (n : Nat) :
    unfold next? (n + 1) s = item :: unfold next? n s' := by
  rw [unfold, h]

/-- One more request adds what the state before it is answered with. -/
theorem unfold_succ (n : Nat) (s : σ) :
    unfold next? (n + 1) s =
      unfold next? n s ++ ((next? (after next? n s)).map Prod.fst).toList := by
  induction n generalizing s with
  | zero => cases h : next? s <;> simp [unfold, h]
  | succ n ih =>
    cases h : next? s with
    | none =>
      have hstay : after next? (n + 1) s = s :=
        Function.iterate_fixed (pulled_of_none h) (n + 1)
      simp [unfold_of_none h, hstay, h]
    | some answer =>
      obtain ⟨item, s'⟩ := answer
      have hstart : after next? (n + 1) s = after next? n s' := by
        rw [after, Function.iterate_succ_apply, pulled_of_some h, after]
      rw [unfold_of_some h, unfold_of_some h, ih, hstart, List.cons_append]

end Requests

end Telemetry.Feed
