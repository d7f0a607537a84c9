import Telemetry.Proofs.Feed
import Telemetry.Proofs.Lattice.Pulls

/-!
# Producers that follow a walk

Points and buckets are handed out for the instants of a walk, a row for each of them. `FollowsWalk`
says so of a single request, in terms of what the state of the producer is known to hold, and `rows`
are the rows for the instants of a whole walk. If the walk goes on behind the requests that are
allowed, a run is abandoned there.
-/

namespace Telemetry.Feed

variable {α σ κ : Type} {next? : σ → Option (Except QueryError (Row α) × σ)} {walk : σ → Lattice}
  {Holds : σ → κ → Prop} {rows : List Timestamp → κ → List (Row α)} {s : σ} {a : κ} {n : Nat}

/-- The producer answers the next instant of its walk with the first row for that instant and the
ones behind it, and is left with what the other rows are made of. -/
structure FollowsWalk (next? : σ → Option (Except QueryError (Row α) × σ)) (walk : σ → Lattice)
    (Holds : σ → κ → Prop) (rows : List Timestamp → κ → List (Row α)) : Prop where
  nil : ∀ a, rows [] a = []
  ended : ∀ s, (walk s).next? = none → next? s = none
  step : ∀ s a c l, Holds s a → (walk s).next? = some (c, l) → ∃ row s' a',
    next? s = some (.ok row, s') ∧ walk s' = l ∧ Holds s' a' ∧
      ∀ cs, rows (c :: cs) a = row :: rows cs a'

/-- What a run ends with: nothing, or its abandonment if the walk goes on behind `n` instants. -/
def goesOn (l : Lattice) (n : Nat) : Feed α :=
  if (l.pull? n).isSome then [.error (.abandoned .unfinished)] else []

theorem goesOn_of_none {l : Lattice} (h : l.pull? n = none) : (goesOn l n : Feed α) = [] := by
  rw [goesOn, h]
  exact if_neg Bool.false_ne_true

theorem goesOn_succ {l l' : Lattice} {c : Timestamp} (h : l.next? = some (c, l')) (n : Nat) :
    (goesOn l (n + 1) : Feed α) = goesOn l' n := by
  rw [goesOn, goesOn, Lattice.pull?_succ_of_next? h]

namespace FollowsWalk

/-- The induction runs over the requests. -/
theorem unfold_eq (h : FollowsWalk next? walk Holds rows) (ha : Holds s a) (n : Nat) :
    unfold next? n s = ofRows (rows ((walk s).take n) a) := by
  induction n generalizing s a with
  | zero => rw [unfold, Lattice.take, h.nil]; rfl
  | succ n ih =>
    cases hw : (walk s).next? with
    | none => rw [unfold, h.ended s hw, Lattice.take, hw, h.nil]; rfl
    | some step =>
      obtain ⟨c, l⟩ := step
      obtain ⟨row, s', a', hnext, rfl, ha', hrows⟩ := h.step s a c l ha hw
      rw [unfold, hnext, Lattice.take, hw]
      simp only [hrows, ofRows_cons, ih ha']

theorem run_eq (h : FollowsWalk next? walk Holds rows) (ha : Holds s a) (n : Nat) :
    run next? n s = ofRows (rows ((walk s).take n) a) ++ goesOn (walk s) n := by
  induction n generalizing s a with
  | zero =>
    rw [Lattice.take, h.nil, run]
    cases hw : (walk s).next? with
    | none =>
      rw [h.ended s hw, goesOn_of_none (Lattice.pull?_of_next?_none hw 0)]
      rfl
    | some step =>
      obtain ⟨c, l⟩ := step
      obtain ⟨row, s', a', hnext, -⟩ := h.step s a c l ha hw
      have hfirst : (walk s).pull? 0 = some c := congrArg (Option.map Prod.fst) hw
      rw [hnext, goesOn, hfirst]
      rfl
  | succ n ih =>
    cases hw : (walk s).next? with
    | none =>
      rw [run, h.ended s hw, Lattice.take, hw, h.nil,
        goesOn_of_none (Lattice.pull?_of_next?_none hw (n + 1))]
      rfl
    | some step =>
      obtain ⟨c, l⟩ := step
      obtain ⟨row, s', a', hnext, rfl, ha', hrows⟩ := h.step s a c l ha hw
      rw [run, hnext, Lattice.take, hw, goesOn_succ hw]
      simp only [hrows, ofRows_cons, ih ha', abandons, Bool.false_eq_true, if_false,
        List.cons_append]

end FollowsWalk

end Telemetry.Feed
