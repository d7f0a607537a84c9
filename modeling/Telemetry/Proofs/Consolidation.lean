import Telemetry.Proofs.Number.Order

/-!
# Extremes of known numbers

The search for the least or the greatest known number starts from a finite one that no other finite
number is beyond. So what it ends with is not beyond any known number, and it is one of them, unless
they all are infinite on the far side of where the search starts.
-/

namespace Telemetry.Consolidation

open Number

variable {κ : Type} [LinearOrder κ] {key : Float → κ} {pick : Float → Float → Float}
  {before : Float → Float → Prop} {start far : Float} {xs ks : List Float} {x : Float}

theorem mem_known_iff : x ∈ known xs ↔ x ∈ xs ∧ x.isNaN = false := by
  rw [known, List.mem_filter, Bool.not_eq_true']

/-- How a search compares numbers: it keeps the first of two unless the key of the second is less.
The key of every number but `far` is at most that of `start`, where the search starts. -/
structure Search (key : Float → κ) (pick : Float → Float → Float) (before : Float → Float → Prop)
    (start far : Float) : Prop where
  pick_eq : ∀ {x y}, x.isNaN = false → y.isNaN = false →
    pick x y = if key y < key x then y else x
  before_iff : ∀ {x y}, x.isNaN = false → y.isNaN = false → (before x y ↔ key x ≤ key y)
  start_known : start.isNaN = false
  start_lt_far : key start < key far
  key_le : ∀ {x}, x.isNaN = false → x ≠ far → key x ≤ key start
  eq_start : ∀ {x}, x.isNaN = false → key x = key start → x = start

theorem search_lesser : Search rank lesser (· ≤ ·) greatestFinite infinity where
  pick_eq hx hy := by
    unfold lesser
    simp only [lt_iff_rank hy hx]
  before_iff hx hy := le_iff_rank hx hy
  start_known := by decide
  start_lt_far := by
    rw [rank_infinity, rank_greatestFinite, Prod.Lex.toLex_lt_toLex]
    exact .inl (by decide)
  key_le hx hfar := by
    rcases rank_cases hx with rfl | rfl | ⟨-, hle⟩
    · rw [rank_neg_infinity, rank_greatestFinite, Prod.Lex.toLex_le_toLex]
      exact .inl (by decide)
    · exact absurd rfl hfar
    · exact hle
  eq_start hx h := eq_of_rank_eq hx (by decide) (by decide) h

theorem search_greater :
    Search (OrderDual.toDual ∘ rank) greater (· ≥ ·) (-greatestFinite) (-infinity) where
  pick_eq hx hy := by
    unfold greater
    simp only [lt_iff_rank hx hy, Function.comp_apply, OrderDual.toDual_lt_toDual]
  before_iff hx hy := le_iff_rank hy hx
  start_known := by decide
  start_lt_far := by
    rw [Function.comp_apply, Function.comp_apply, OrderDual.toDual_lt_toDual, rank_neg_infinity,
      rank_neg_greatestFinite, Prod.Lex.toLex_lt_toLex]
    exact .inl (by decide)
  key_le hx hfar := by
    rw [Function.comp_apply, Function.comp_apply, OrderDual.toDual_le_toDual]
    rcases rank_cases hx with rfl | rfl | ⟨hle, -⟩
    · exact absurd rfl hfar
    · rw [rank_infinity, rank_neg_greatestFinite, Prod.Lex.toLex_le_toLex]
      exact .inl (by decide)
    · exact hle
  eq_start hx h := eq_of_rank_eq hx (by decide) (by decide) (OrderDual.toDual.injective h)

/-- A search through known numbers finds the first whose key is least. -/
theorem Search.argmin_eq (h : Search key pick before start far) (hx : x.isNaN = false)
    (hks : ∀ y ∈ ks, y.isNaN = false) :
    List.argmin key (x :: ks) = some (ks.foldl pick x) := by
  induction ks generalizing x with
  | nil => rfl
  | cons y ks ih =>
    have hy := hks y List.mem_cons_self
    have hstep : List.argmin key (x :: y :: ks) =
        List.argmin key ((if key y < key x then y else x) :: ks) := by
      by_cases hlt : key y < key x <;> simp [List.argmin, List.argAux, hlt]
    rw [hstep, List.foldl_cons, h.pick_eq hx hy]
    refine ih ?_ fun z hz => hks z (List.mem_cons_of_mem _ hz)
    split <;> assumption

/-- What a search finds among the known ones of some numbers. -/
structure Finds (before : Float → Float → Prop) (start far : Float) (xs : List Float) (r : Float) :
    Prop where
  before_all : ∀ x ∈ known xs, before r x
  mem_iff : r ∈ known xs ↔ ∃ x ∈ known xs, x ≠ far
  eq_start : xs ≠ [] → (∀ x ∈ known xs, x = far) → r = start

theorem Search.finds (h : Search key pick before start far) (xs : List Float) :
    Finds before start far xs ((known xs).foldl pick start) := by
  have hknown : ∀ x ∈ known xs, x.isNaN = false := fun x hx => (mem_known_iff.1 hx).2
  have hargmin := h.argmin_eq h.start_known hknown
  generalize (known xs).foldl pick start = r at hargmin ⊢
  have hmem : r ∈ start :: known xs := List.argmin_mem hargmin
  have hr : r.isNaN = false := by
    rcases List.mem_cons.1 hmem with rfl | hmem
    · exact h.start_known
    · exact hknown r hmem
  have hle : ∀ x ∈ start :: known xs, key r ≤ key x :=
    fun x hx => List.le_of_mem_argmin hx hargmin
  have hfar : r ≠ far := by
    rintro rfl
    exact (hle start List.mem_cons_self).not_gt h.start_lt_far
  refine ⟨fun x hx => ?_, ⟨fun hmem => ⟨r, hmem, hfar⟩, ?_⟩, fun _ hall => ?_⟩
  · exact (h.before_iff hr (hknown x hx)).2 (hle x (List.mem_cons_of_mem _ hx))
  · rintro ⟨x, hx, hne⟩
    rcases List.mem_cons.1 hmem with rfl | hmem
    · have hsame : key x = key r :=
        (h.key_le (hknown x hx) hne).antisymm (hle x (List.mem_cons_of_mem _ hx))
      rwa [← h.eq_start (hknown x hx) hsame]
    · exact hmem
  · exact (List.mem_cons.1 hmem).resolve_right fun hmem => hfar (hall r hmem)

/-- Among no numbers there is nothing to find. -/
theorem finds_nil : Finds before start far [] unknown where
  before_all := by simp [known]
  mem_iff := by simp [known]
  eq_start h := absurd rfl h

/-- The least and the greatest of some numbers are not beyond any known one, whatever stands between
them. Each is one of them, unless all known numbers are infinite on the far side; then it is the
finite number from which the search starts. -/
theorem apply_finds (xs : List Float) :
    Finds (· ≤ ·) greatestFinite infinity xs (min.apply xs) ∧
      Finds (· ≥ ·) (-greatestFinite) (-infinity) xs (max.apply xs) := by
  by_cases hxs : xs = []
  · subst hxs
    exact ⟨finds_nil, finds_nil⟩
  · have hne : ¬ xs.isEmpty = true := by simpa using hxs
    rw [apply, if_neg hne, apply, if_neg hne]
    exact ⟨search_lesser.finds xs, search_greater.finds xs⟩

/-- Infinity alone is not found. -/
example : min.apply [unknown, infinity] = greatestFinite := by decide

end Telemetry.Consolidation
