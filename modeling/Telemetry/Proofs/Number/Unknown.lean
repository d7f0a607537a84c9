import Telemetry.Expression.Formula
import Telemetry.Proofs.Number

/-!
# Arithmetic on unknown numbers

An operation on doubles is unknown as soon as one of its operands is. The least and the greatest of
some numbers are so too, as they are defined here; of known numbers they pick one, for what they
start from, infinity of the one sign or the other, gives way to whatever number comes first.
-/

namespace Telemetry

namespace Number

open Float.Model Float.Model.UnpackedFloat

variable {x y : Float}

theorem isNaN_iff : x.isNaN = true ↔ unpacked x = .notANumber := by
  show (unpacked x).isNaN = true ↔ _
  cases unpacked x <;> simp [UnpackedFloat.isNaN]

theorem isNaN_pack : (Float.ofModel (.pack .notANumber)).isNaN = true := rfl

theorem isNaN_neg (h : x.isNaN = true) : (-x).isNaN = true := by
  show (Float.ofModel (.pack (unpacked x).neg)).isNaN = true
  rw [isNaN_iff.1 h]
  exact isNaN_pack

theorem isNaN_abs (h : x.isNaN = true) : x.abs.isNaN = true := by
  show (Float.ofModel (.pack (unpacked x).abs)).isNaN = true
  rw [isNaN_iff.1 h]
  exact isNaN_pack

/-- Where one operand is not a number, neither is the result. -/
def Absorbing (f : UnpackedFloat → UnpackedFloat → UnpackedFloat) : Prop :=
  ∀ u, f .notANumber u = .notANumber ∧ f u .notANumber = .notANumber

theorem absorbing_add : Absorbing (UnpackedFloat.add .binary64) := by
  intro u
  cases u <;> exact ⟨rfl, rfl⟩

theorem absorbing_sub : Absorbing (UnpackedFloat.sub .binary64) := by
  intro u
  cases u <;> exact ⟨rfl, rfl⟩

theorem absorbing_mul : Absorbing (UnpackedFloat.mul .binary64) := by
  intro u
  cases u <;> exact ⟨rfl, rfl⟩

theorem absorbing_div : Absorbing (UnpackedFloat.div .binary64) := by
  intro u
  cases u <;> exact ⟨rfl, rfl⟩

theorem Absorbing.isNaN {f : UnpackedFloat → UnpackedFloat → UnpackedFloat} (hf : Absorbing f)
    (h : x.isNaN = true ∨ y.isNaN = true) :
    (Float.ofModel (.pack (f (unpacked x) (unpacked y)))).isNaN = true := by
  rcases h with hx | hy
  · rw [isNaN_iff.1 hx, (hf _).1]
    exact isNaN_pack
  · rw [isNaN_iff.1 hy, (hf _).2]
    exact isNaN_pack

theorem unpacked_infinity : unpacked infinity = .infinity .positive := rfl

theorem unpacked_neg_infinity : unpacked (-infinity) = .infinity .negative := rfl

/-- No number but infinity itself is not less than infinity. -/
theorem compare_infinity {u : UnpackedFloat} (hu : u.isNaN = false) :
    u = .infinity .positive ∨ u.compare (.infinity .positive) = some .lt := by
  rcases u with (_ | _) | _ | (_ | _) | ⟨_ | _, m, e, hm⟩ <;>
    first
      | exact .inl rfl
      | exact .inr rfl
      | cases hu

theorem neg_infinity_compare {u : UnpackedFloat} (hu : u.isNaN = false) :
    u = .infinity .negative ∨ (UnpackedFloat.infinity .negative).compare u = some .lt := by
  rcases u with (_ | _) | _ | (_ | _) | ⟨_ | _, m, e, hm⟩ <;>
    first
      | exact .inl rfl
      | exact .inr rfl
      | cases hu

theorem eq_infinity_of_not_lt (hx : x.isNaN = false) (h : ¬ x < infinity) : x = infinity := by
  rw [lt_iff, unpacked_infinity] at h
  have hu := (compare_infinity (u := unpacked x) hx).resolve_right h
  rw [← ofModel_pack_unpacked x, hu]
  rfl

theorem eq_neg_infinity_of_not_lt (hx : x.isNaN = false) (h : ¬ -infinity < x) :
    x = -infinity := by
  rw [lt_iff, unpacked_neg_infinity] at h
  have hu := (neg_infinity_compare (u := unpacked x) hx).resolve_right h
  rw [← ofModel_pack_unpacked x, hu]
  rfl

theorem or_isNaN (hx : x.isNaN = false) (hy : y.isNaN = false) :
    ¬ (x.isNaN || y.isNaN) = true := by
  rw [hx, hy]
  decide

end Number

open Number

variable {x y : Float} {xs : List Float}

theorem isNaN_unknown : unknown.isNaN = true := rfl

theorem Operator.isNaN_apply (op : Operator) (h : x.isNaN = true ∨ y.isNaN = true) :
    (op.apply x y).isNaN = true := by
  cases op with
  | add => exact absorbing_add.isNaN h
  | subtract => exact absorbing_sub.isNaN h
  | multiply => exact absorbing_mul.isNaN h
  | divide => exact absorbing_div.isNaN h

namespace Builtin

/-- The operation is unknown as soon as an operand is, and else picks one of the two. What it starts
from, `start`, is never picked. -/
structure Picks (f : Float → Float → Float) (start : Float) : Prop where
  strict : ∀ {x y}, x.isNaN = true ∨ y.isNaN = true → (f x y).isNaN = true
  picks : ∀ {x y}, x.isNaN = false → y.isNaN = false → f x y = x ∨ f x y = y
  start_eq : ∀ {x}, x.isNaN = false → f start x = x

theorem picks_leastKnown : Picks leastKnown infinity where
  strict h := by
    rw [leastKnown, if_pos (Bool.or_eq_true_iff.2 h)]
    exact isNaN_unknown
  picks hx hy := by
    rw [leastKnown, if_neg (or_isNaN hx hy)]
    split
    · exact .inr rfl
    · exact .inl rfl
  start_eq hx := by
    have hstart : infinity.isNaN = false := rfl
    rw [leastKnown, if_neg (or_isNaN hstart hx)]
    split
    · rfl
    next h => exact (eq_infinity_of_not_lt hx h).symm

theorem picks_greatestKnown : Picks greatestKnown (-infinity) where
  strict h := by
    rw [greatestKnown, if_pos (Bool.or_eq_true_iff.2 h)]
    exact isNaN_unknown
  picks hx hy := by
    rw [greatestKnown, if_neg (or_isNaN hx hy)]
    split
    · exact .inr rfl
    · exact .inl rfl
  start_eq hx := by
    have hstart : (-infinity).isNaN = false := rfl
    rw [greatestKnown, if_neg (or_isNaN hstart hx)]
    split
    · rfl
    next h => exact (eq_neg_infinity_of_not_lt hx h).symm

section Fold

variable {f : Float → Float → Float} {start : Float}

theorem Picks.isNaN_foldl (hf : Picks f start) (h : x.isNaN = true ∨ ∃ y ∈ xs, y.isNaN = true) :
    (xs.foldl f x).isNaN = true := by
  induction xs generalizing x with
  | nil => simpa using h
  | cons z xs ih =>
    refine ih ?_
    rcases h with hx | ⟨y, hy, hnan⟩
    · exact .inl (hf.strict (.inl hx))
    · rcases List.mem_cons.1 hy with rfl | hy
      · exact .inl (hf.strict (.inr hnan))
      · exact .inr ⟨y, hy, hnan⟩

theorem Picks.foldl_mem (hf : Picks f start) (hx : x.isNaN = false)
    (h : ∀ y ∈ xs, y.isNaN = false) : xs.foldl f x ∈ x :: xs := by
  induction xs generalizing x with
  | nil => exact List.mem_singleton_self x
  | cons z xs ih =>
    have hz := h z List.mem_cons_self
    have hrest : ∀ y ∈ xs, y.isNaN = false := fun y hy => h y (List.mem_cons_of_mem _ hy)
    rw [List.foldl_cons]
    rcases hf.picks hx hz with hpick | hpick <;> rw [hpick]
    · have := ih hx hrest
      simp only [List.mem_cons] at this ⊢
      tauto
    · exact List.mem_cons_of_mem _ (ih hz hrest)

/-- Of some known numbers one is picked. -/
theorem Picks.foldl_start_mem (hf : Picks f start) (hne : xs ≠ [])
    (h : ∀ y ∈ xs, y.isNaN = false) : xs.foldl f start ∈ xs := by
  obtain ⟨x, xs, rfl⟩ := List.exists_cons_of_ne_nil hne
  have hx := h x List.mem_cons_self
  rw [List.foldl_cons, hf.start_eq hx]
  exact hf.foldl_mem hx fun y hy => h y (List.mem_cons_of_mem _ hy)

end Fold

/-- A call is unknown as soon as an argument is, where `abs` has no more than one. -/
theorem isNaN_apply {f : Builtin} (hone : f = .abs → xs.length = 1)
    (h : ∃ x ∈ xs, x.isNaN = true) : (f.apply xs).isNaN = true := by
  cases f with
  | abs =>
    obtain ⟨x, rfl⟩ := List.length_eq_one_iff.1 (hone rfl)
    obtain ⟨y, hy, hnan⟩ := h
    obtain rfl := List.mem_singleton.1 hy
    exact isNaN_abs hnan
  | min => exact picks_leastKnown.isNaN_foldl (.inr h)
  | max => exact picks_greatestKnown.isNaN_foldl (.inr h)

theorem apply_mem {f : Builtin} (hf : f = .min ∨ f = .max) (hne : xs ≠ [])
    (h : ∀ x ∈ xs, x.isNaN = false) : f.apply xs ∈ xs := by
  rcases hf with rfl | rfl
  · exact picks_leastKnown.foldl_start_mem hne h
  · exact picks_greatestKnown.foldl_start_mem hne h

end Builtin

end Telemetry
