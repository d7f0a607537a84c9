import Telemetry.Proofs.Attributes
import Telemetry.Proofs.Buckets.Run
import Telemetry.Proofs.Number

/-!
# Buckets of one point

A bucket of one point repeats the value and the attributes of that point, if one known point is
enough: its part of the bucket is one, which exceeds every xff but an xff of one. Of a single number
an average or an extreme is the number itself, unless a search for the least number that starts from
the greatest finite one meets infinity.
-/

namespace Telemetry

/-- The same number, or no number both. -/
def SameNumber (x y : Float) : Prop :=
  (x == y) = true ∨ x.isNaN = true ∧ y.isNaN = true

theorem SameNumber.isNaN_eq {x y : Float} (h : SameNumber x y) : x.isNaN = y.isNaN := by
  rcases h with hsame | ⟨hx, hy⟩
  · obtain ⟨hx, hy, -⟩ := Float.beq_iff_ne_nan_and_eq.1 hsame
    simp [hx, hy]
  · rw [hx, hy]

/-! ## Consolidating one number -/

namespace Consolidation

variable {x : Float}

/-- The number is not beyond the one from which the search for an extreme starts. -/
def Reaches : Consolidation → Float → Prop
  | average, _ => True
  | min, x => ¬ greatestFinite < x
  | max, x => ¬ x < -greatestFinite

theorem known_of_not_isNaN (hx : x.isNaN = false) : known [x] = [x] := by
  simp only [known, List.filter_cons, hx, Bool.not_false, if_true, List.filter_nil]

theorem known_of_isNaN (hx : x.isNaN = true) : known [x] = [] := by
  simp only [known, List.filter_cons, hx, Bool.not_true, Bool.false_eq_true, if_false,
    List.filter_nil]

theorem apply_singleton (f : Consolidation) (hx : x.isNaN = false) (h : f.Reaches x) :
    (f.apply [x] == x) = true := by
  have hself : (x == x) = true := by simpa using hx
  have hone : (1 : Nat).toUInt64.toFloat = 1 := by decide +kernel
  rw [apply, if_neg (by simp), known_of_not_isNaN hx]
  cases f with
  | average =>
    simp only [List.isEmpty_cons, Bool.false_eq_true, if_false, List.foldl_cons, List.foldl_nil,
      List.length_singleton, hone]
    rw [Number.div_one]
    exact Number.zero_add_beq hx
  | min =>
    show (lesser greatestFinite x == x) = true
    unfold lesser
    split
    · exact hself
    · exact Number.beq_of_not_lt (by decide) hx h ‹_›
  | max =>
    show (greater (-greatestFinite) x == x) = true
    unfold greater
    split
    · exact hself
    · exact Number.beq_of_not_lt (by decide) hx ‹_› h

end Consolidation

/-! ## Buckets -/

/-- What a bucket of a single point `x` is worth: the same, where the point is enough to exceed the
xff, and otherwise nothing. -/
structure Datasource.Repeats (ds : Datasource) (x y : Float) : Prop where
  same : ds.xff < 1 → ds.function.Reaches x → SameNumber y x
  unknown : ¬ ds.xff < 1 → y.isNaN = true

namespace Bucket

variable {ds : Datasource} {x : Float}

theorem repeats_value (attributes : Option Attributes) (hxff : 0 ≤ ds.xff) :
    ds.Repeats x ((⟨ds, [x], attributes⟩ : Bucket).value 1) := by
  have hnone : (0 : Nat).toUInt64.toFloat / 1 = 0 := by decide +kernel
  have hone : (1 : Nat).toUInt64.toFloat / 1 = 1 := by decide +kernel
  have hunknown : Telemetry.unknown.isNaN = true := by decide +kernel
  cases hx : x.isNaN with
  | true =>
    have hvalue : (⟨ds, [x], attributes⟩ : Bucket).value 1 = Telemetry.unknown := by
      simp only [value, Consolidation.known_of_isNaN hx, List.length_nil, hnone,
        if_neg (Number.not_lt_of_le hxff)]
    rw [hvalue]
    exact ⟨fun _ _ => .inr ⟨hunknown, hx⟩, fun _ => hunknown⟩
  | false =>
    have hvalue : (⟨ds, [x], attributes⟩ : Bucket).value 1 =
        if ds.xff < 1 then ds.function.apply [x] else Telemetry.unknown := by
      simp only [value, Consolidation.known_of_not_isNaN hx, List.length_singleton, hone]
    rw [hvalue]
    refine ⟨fun h hreach => ?_, fun h => ?_⟩
    · rw [if_pos h]
      exact .inl (ds.function.apply_singleton hx hreach)
    · rw [if_neg h]
      exact hunknown

theorem addAll_singleton {row : Row Float} {m : Measurement} (h : row.get? ds.label = some m) :
    (⟨ds, [], none⟩ : Bucket).addAll [row] = ⟨ds, [m.value], m.attributes⟩ := by
  have hadd : (⟨ds, [], none⟩ : Bucket).add row = ⟨ds, [m.value], m.attributes⟩ := by
    simp only [add, h, Attributes.merge?_none]
    rfl
  exact hadd

end Bucket

end Telemetry
