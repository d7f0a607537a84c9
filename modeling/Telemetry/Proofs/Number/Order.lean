import Telemetry.Proofs.Number.Unknown

/-!
# The order of doubles

Numbers are compared by sign first, with infinity beyond all others of its sign, then by exponent
and mantissa. So each number has a rank in a linear order, and the comparisons of numbers are those
of their ranks. Only the two zeros share one.
-/

namespace Telemetry.Number

open Float.Model Float.Model.UnpackedFloat

/-- What counts for the order. What is no number is not compared, and its rank does not matter. -/
def rankOf : UnpackedFloat → ℤ ×ₗ ℤ ×ₗ ℤ
  | .infinity .negative => toLex (-2, toLex (0, 0))
  | .finite .negative m e _ => toLex (-1, toLex (-e, -m))
  | .notANumber | .zero _ => toLex (0, toLex (0, 0))
  | .finite .positive m e _ => toLex (1, toLex (e, m))
  | .infinity .positive => toLex (2, toLex (0, 0))

def rank (x : Float) : ℤ ×ₗ ℤ ×ₗ ℤ :=
  rankOf (unpacked x)

theorem compare_toLex {α β : Type} [LinearOrder α] [LinearOrder β] (a a' : α) (b b' : β) :
    compare (toLex (a, b)) (toLex (a', b')) = (compare a a').then (compare b b') := by
  rw [Prod.Lex.compare_def]
  rfl

theorem compare_neg (a b : ℤ) : compare (-a) (-b) = compare b a := by
  rw [← cmp_eq_compare, ← cmp_eq_compare]
  exact StrictAnti.cmp_map_eq (fun _ _ => neg_lt_neg) a b

theorem compare_cast (m n : ℕ) : compare (m : ℤ) n = compare m n := by
  rw [← cmp_eq_compare, ← cmp_eq_compare]
  exact Int.natCast_strictMono.cmp_map_eq m n

/-- All cases but two numbers of one sign are told by the sign alone. -/
theorem compare_eq_rankOf {u w : UnpackedFloat} (hu : u.isNaN = false) (hw : w.isNaN = false) :
    u.compare w = some (compare (rankOf u) (rankOf w)) := by
  rcases u with (_ | _) | _ | (_ | _) | ⟨_ | _, m, e, hm⟩ <;>
    rcases w with (_ | _) | _ | (_ | _) | ⟨_ | _, m', e', hm'⟩ <;>
    first
      | rfl
      | contradiction
      | simp only [UnpackedFloat.compare, rankOf, compare_toLex, Std.ReflCmp.compare_self,
          Ordering.eq_then, compare_neg, compare_cast, then_swap m m' e e']

variable {x y : Float}

theorem lt_iff_rank (hx : x.isNaN = false) (hy : y.isNaN = false) : x < y ↔ rank x < rank y := by
  have hcompare : (unpacked x).compare (unpacked y) = some (compare (rank x) (rank y)) :=
    compare_eq_rankOf hx hy
  rw [lt_iff, hcompare, Option.some_inj, compare_lt_iff_lt]

theorem le_iff_rank (hx : x.isNaN = false) (hy : y.isNaN = false) : x ≤ y ↔ rank x ≤ rank y := by
  show decide (UnpackedFloat.le (unpacked x) (unpacked y) = true) = true ↔ _
  have hcompare : (unpacked x).compare (unpacked y) = some (compare (rank x) (rank y)) :=
    compare_eq_rankOf hx hy
  rw [decide_eq_true_iff, UnpackedFloat.le, hcompare, Option.any_some, Ordering.isLE_iff_ne_gt]
  exact compare_le_iff_le

theorem eq_of_rank_eq (hx : x.isNaN = false) (hy : y.isNaN = false) (hzero : y ≠ 0 ∧ y ≠ -0)
    (h : rank x = rank y) : x = y := by
  have hsame : (x == y) = true := by
    refine beq_of_not_lt hx hy ?_ ?_
    · rw [lt_iff_rank hx hy, h]
      exact lt_irrefl _
    · rw [lt_iff_rank hy hx, h]
      exact lt_irrefl _
  obtain ⟨-, -, heq | ⟨-, hneg⟩ | ⟨-, hpos⟩⟩ := Float.beq_iff_ne_nan_and_eq.1 hsame
  · exact heq
  · exact absurd hneg hzero.2
  · exact absurd hpos hzero.1

/-! ## Zero -/

/-- The sign of a zero does not count. -/
theorem compare_zero (u : UnpackedFloat) (s : Sign) :
    u.compare (.zero s) = u.compare (.zero .positive) := by
  rcases u with (_ | _) | _ | (_ | _) | ⟨_ | _, m, e, hm⟩ <;> rfl

theorem div_cases_of_zero (u : UnpackedFloat) :
    UnpackedFloat.div .binary64 (.zero .positive) u = .notANumber ∨
      ∃ s, UnpackedFloat.div .binary64 (.zero .positive) u = .zero s := by
  cases u with
  | notANumber => exact .inl rfl
  | zero s => exact .inl rfl
  | infinity s => exact .inr ⟨_, rfl⟩
  | finite s m e hm => exact .inr ⟨_, rfl⟩

theorem unpacked_zero (s : Sign) : unpacked (.ofModel (.pack (.zero s))) = .zero s := by
  cases s <;> rfl

/-- Zero divided by anything is zero or no number. -/
theorem zero_div_cases (x : Float) : (0 / x).isNaN = true ∨ ∃ s, unpacked (0 / x) = .zero s := by
  have hzero : unpacked 0 = .zero .positive := rfl
  rw [div_def, hzero]
  rcases div_cases_of_zero (unpacked x) with h | ⟨s, h⟩ <;> rw [h]
  · exact .inl isNaN_pack
  · exact .inr ⟨s, unpacked_zero s⟩

/-- No number from zero on is less than zero divided by anything. -/
theorem not_lt_zero_div (h : 0 ≤ y) (x : Float) : ¬ y < 0 / x := by
  rw [lt_iff]
  rcases zero_div_cases x with hnan | ⟨s, hs⟩
  · rw [isNaN_iff.1 hnan]
    cases unpacked y <;> simp [UnpackedFloat.compare]
  · have hnot : ¬ y < 0 := not_lt_of_le h
    rw [hs, compare_zero]
    rwa [lt_iff] at hnot

/-! ## The greatest finite number -/

open Consolidation (greatestFinite)

theorem rank_infinity : rank infinity = toLex (2, toLex (0, 0)) := rfl

theorem rank_neg_infinity : rank (-infinity) = toLex (-2, toLex (0, 0)) := rfl

theorem rank_greatestFinite : rank greatestFinite = toLex (1, toLex (971, 2 ^ 53 - 1)) := rfl

theorem rank_neg_greatestFinite :
    rank (-greatestFinite) = toLex (-1, toLex (-971, -(2 ^ 53 - 1))) := rfl

theorem eq_of_unpacked_eq (h : unpacked x = unpacked y) : x = y := by
  rw [← ofModel_pack_unpacked x, h, ofModel_pack_unpacked]

/-- The numbers other than the two infinities lie between the two greatest finite ones. -/
theorem rank_cases (hx : x.isNaN = false) : x = -infinity ∨ x = infinity ∨
    rank (-greatestFinite) ≤ rank x ∧ rank x ≤ rank greatestFinite := by
  have hnumber : (unpacked x).isNaN = false := hx
  rw [rank_greatestFinite, rank_neg_greatestFinite, rank]
  cases h : unpacked x with
  | notANumber =>
    rw [h] at hnumber
    cases hnumber
  | infinity s =>
    cases s with
    | negative => exact .inl (eq_of_unpacked_eq h)
    | positive => exact .inr (.inl (eq_of_unpacked_eq h))
  | zero s =>
    refine .inr (.inr ?_)
    simp only [rankOf, Prod.Lex.toLex_le_toLex]
    omega
  | finite s m e hm =>
    have hmantissa := (canonical_of_unpack h).lt
    have hexponent := (canonical_of_unpack h).le_max
    refine .inr (.inr ?_)
    cases s <;>
      · simp only [rankOf, Prod.Lex.toLex_le_toLex, true_and]
        omega

end Telemetry.Number
