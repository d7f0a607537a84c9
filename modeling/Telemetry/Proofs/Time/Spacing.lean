import Mathlib.Data.List.Chain
import Mathlib.Data.List.Sort
import Telemetry.Proofs.Time.Range

/-!
# Evenly spaced integers

A walk from `a` to `b` in steps of `d` meets the integers `spaced a b d`. Membership in them is a
matter of bounds and divisibility, and they are strictly ascending, so that parts of them are told
apart by their members.
-/

namespace Telemetry

/-- The integers `a`, `a + d` and so on, up to `b`. -/
def spaced (a b d : Int) : List Int :=
  (List.range ((b - a) / d + 1).toNat).map fun i : Nat => a + i * d

section Spaced

variable {a b d x : Int}

theorem spaced_of_lt (hd : 0 < d) (h : b < a) : spaced a b d = [] := by
  have : (b - a) / d < 0 := Int.ediv_neg_of_neg_of_pos (by omega) hd
  rw [spaced, Int.toNat_of_nonpos (by omega)]
  rfl

theorem sub_add_ediv (hd : 0 < d) : (b - (a + d)) / d = (b - a) / d - 1 := by
  rw [show b - (a + d) = b - a + d * (-1) by ring, Int.add_mul_ediv_left _ _ hd.ne']
  rfl

theorem spaced_of_le (hd : 0 < d) (h : a ≤ b) : spaced a b d = a :: spaced (a + d) b d := by
  have hq : 0 ≤ (b - a) / d := Int.ediv_nonneg (by omega) hd.le
  have hshift := sub_add_ediv (a := a) (b := b) hd
  have hcount : ((b - a) / d + 1).toNat = ((b - (a + d)) / d + 1).toNat + 1 := by omega
  rw [spaced, hcount, List.range_succ_eq_map, List.map_cons, List.map_map, spaced]
  congr 1
  · simp
  · apply List.map_congr_left
    intro i _
    simp only [Function.comp_apply, Nat.succ_eq_add_one]
    push_cast
    ring

theorem mem_spaced (hd : 0 < d) : x ∈ spaced a b d ↔ a ≤ x ∧ x ≤ b ∧ d ∣ x - a := by
  constructor
  · intro h
    obtain ⟨i, hi, rfl⟩ := List.mem_map.1 h
    have hlt : (i : Int) < (b - a) / d + 1 := by
      have := List.mem_range.1 hi
      omega
    have hle := Int.mul_le_of_le_ediv hd (by omega : (i : Int) ≤ (b - a) / d)
    have hnonneg : 0 ≤ (i : Int) * d := mul_nonneg (by omega) hd.le
    exact ⟨by omega, by omega, by simp⟩
  · rintro ⟨hax, hxb, k, hk⟩
    have hk0 : 0 ≤ k := by
      by_contra hneg
      nlinarith
    have hle : k ≤ (b - a) / d := Int.le_ediv_of_mul_le hd (by rw [mul_comm, ← hk]; omega)
    refine List.mem_map.2 ⟨k.toNat, List.mem_range.2 (by omega), ?_⟩
    rw [Int.toNat_of_nonneg hk0, mul_comm, ← hk]
    omega

theorem pairwise_spaced (hd : 0 < d) : (spaced a b d).Pairwise (· < ·) := by
  refine List.pairwise_map.2 (List.pairwise_lt_range.imp fun {i j} hij => ?_)
  have : (i : Int) * d < j * d := mul_lt_mul_of_pos_right (by omega) hd
  omega

theorem isChain_spaced (a b d : Int) : (spaced a b d).IsChain (fun p q => q = p + d) := by
  apply List.isChain_iff_getElem.2
  intro i hi
  simp only [spaced, List.getElem_map, List.getElem_range]
  push_cast
  ring

theorem length_spaced (a b d : Int) : (spaced a b d).length = ((b - a) / d + 1).toNat := by
  simp [spaced]

/-- A spacing whose ends are a whole number of steps apart reaches its end. -/
theorem getLast?_spaced (hd : 0 < d) (h : a ≤ b) (hdvd : d ∣ b - a) :
    (spaced a b d).getLast? = some b := by
  obtain ⟨k, hk⟩ := hdvd
  have hk0 : 0 ≤ k := by
    by_contra hneg
    nlinarith
  obtain ⟨n, rfl⟩ := Int.eq_ofNat_of_zero_le hk0
  have hcount : ((b - a) / d + 1).toNat = n + 1 := by
    rw [hk, Int.mul_ediv_cancel_left _ hd.ne']
    omega
  rw [spaced, hcount, List.range_succ, List.map_append, List.map_singleton,
    List.getLast?_concat, mul_comm, ← hk]
  congr 1
  omega

/-- A spacing whose ends are a whole number of steps apart is the same from either end. -/
theorem reverse_spaced (hdvd : d ∣ b - a) :
    (spaced a b d).reverse = (spaced (-b) (-a) d).map (- ·) := by
  have hq : (b - a) / d * d = b - a := Int.ediv_mul_cancel hdvd
  have hsame : -a - -b = b - a := by omega
  apply List.ext_getElem
  · rw [List.length_reverse, List.length_map, length_spaced, length_spaced, hsame]
  · intro i hi _
    rw [List.length_reverse, length_spaced] at hi
    have hindex : (((b - a) / d + 1).toNat - 1 - i : Nat) = (b - a) / d - i := by omega
    simp only [List.getElem_reverse, spaced, List.getElem_map, List.getElem_range, List.length_map,
      List.length_range, hindex, Int.sub_mul, hq]
    omega

/-- What of a spacing lies between two of its instants is a spacing again. -/
theorem filter_spaced {lo hi : Int} (hd : 0 < d) (hlo : d ∣ lo - a) (hhi : hi ≤ b) :
    (spaced a b d).filter (fun x => lo < x ∧ x ≤ hi) = spaced (max a (lo + d)) hi d := by
  apply ((pairwise_spaced hd).filter _).eq_of_mem_iff (pairwise_spaced hd)
  intro x
  have hmax : d ∣ max a (lo + d) - a := by
    rcases max_choice a (lo + d) with h | h
    · simp [h]
    · rw [h, show lo + d - a = lo - a + d by ring]
      exact Int.dvd_add hlo (Int.dvd_refl d)
  have hdvd : d ∣ x - max a (lo + d) ↔ d ∣ x - a := by
    rw [show x - a = x - max a (lo + d) + (max a (lo + d) - a) by ring]
    exact (Int.dvd_add_left hmax).symm
  simp only [List.mem_filter, mem_spaced hd, decide_eq_true_eq, hdvd]
  constructor
  · rintro ⟨⟨hax, hxb, hx⟩, hlt, hle⟩
    have hstep : d ≤ x - lo := by
      refine Int.le_of_dvd (by omega) ?_
      rw [show x - lo = x - a - (lo - a) by ring]
      exact Int.dvd_sub hx hlo
    exact ⟨by omega, hle, hx⟩
  · rintro ⟨hmax, hle, hx⟩
    exact ⟨⟨by omega, by omega, hx⟩, by omega, hle⟩

/-- A spacing up to `c` begins with `b` just if it does not begin later. -/
theorem spaced_max_eq_iff {c : Int} (hd : 0 < d) (hb : b ≤ c) :
    spaced (max a b) c d = spaced b c d ↔ a ≤ b := by
  constructor
  · intro h
    have hmem : b ∈ spaced b c d := (mem_spaced hd).2 ⟨le_refl b, hb, by simp⟩
    rw [← h, mem_spaced hd] at hmem
    omega
  · intro h
    rw [max_eq_right h]

end Spaced

end Telemetry
