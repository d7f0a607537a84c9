import Mathlib.Tactic.Ring
import Telemetry.Decimal.Text
import Telemetry.Proofs.Text

/-!
# Digits of shortest decimals

The shortest decimal of a positive double is looked for on finer and finer grids. On none of them is
it zero, nor on the last one, which is taken without another look: the first digit of the number has
been found before, and this grid is sixteen places finer. So the digits that are written do not
begin with a zero.
-/

namespace Telemetry

theorem head?_toDigits {n : Nat} (h : 0 < n) : (Nat.toDigits 10 n).head? ≠ some '0' := by
  induction n using Nat.strongRecOn with
  | ind n ih =>
    by_cases hlt : n < 10
    · have hdigit : ∀ m < 10, 0 < m → [Nat.digitChar m].head? ≠ some '0' := by decide
      rw [Nat.toDigits_of_lt_base hlt]
      exact hdigit n hlt h
    · have hne : Nat.toDigits 10 (n / 10) ≠ [] := Nat.toDigits_ne_nil
      rw [Nat.toDigits_of_base_le (by decide) (by omega), List.head?_append,
        Option.or_of_isSome (List.isSome_head?.2 hne)]
      exact ih (n / 10) (by omega) (by omega)

theorem digits_replicate_append {ds : List Char} (n : Nat) (h : Digits ds) :
    Digits (List.replicate n '0' ++ ds) := by
  refine ⟨by simp [h.1], fun c hc => ?_⟩
  rcases List.mem_append.1 hc with hc | hc
  · rw [List.eq_of_mem_replicate hc]
    decide
  · exact h.2 c hc

namespace Decimal

variable {d : Decimal}

/-- What stands before the point is a number of its own, and behind it there are only digits. -/
theorem digits_split (h : 0 < d.digits) :
    Digits d.split.1 ∧ (d.split.1.head? = some '0' → d.split.1.length ≤ 1) ∧
      ∀ c ∈ d.split.2, c.isDigit = true := by
  have hdigits : Digits d.digitChars := digits_toDigits _
  have hhead : d.digitChars.head? ≠ some '0' := head?_toDigits h
  unfold Decimal.split
  dsimp only
  split
  · refine ⟨⟨by simp [hdigits.1], fun c hc => ?_⟩, fun hzero => ?_, by simp⟩
    · rcases List.mem_append.1 hc with hc | hc
      · exact hdigits.2 c hc
      · rw [List.eq_of_mem_replicate hc]
        decide
    · rw [List.head?_append, Option.or_of_isSome (List.isSome_head?.2 hdigits.1)] at hzero
      exact absurd hzero hhead
  · split
    · rename_i hlead
      obtain ⟨n, hn⟩ : ∃ n, (d.lead + 1).toNat = n + 1 := ⟨d.lead.toNat, by omega⟩
      rw [List.splitAt_eq, hn]
      refine ⟨⟨?_, fun c hc => hdigits.2 c (List.mem_of_mem_take hc)⟩, fun hzero => ?_,
        fun c hc => hdigits.2 c (List.mem_of_mem_drop hc)⟩
      · simpa using hdigits.1
      · exact absurd (by simpa [List.head?_take] using hzero) hhead
    · refine ⟨⟨by simp, by simp⟩, fun _ => le_rfl, ?_⟩
      exact (digits_replicate_append _ hdigits).2

theorem trim_pos (h : 0 < d.digits) (fuel : Nat) : 0 < (d.trim fuel).digits := by
  induction fuel generalizing d with
  | zero => exact h
  | succ fuel ih =>
    rw [trim]
    split
    · exact ih (d := ⟨d.digits / 10, d.exponent + 1⟩) (Nat.div_pos (by omega) (by decide))
    · exact h

end Decimal

namespace Binary

namespace Interval

variable {i : Interval} {d : Decimal} {place : Int}

theorem nearest?_pos (h : i.nearest? place = some d) : 0 < d.digits := by
  unfold nearest? at h
  generalize i.divide place = parts at h
  obtain ⟨below, twice, unit⟩ := parts
  dsimp only at h
  split at h
  · rename_i hboth
    have hbelow : 0 < below := by simp at hboth; omega
    cases h
    dsimp only
    split <;> omega
  · split at h
    · rename_i hlower
      have hbelow : 0 < below := by simp at hlower; omega
      cases h
      exact hbelow
    · split at h
      · cases h
        exact Nat.succ_pos below
      · cases h

theorem search_pos {lead : Int} (h : 0 < (i.divide (lead - 16)).1) (fuel count : Nat) :
    0 < (i.search lead fuel count).digits := by
  induction fuel generalizing count with
  | zero => exact h
  | succ fuel ih =>
    rw [search]
    cases hnearest : i.nearest? (lead - count) with
    | some d => exact nearest?_pos hnearest
    | none => exact ih (count + 1)

/-- Below one the search for the first digit ends in time. -/
theorem exists_leadBelowOne {n : Nat} (h : i.denominator ≤ i.value * 10 ^ n) (fuel k : Nat)
    (hn : n ≤ k + fuel) :
    ∃ k' : Nat, i.leadBelowOne fuel k = -k' ∧ i.denominator ≤ i.value * 10 ^ k' := by
  induction fuel generalizing k with
  | zero =>
    refine ⟨k, rfl, h.trans ?_⟩
    exact Nat.mul_le_mul_left _ (Nat.pow_le_pow_right (by decide) hn)
  | succ fuel ih =>
    rw [leadBelowOne]
    split
    · exact ⟨k, rfl, ‹_›⟩
    · exact ih (k + 1) (by omega)

/-- The number is not less than the power of ten of its first digit. -/
theorem pow_lead_le {n : Nat} (h : i.denominator ≤ i.value * 10 ^ n) (hn : n ≤ 331) :
    i.denominator * 10 ^ i.lead.toNat ≤ i.value * 10 ^ (-i.lead).toNat := by
  unfold lead
  dsimp only
  split
  · obtain ⟨k, hk, hle⟩ := exists_leadBelowOne h 330 1 hn
    rw [hk, neg_neg, Int.toNat_natCast, Int.toNat_neg_natCast, pow_zero, Nat.mul_one]
    exact hle
  · rename_i hwhole
    obtain ⟨m, hm⟩ : ∃ m, (Nat.toDigits 10 (i.value / i.denominator)).length = m + 1 :=
      Nat.exists_eq_add_one_of_ne_zero Nat.length_toDigits_pos.ne'
    have hpow : 10 ^ m ≤ i.value / i.denominator := by
      by_contra hlt
      rcases Nat.eq_zero_or_pos m with rfl | hpos
      · exact hlt (Nat.one_le_iff_ne_zero.2 hwhole)
      · have := (Nat.length_toDigits_le_iff (by decide) hpos).2 (Nat.lt_of_not_le hlt)
        omega
    have hlead : ((Nat.toDigits 10 (i.value / i.denominator)).length : Int) - 1 = m := by omega
    rw [hlead, Int.toNat_natCast, Int.toNat_neg_natCast, pow_zero, Nat.mul_one]
    calc i.denominator * 10 ^ m ≤ i.denominator * (i.value / i.denominator) :=
          Nat.mul_le_mul_left _ hpow
      _ ≤ i.value := Nat.mul_div_le _ _

theorem divide_lead_pos {n : Nat} (hpos : 0 < i.denominator) (h : i.denominator ≤ i.value * 10 ^ n)
    (hn : n ≤ 331) : 0 < (i.divide (i.lead - 16)).1 := by
  refine Nat.div_pos ?_ (Nat.mul_pos hpos (Nat.pow_pos (by decide)))
  calc i.denominator * 10 ^ (i.lead - 16).toNat
      ≤ i.denominator * 10 ^ i.lead.toNat :=
        Nat.mul_le_mul_left _ (Nat.pow_le_pow_right (by decide) (by omega))
    _ ≤ i.value * 10 ^ (-i.lead).toNat := pow_lead_le h hn
    _ ≤ i.value * 10 ^ (-(i.lead - 16)).toNat :=
        Nat.mul_le_mul_left _ (Nat.pow_le_pow_right (by decide) (by omega))

end Interval

theorem two_pow_le_ten_pow (n : Nat) : 2 ^ n ≤ 10 ^ (10 * (n / 33 + 1)) := by
  calc 2 ^ n ≤ 2 ^ (33 * (n / 33 + 1)) := Nat.pow_le_pow_right (by decide) (by omega)
    _ = (2 ^ 33) ^ (n / 33 + 1) := Nat.pow_mul _ _ _
    _ ≤ (10 ^ 10) ^ (n / 33 + 1) := Nat.pow_le_pow_left (by decide) _
    _ = 10 ^ (10 * (n / 33 + 1)) := (Nat.pow_mul _ _ _).symm

theorem shortest_pos {b : Binary} (hpos : 0 < b.significand) (hmin : -1074 ≤ b.exponent) :
    0 < b.shortest.digits := by
  have hvalue : 1 ≤ b.interval.value := Nat.mul_pos (by omega) (Nat.two_pow_pos _)
  have hscale : b.interval.denominator ≤
      b.interval.value * 10 ^ (10 * ((2 - b.exponent).toNat / 33 + 1)) :=
    (two_pow_le_ten_pow _).trans (Nat.le_mul_of_pos_left _ hvalue)
  have hlast := Interval.divide_lead_pos (Nat.two_pow_pos _) hscale (by omega)
  exact Decimal.trim_pos (Interval.search_pos hlast 17 0) 17

end Binary

/-- The shortest decimal of a number is not zero. -/
theorem digits_shortestDecimal?_pos {x : Float} {d : Decimal} (h : shortestDecimal? x = some d) :
    0 < d.digits := by
  unfold shortestDecimal? at h
  generalize x.toBits.toNat = bits at h
  dsimp only at h
  split at h
  · cases h
  rename_i hbits
  cases h
  unfold Binary.ofBits
  dsimp only
  split
  · exact Binary.shortest_pos (by dsimp only; omega) le_rfl
  · exact Binary.shortest_pos (by dsimp only; omega) (by dsimp only; omega)

end Telemetry
