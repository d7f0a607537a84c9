import Telemetry.Proofs.Number.Quotient

/-!
# Words as doubles

A word of 64 bits is rounded to a mantissa of 53 bits, to an even one where it lies half the way
between two of them. A word that needs no more bits is kept as it is, and cutting the double off to
a whole number gives the word again.
-/

namespace Telemetry.Number

open Float.Model Float.Model.UnpackedFloat

/-- A natural number with at most 53 bits and zeros behind them. -/
def Representable (n : Nat) : Prop :=
  ∃ m k, m < 2 ^ 53 ∧ n = m * 2 ^ k

variable {m n k : Nat} {x y : Float} {w : UInt64}

/-! ## Rounding of whole numbers -/

/-- The first bit that is shifted out is the round bit, and the sticky bit stands for the others. -/
theorem shiftRight_succ (n k : Nat) : (ExtendedMantissa.mk n false false >>> (k + 1)) =
    ⟨n / 2 ^ (k + 1), n / 2 ^ k % 2 != 0, n % 2 ^ k != 0⟩ := by
  induction k with
  | zero => simp [HShiftRight.hShiftRight, Nat.repeat, ExtendedMantissa.shiftRightOne, Nat.mod_one]
  | succ k ih =>
    have hstep : (ExtendedMantissa.mk n false false >>> (k + 1 + 1)) =
        (ExtendedMantissa.mk n false false >>> (k + 1)).shiftRightOne := rfl
    have hsticky : (n / 2 ^ k % 2 != 0 || n % 2 ^ k != 0) = (n % 2 ^ (k + 1) != 0) := by
      have hpow := Nat.two_pow_pos k
      rw [Nat.mod_pow_succ, Bool.eq_iff_iff]
      simp only [Bool.or_eq_true, bne_iff_ne, ne_eq, Nat.add_eq_zero_iff, Nat.mul_eq_zero]
      omega
    rw [hstep, ih]
    simp only [ExtendedMantissa.shiftRightOne, hsticky, Nat.div_div_eq_div_mul, ← Nat.pow_succ]

/-- The whole number that a double becomes of a natural number. -/
def rounded (n : Nat) : Nat :=
  if n < 2 ^ 53 then n
  else (ExtendedMantissa.mk n false false >>> (n.log2 - 52)).roundedMantissa * 2 ^ (n.log2 - 52)

theorem isNat_rounded (hpos : 0 < w.toNat) : IsNat (rounded w.toNat) w.toFloat := by
  unfold rounded
  split
  next hlt => exact isNat_toFloat hpos hlt
  next hge =>
    have hword := w.toNat_lt
    generalize hn : w.toNat = n at hpos hge hword
    obtain ⟨k, hk⟩ : ∃ k, n.log2 = 52 + k :=
      ⟨n.log2 - 52, by have := (Nat.le_log2 hpos.ne').2 (not_lt.1 hge); omega⟩
    have hbits := (Nat.log2_lt hpos.ne').2 hword
    obtain ⟨m, e, h, hround, -, carry, -, rfl, hm⟩ :=
      exists_round_shiftRight (e := 0) .positive .exact hk (by omega) (by omega)
    have hshift : (0 - Format.binary64.targetExponent (totalExponent n 0)).toNat = 0 := by
      rw [targetExponent_binary64, totalExponent]
      omega
    have hpositive : compare (n : Int) 0 = .gt := by rw [Int.compare_eq_gt]; omega
    refine ⟨m, _, h, ?_, ?_⟩
    · show (Float.Model.pack (UnpackedFloat.ofNat .binary64 w.toNat)).unpack = _
      rw [hn, ← h.unpack_pack .positive]
      simp only [UnpackedFloat.ofNat, UnpackedFloat.ofInt, UnpackedFloat.normalize, hpositive,
        UnpackedFloat.round, decreaseExponent, hshift, Int.toNat_natCast, Nat.shiftLeft_zero]
      simpa using congrArg (fun u => (Float.Model.pack u).unpack) hround
    · have hexponent : (0 + (k : Int) + carry).toNat = carry + k := by omega
      have hzero : (-(0 + (k : Int) + carry)).toNat = 0 := by omega
      rw [hexponent, hzero, pow_zero, Nat.mul_one, hk, Nat.add_sub_cancel_left, Nat.pow_add,
        ← Nat.mul_assoc, hm]
      rfl

theorem exists_log2 (hge : ¬ n < 2 ^ 53) : ∃ k, n.log2 = 53 + k :=
  ⟨n.log2 - 53, by have := (Nat.le_log2 (by omega)).2 (not_lt.1 hge); omega⟩

/-- What is shifted out of a number that needs no more bits is zero. -/
theorem rounded_of_representable (h : Representable n) : rounded n = n := by
  obtain ⟨m, j, hm, rfl⟩ := h
  unfold rounded
  split
  next => rfl
  next hge =>
    obtain ⟨k, hk⟩ := exists_log2 hge
    have hj : 53 + k < 53 + j := by
      rw [← hk, Nat.log2_lt (by omega), Nat.pow_add]
      exact Nat.mul_lt_mul_of_pos_right hm (Nat.two_pow_pos j)
    obtain ⟨i, rfl⟩ : ∃ i, j = i + (k + 1) := ⟨j - (k + 1), by omega⟩
    have hk' : (m * 2 ^ (i + (k + 1))).log2 - 52 = k + 1 := by omega
    rw [hk', Nat.pow_add, ← Nat.mul_assoc, shiftRight_exact]
    rfl

/-- A number is rounded up if more than half a unit is left out, and also at one half if it is odd
otherwise. -/
theorem roundedMantissa_mk (q : Nat) (r s : Bool) : (ExtendedMantissa.mk q r s).roundedMantissa =
    if r = true ∧ (s = true ∨ q % 2 = 1) then q + 1 else q := by
  cases r <;> cases s <;>
    simp [ExtendedMantissa.roundedMantissa, ExtendedMantissa.accuracy,
      Accuracy.roundToNearestEven]
  split <;> omega

/-- The numbers that come to lie beyond `2 ^ 63`. Half the way to the next one goes back. -/
theorem rounded_le_iff (hlt : n < 2 ^ 64) : rounded n ≤ 2 ^ 63 ↔ n ≤ 2 ^ 63 + 1024 := by
  unfold rounded
  split
  next hsmall => omega
  next hge =>
    obtain ⟨k, hk⟩ := exists_log2 hge
    rw [hk, show 53 + k - 52 = k + 1 by omega, shiftRight_succ, roundedMantissa_mk]
    have hbits := (Nat.log2_lt (by omega)).2 hlt
    rcases (by omega : k ≤ 9 ∨ k = 10) with hbelow | rfl
    · have hlt : n < 2 ^ 63 := (Nat.log2_lt (by omega)).1 (by omega)
      have hpow : 2 ^ 63 = 2 ^ (62 - k) * 2 ^ (k + 1) := by rw [← Nat.pow_add]; congr 1; omega
      have hdiv : n / 2 ^ (k + 1) < 2 ^ (62 - k) := by
        rwa [Nat.div_lt_iff_lt_mul (Nat.two_pow_pos _), ← hpow]
      refine iff_of_true ?_ (by omega)
      rw [hpow]
      refine Nat.mul_le_mul_right _ ?_
      split <;> omega
    · have hge : 2 ^ 63 ≤ n := (Nat.le_log2 (by omega)).1 (by omega)
      split <;> rename_i hup <;> simp only [bne_iff_ne] at hup <;> omega

theorem le_rounded (hge : 2 ^ 63 ≤ n) (hlt : n < 2 ^ 64) : 2 ^ 63 ≤ rounded n := by
  have hlow := (Nat.le_log2 (by omega)).2 hge
  have hhigh := (Nat.log2_lt (by omega)).2 hlt
  have hk : n.log2 - 52 = 11 := by omega
  have hmem := roundedMantissa_mem (ExtendedMantissa.mk n false false >>> 11)
  rw [mantissa_shiftRight] at hmem
  rw [rounded, if_neg (by omega), hk]
  dsimp only at hmem
  omega

/-! ## Doubles that are whole numbers -/

/-- The mantissa of a whole number has all its bits, so that the exponent follows from the size. -/
theorem IsNat.eq (hx : IsNat n x) (hy : IsNat n y) : x = y := by
  obtain ⟨m, e, hm, hx, hn⟩ := hx
  obtain ⟨m', e', hm', hy, hn'⟩ := hy
  have hpos : 0 < n := by
    rcases n.eq_zero_or_pos with rfl | hpos
    · have := Nat.mul_pos hm.pos (Nat.two_pow_pos e.toNat)
      omega
    · exact hpos
  have hlog := log2_add_eq hm.pos hpos hn
  have hlog' := log2_add_eq hm'.pos hpos hn'
  have hfull := hm.log2_eq (by omega)
  have hfull' := hm'.log2_eq (by omega)
  obtain rfl : e = e' := by omega
  obtain rfl : m = m' := Nat.eq_of_mul_eq_mul_right (Nat.two_pow_pos e.toNat) (hn.trans hn'.symm)
  rw [← ofModel_pack_unpacked x, hx, ← hy, ofModel_pack_unpacked]

theorem IsNat.unique (hm : IsNat m x) (hn : IsNat n x) : m = n := by
  obtain ⟨k, e, _, hx, hm⟩ := hm
  obtain ⟨k', e', _, hx', hn⟩ := hn
  obtain ⟨-, rfl, rfl⟩ := UnpackedFloat.finite.inj (hx.symm.trans hx')
  exact Nat.eq_of_mul_eq_mul_right (Nat.two_pow_pos _) (hm.symm.trans hn)

theorem IsNat.pos (h : IsNat n x) : 0 < n := by
  obtain ⟨m, e, hm, -, hn⟩ := h
  refine Nat.pos_of_ne_zero ?_
  rintro rfl
  have := Nat.mul_pos hm.pos (Nat.two_pow_pos e.toNat)
  omega

theorem IsNat.representable (h : IsNat n x) : Representable n := by
  obtain ⟨m, e, hm, -, hn⟩ := h
  rcases le_or_gt 0 e with he | he
  · rw [Int.toNat_eq_zero.2 (by omega : -e ≤ 0), pow_zero, Nat.mul_one] at hn
    exact ⟨m, e.toNat, hm.lt, hn.symm⟩
  · rw [Int.toNat_eq_zero.2 he.le, pow_zero, Nat.mul_one] at hn
    have hle : n ≤ m := hn ▸ Nat.le_mul_of_pos_right n (Nat.two_pow_pos _)
    exact ⟨n, 0, hle.trans_lt hm.lt, by rw [pow_zero, Nat.mul_one]⟩

/-- A word that is made of a whole number gives the double back. -/
theorem toFloat_eq (h : IsNat w.toNat x) : w.toFloat = x := by
  have hw := isNat_rounded h.pos
  rw [rounded_of_representable h.representable] at hw
  exact hw.eq h

theorem IsNat.toNat_toUInt64 (h : IsNat n x) : x.toUInt64.toNat = min n (2 ^ 64 - 1) := by
  obtain ⟨m, e, hm, hx, hn⟩ := h
  show (UInt64.ofNatClamp ((unpacked x).toInt 0 _).toNat).toNat = _
  rw [hx, UnpackedFloat.toInt, roundToInt_positive, Int.toNat_natCast, hn,
    Nat.mul_div_cancel _ (Nat.two_pow_pos _)]
  rcases lt_or_ge n UInt64.size with hlt | hge
  · rw [UInt64.toNat_ofNatClamp_of_lt hlt]
    have : n < 2 ^ 64 := hlt
    omega
  · rw [UInt64.toNat_ofNatClamp_of_le hge]
    have : 2 ^ 64 ≤ n := hge
    exact (min_eq_right (by omega)).symm

/-! ## Negative whole numbers -/

theorem IsNat.not_lt_zero (h : IsNat n x) : ¬ x < 0 := by
  obtain ⟨m, e, hm, hx, -⟩ := h
  rw [lt_iff, hx]
  exact nofun

theorem unpacked_neg {e : Int} (h : Canonical m e)
    (hx : unpacked x = .finite .positive m e h.pos) :
    unpacked (-x) = .finite .negative m e h.pos := by
  show (Float.Model.pack (unpacked x).neg).unpack = _
  rw [hx]
  exact h.unpack_pack .negative

theorem IsNat.neg_lt_zero (h : IsNat n x) : -x < 0 := by
  obtain ⟨m, e, hm, hx, -⟩ := h
  rw [lt_iff, unpacked_neg hm hx]
  rfl

theorem IsNat.neg_neg (h : IsNat n x) : - -x = x := by
  obtain ⟨m, e, hm, hx, -⟩ := h
  show Float.ofModel (.pack (unpacked (-x)).neg) = x
  rw [unpacked_neg hm hx, ← ofModel_pack_unpacked x, hx]
  rfl

end Telemetry.Number
