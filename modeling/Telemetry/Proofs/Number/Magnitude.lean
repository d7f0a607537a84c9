import Telemetry.Proofs.Number

/-!
# Doubles of a known size

A positive double lies between two powers of two, and products and quotients of such doubles do too.
Where these powers are far from both ends of the range, no result is rounded to zero or to infinity:
counts of ticks, spans in seconds and what is divided by them stay positive numbers.
-/

namespace Telemetry.Number

open Float.Model Float.Model.UnpackedFloat

variable {x y : Float} {m n : Nat} {e a b c d lo hi : Int}

/-- A positive double of at least `2 ^ lo` and less than `2 ^ (hi + 1)`. -/
def Within (lo hi : Int) (x : Float) : Prop :=
  ∃ m e, ∃ h : Canonical m e,
    unpacked x = .finite .positive m e h.pos ∧ lo ≤ m.log2 + e ∧ m.log2 + e ≤ hi

theorem Within.mono (h : Within a b x) (hlo : lo ≤ a) (hhi : b ≤ hi) : Within lo hi x := by
  obtain ⟨m, e, hcanonical, hx, ha, hb⟩ := h
  exact ⟨m, e, hcanonical, hx, hlo.trans ha, hb.trans hhi⟩

/-- What was rounded is packed and unpacked again as it is. -/
theorem within_pack {u : UnpackedFloat} (h : ∃ m e, ∃ h : Canonical m e,
    u = .finite .positive m e h.pos ∧ lo ≤ m.log2 + e ∧ m.log2 + e ≤ hi) :
    Within lo hi (.ofModel (.pack u)) := by
  obtain ⟨m, e, hcanonical, rfl, hlo, hhi⟩ := h
  exact ⟨m, e, hcanonical, hcanonical.unpack_pack _, hlo, hhi⟩

theorem Within.pos (h : Within lo hi x) : 0 < x := by
  obtain ⟨m, e, hcanonical, hx, -⟩ := h
  rw [lt_iff, hx]
  rfl

theorem isNaN_eq_of_pos (h : 0 < x) : x.isNaN = false := by
  rw [lt_iff] at h
  show (unpacked x).isNaN = false
  cases hx : unpacked x with
  | notANumber =>
    rw [hx] at h
    cases h
  | _ => rfl

/-- The mantissa of a double that is not too small has all its bits. -/
theorem Canonical.log2_eq (h : Canonical m e) (hmin : -1022 ≤ m.log2 + e) : m.log2 = 52 := by
  obtain ⟨hle, hfull⟩ := h.log2
  rcases h.normal with hnormal | hleast
  · exact hfull hnormal
  · omega

theorem Within.mul (hx : Within a b x) (hy : Within c d y) (ha : -1022 ≤ a) (hc : -1022 ≤ c)
    (hmin : -1022 ≤ a + c) (hmax : b + d ≤ 1021) : Within (a + c) (b + d + 2) (x * y) := by
  obtain ⟨m, e, hm, hx, hlo, hhi⟩ := hx
  obtain ⟨m', e', hm', hy, hlo', hhi'⟩ := hy
  have hlog := hm.log2_eq (by omega)
  have hlog' := hm'.log2_eq (by omega)
  have hpos := Nat.mul_pos hm.pos hm'.pos
  have hleast : 104 ≤ (m * m').log2 := by
    have := Nat.mul_le_mul (Nat.log2_self_le hm.pos.ne') (Nat.log2_self_le hm'.pos.ne')
    rw [hlog, hlog', ← Nat.pow_add] at this
    exact (Nat.le_log2 hpos.ne').2 this
  have hmost : (m * m').log2 < 106 := by
    have := Nat.mul_lt_mul'' hm.lt hm'.lt
    rw [← Nat.pow_add] at this
    exact (Nat.log2_lt hpos.ne').2 this
  obtain ⟨m₁, e₁, h, hround, hlow, hhigh⟩ := exists_round (m := m * m') (e := e + e') .positive
    .exact (by omega) (by omega) (by omega)
  rw [mul_def, hx, hy]
  exact within_pack ⟨m₁, e₁, h, hround, by omega, by omega⟩

theorem log2_div {n k : Nat} (hk : 0 < k) (h : k.log2 < n.log2) :
    n.log2 ≤ (n / k).log2 + k.log2 + 1 ∧ (n / k).log2 + k.log2 ≤ n.log2 := by
  have hn : 0 < n := Nat.pos_of_ne_zero (by rintro rfl; simp at h)
  have hlow : 2 ^ (n.log2 - k.log2 - 1) ≤ n / k := by
    rw [Nat.le_div_iff_mul_le hk]
    calc 2 ^ (n.log2 - k.log2 - 1) * k
        ≤ 2 ^ (n.log2 - k.log2 - 1) * 2 ^ (k.log2 + 1) :=
          Nat.mul_le_mul_left _ Nat.lt_log2_self.le
      _ = 2 ^ n.log2 := by rw [← Nat.pow_add]; congr 1; omega
      _ ≤ n := Nat.log2_self_le hn.ne'
  have hhigh : n / k < 2 ^ (n.log2 - k.log2 + 1) := by
    rw [Nat.div_lt_iff_lt_mul hk]
    calc n < 2 ^ (n.log2 + 1) := Nat.lt_log2_self
      _ = 2 ^ (n.log2 - k.log2 + 1) * 2 ^ k.log2 := by rw [← Nat.pow_add]; congr 1; omega
      _ ≤ 2 ^ (n.log2 - k.log2 + 1) * k := Nat.mul_le_mul_left _ (Nat.log2_self_le hk.ne')
  have hpos : n / k ≠ 0 := (Nat.two_pow_pos _ |>.trans_le hlow).ne'
  have := (Nat.le_log2 hpos).2 hlow
  have := (Nat.log2_lt hpos).2 hhigh
  omega

/-- The quotient is worked out to at least as many bits as a mantissa has. -/
theorem exists_divCore {m n : Nat} {e f : Int} (hm : 0 < m) (hn : 0 < n)
    (hmin : -1020 ≤ m.log2 + e - (n.log2 + f)) :
    ∃ k : Nat, divCore .binary64 m e n f =
        (m * 2 ^ k / n, e - f - k, accuracyOfFraction (m * 2 ^ k % n) n) ∧
      52 ≤ (m * 2 ^ k / n).log2 ∧
      m.log2 + e - (n.log2 + f) - 1 ≤ (m * 2 ^ k / n).log2 + (e - f - k) ∧
      (m * 2 ^ k / n).log2 + (e - f - k) ≤ m.log2 + e - (n.log2 + f) := by
  obtain ⟨k, hk⟩ : ∃ k : Nat, min (e - f) (Format.binary64.targetExponent
      (totalExponent m e - totalExponent n f)) = e - f - k := by
    generalize Format.binary64.targetExponent _ = t
    exact ⟨(e - f - min (e - f) t).toNat, by omega⟩
  have htarget : e - f - k ≤ m.log2 + e - (n.log2 + f) - 53 := by
    rw [← hk, targetExponent_binary64, totalExponent, totalExponent]
    omega
  have hlog : (m * 2 ^ k).log2 = m.log2 + k := log2_mul_two_pow hm k
  have hbits := log2_div (n := m * 2 ^ k) hn (by omega)
  have hshift : (e - f - (e - f - k)).toNat = k := by omega
  refine ⟨k, ?_, by omega, by omega, by omega⟩
  simp only [divCore, hk, hshift, Nat.shiftLeft_eq]

theorem Within.div (hx : Within a b x) (hy : Within c d y) (hmin : -1020 ≤ a - d)
    (hmax : b - c ≤ 1021) : Within (a - d - 1) (b - c + 1) (x / y) := by
  obtain ⟨m, e, hm, hx, hlo, hhi⟩ := hx
  obtain ⟨n, f, hn, hy, hlo', hhi'⟩ := hy
  obtain ⟨k, hcore, hbits, hlow, hhigh⟩ := exists_divCore (m := m) (e := e) (n := n)
    (f := f) hm.pos hn.pos (by omega)
  obtain ⟨m', e', h, hround, hleast, hmost⟩ := exists_round (m := m * 2 ^ k / n) (e := e - f - k)
    .positive (accuracyOfFraction (m * 2 ^ k % n) n) hbits (by omega) (by omega)
  rw [div_def, hx, hy]
  refine within_pack ⟨m', e', h, ?_, by omega, by omega⟩
  simp only [UnpackedFloat.div, hcore]
  exact hround

/-! ## Counts -/

theorem exists_ofNat (hpos : 0 < n) (hlt : n < 2 ^ 64) : ∃ m e, ∃ h : Canonical m e,
    UnpackedFloat.ofNat .binary64 n = .finite .positive m e h.pos ∧
      0 ≤ m.log2 + e ∧ m.log2 + e ≤ 64 := by
  have hlog := (Nat.log2_lt hpos.ne').2 hlt
  have hshift : (0 - Format.binary64.targetExponent (totalExponent n 0)).toNat = 52 - n.log2 := by
    rw [targetExponent_binary64, totalExponent]
    omega
  have hpositive : compare (n : Int) 0 = .gt := by rw [Int.compare_eq_gt]; omega
  have hm : (n * 2 ^ (52 - n.log2)).log2 = n.log2 + (52 - n.log2) := log2_mul_two_pow hpos _
  obtain ⟨m, e, h, hround, hlow, hhigh⟩ := exists_round (m := n * 2 ^ (52 - n.log2))
    (e := 0 - (52 - n.log2 : Nat)) .positive .exact (by omega) (by omega) (by omega)
  refine ⟨m, e, h, ?_, by omega, by omega⟩
  simp only [UnpackedFloat.ofNat, UnpackedFloat.ofInt, UnpackedFloat.normalize, hpositive,
    UnpackedFloat.round, decreaseExponent, hshift, Int.toNat_natCast, Nat.shiftLeft_eq, hround]

theorem exists_ofScientific (hpos : 0 < n) (hlt : n < 2 ^ 64) : ∃ m e, ∃ h : Canonical m e,
    UnpackedFloat.ofScientific .binary64 n 0 = .finite .positive m e h.pos ∧
      n.log2 ≤ m.log2 + e ∧ m.log2 + e ≤ 64 := by
  have hlog := (Nat.log2_lt hpos.ne').2 hlt
  have hm : (n * 2 ^ 53).log2 = n.log2 + 53 := log2_mul_two_pow hpos 53
  obtain ⟨m, e, h, hround, hlow, hhigh⟩ := exists_round (m := n * 2 ^ 53) (e := -53) .positive
    .exact (by omega) (by omega) (by omega)
  have hsafe : ¬ (0 : Int) < -((2 ^ 11 : Int) + n.log2) := by omega
  have hmantissa : n <<< Format.binary64.mantissaBits * 10 ^ (0 : Int).toNat = n * 2 ^ 53 := by
    rw [Nat.shiftLeft_eq]
    exact Nat.mul_one _
  refine ⟨m, e, h, ?_, by omega, by omega⟩
  rw [UnpackedFloat.ofScientific, dif_neg hpos.ne', if_neg (by decide), if_neg hsafe,
    if_pos le_rfl]
  simp only [UnpackedFloat.mul, hmantissa]
  exact hround

theorem within_one : Within 0 0 1 :=
  ⟨_, _, canonical_one, unpacked_one, by decide, by decide⟩

theorem within_toFloat {w : UInt64} (h : 0 < w.toNat) : Within 0 64 w.toFloat :=
  within_pack (exists_ofNat h w.toNat_lt)

/-- A count of ticks other than zero is a number other than zero. -/
theorem within_ofInt {t : Int} (hpos : 0 < t) (hle : t ≤ maxTicks) :
    Within 0 66 (Float.ofInt t) := by
  obtain ⟨n, rfl⟩ := Int.eq_ofNat_of_zero_le hpos.le
  have hn : 0 < n := by omega
  have hlt : n < 2 ^ 64 := by simp only [maxTicks] at hle; omega
  show Within 0 66 (Float.ofScientific n false 0)
  unfold Float.ofScientific
  split
  · have hword : n.toUInt64.toNat = n := UInt64.toNat_ofNat_of_lt' hlt
    have hfloat : Within 0 64 n.toUInt64.toFloat := within_toFloat (hword.symm ▸ hn)
    exact hfloat.mul within_one (by decide) (by decide) (by decide) (by decide)
  · have hfloat := within_pack (exists_ofScientific hn hlt)
    exact hfloat.mono (by omega) (by decide)

theorem zero_div (h : Within lo hi x) : 0 / x = 0 := by
  obtain ⟨m, e, hcanonical, hx, -⟩ := h
  rw [div_def, hx]
  rfl

end Telemetry.Number

namespace Telemetry.Duration

open Number

/-- A span other than zero is a number of seconds that can be divided by. -/
theorem within_toSeconds {d : Duration} (h : d.isZero = false) :
    Within (-67) 135 d.toSeconds := by
  have hpos : 0 < d.ticks := by
    have := d.nonneg
    have : d.ticks ≠ 0 := by simpa [isZero] using h
    omega
  have hunit (u : TimeUnit) : Within 0 66 (Float.ofInt u.nanos) :=
    within_ofInt u.nanos_pos (by cases u <;> decide)
  have hnanos := (within_ofInt hpos d.le_max).mul (hunit d.unit) (by decide) (by decide)
    (by decide) (by decide)
  exact hnanos.div (hunit .seconds) (by decide) (by decide)

end Telemetry.Duration
