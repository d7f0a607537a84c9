import Telemetry.Proofs.Number.Magnitude

/-!
# Whole parts of quotients

How many times one count goes into another is told by the quotient of two doubles, cut off to a
whole number. The quotient is rounded, so that it may come up to a whole number that the counts
themselves stay short of. For a dividend of less than `2 ^ 53` it does not: what is left out is then
too much to be rounded away.
-/

namespace Telemetry.Number

open Float.Model Float.Model.UnpackedFloat

/-! ## Rounding of fractions -/

/-- The mantissa is the whole part of a fraction, and the round bit tells whether at least one half
is left out. -/
structure Truncates (em : ExtendedMantissa) (n d : Nat) : Prop where
  mantissa_eq : em.mantissa = n / d
  roundBit_iff : em.roundBit = true ↔ d ≤ 2 * (n % d)

variable {em : ExtendedMantissa} {a b d k m n : Nat}

theorem truncates_accuracyOfFraction (hd : 0 < d) :
    Truncates (.ofMantissaAndAccuracy (n / d) (accuracyOfFraction (n % d) d)) n d := by
  unfold accuracyOfFraction
  split
  · exact ⟨rfl, by simp [ExtendedMantissa.ofMantissaAndAccuracy]; omega⟩
  · cases hc : compare (2 * (n % d)) d with
    | lt =>
      rw [Nat.compare_eq_lt] at hc
      exact ⟨rfl, by simp [ExtendedMantissa.ofMantissaAndAccuracy]; omega⟩
    | eq =>
      rw [Nat.compare_eq_eq] at hc
      exact ⟨rfl, by simp [ExtendedMantissa.ofMantissaAndAccuracy]; omega⟩
    | gt =>
      rw [Nat.compare_eq_gt] at hc
      exact ⟨rfl, by simp [ExtendedMantissa.ofMantissaAndAccuracy]; omega⟩

theorem Truncates.shiftRightOne (h : Truncates em n d) (hd : 0 < d) :
    Truncates em.shiftRightOne n (d * 2) := by
  have hsplit := Nat.div_add_mod n d
  have hlt := Nat.mod_lt n hd
  have hmod : n % (d * 2) = d * (n / d % 2) + n % d := Nat.mod_mul.trans (Nat.add_comm _ _)
  refine ⟨?_, ?_⟩
  · rw [ExtendedMantissa.shiftRightOne, h.mantissa_eq, Nat.div_div_eq_div_mul]
  · rw [ExtendedMantissa.shiftRightOne, h.mantissa_eq, hmod]
    rcases Nat.mod_two_eq_zero_or_one (n / d) with heven | hodd
    · simp [heven]
      omega
    · simp [hodd]
      omega

theorem Truncates.shiftRight (h : Truncates em n d) (hd : 0 < d) (k : Nat) :
    Truncates (em >>> k) n (d * 2 ^ k) := by
  induction k with
  | zero => simpa [HShiftRight.hShiftRight, Nat.repeat] using h
  | succ k ih =>
    have hstep : (em >>> (k + 1)) = (em >>> k).shiftRightOne := rfl
    rw [hstep, Nat.pow_succ, ← Nat.mul_assoc]
    exact ih.shiftRightOne (Nat.mul_pos hd (Nat.two_pow_pos k))

theorem Truncates.congr {n' d' : Nat} (h : Truncates em n d) (hd : 0 < d) (hd' : 0 < d')
    (hcross : n * d' = n' * d) : Truncates em n' d' := by
  have hdiv : n / d = n' / d' := by
    rw [← Nat.mul_div_mul_right n d hd', hcross, Nat.mul_comm d, Nat.mul_div_mul_right _ _ hd]
  have hmod : n % d * d' = n' % d' * d := by
    rw [← Nat.mul_mod_mul_right, hcross, Nat.mul_comm d, Nat.mul_mod_mul_right]
  refine ⟨h.mantissa_eq.trans hdiv, h.roundBit_iff.trans ?_⟩
  rw [← Nat.mul_le_mul_right_iff hd', Nat.mul_assoc, hmod, Nat.mul_comm d, ← Nat.mul_assoc,
    Nat.mul_le_mul_right_iff hd]

/-- Only what lies at least half the way to the next number is rounded up. -/
theorem Truncates.roundedMantissa (h : Truncates em n d) :
    em.roundedMantissa = n / d ∨ em.roundedMantissa = n / d + 1 ∧ d ≤ 2 * (n % d) := by
  have hmem := roundedMantissa_mem em
  rw [h.mantissa_eq] at hmem
  by_cases hround : em.roundBit = true
  · have := h.roundBit_iff.1 hround
    omega
  · left
    obtain ⟨m, r, t⟩ := em
    obtain rfl : r = false := Bool.eq_false_iff.2 hround
    rw [← h.mantissa_eq]
    cases t <;> rfl

/-- Rounding to 53 bits does not reach a whole number that a quotient of less than `2 ^ 53` by a
natural number stays short of. -/
theorem div_two_pow_of_rounded {j r : Nat} (hb : 0 < b) (ha : a < 2 ^ 53)
    (hbits : 2 ^ 52 ≤ a * 2 ^ j / b)
    (hr : r = a * 2 ^ j / b ∨ r = a * 2 ^ j / b + 1 ∧ b ≤ 2 * (a * 2 ^ j % b)) :
    r / 2 ^ j = a / b := by
  have hpow : 0 < 2 ^ j := Nat.two_pow_pos j
  have hwhole : a * 2 ^ j / b / 2 ^ j = a / b := by
    rw [Nat.div_div_eq_div_mul, Nat.mul_div_mul_right _ _ hpow]
  rcases hr with rfl | ⟨rfl, hhalf⟩
  · exact hwhole
  rw [Nat.succ_div, hwhole, if_neg, Nat.add_zero]
  rintro ⟨q, hq⟩
  have hsplit := Nat.div_add_mod (a * 2 ^ j) b
  -- The next whole number would be `q`, and `a` is at least one away from `q * b`.
  have hlt : a < q * b := by
    rw [← Nat.div_lt_iff_lt_mul hb, ← hwhole, Nat.div_lt_iff_lt_mul hpow, Nat.mul_comm q, ← hq]
    exact Nat.lt_succ_self _
  have hgap : a * 2 ^ j + 2 ^ j ≤ b * (a * 2 ^ j / b) + b := by
    calc a * 2 ^ j + 2 ^ j = (a + 1) * 2 ^ j := by ring
      _ ≤ q * b * 2 ^ j := Nat.mul_le_mul_right _ hlt
      _ = b * (2 ^ j * q) := by ring
      _ = b * (a * 2 ^ j / b) + b := by rw [← hq]; ring
  have hb' : 2 * 2 ^ j ≤ b := by omega
  have hmany : 2 ^ 53 * 2 ^ j ≤ a * 2 ^ j := by
    calc 2 ^ 53 * 2 ^ j = 2 * 2 ^ j * 2 ^ 52 := by ring
      _ ≤ b * (a * 2 ^ j / b) := Nat.mul_le_mul hb' hbits
      _ ≤ a * 2 ^ j := Nat.mul_div_le _ _
  exact absurd (Nat.le_of_mul_le_mul_right hmany hpow) (by omega)

/-! ## Whole numbers -/

/-- The double is a natural number other than zero. -/
def IsNat (n : Nat) (x : Float) : Prop :=
  ∃ m e, ∃ h : Canonical m e,
    unpacked x = .finite .positive m e h.pos ∧ m * 2 ^ e.toNat = n * 2 ^ (-e).toNat

variable {x y : Float}

theorem log2_add_eq {e : Int} (hm : 0 < m) (hn : 0 < n)
    (h : m * 2 ^ e.toNat = n * 2 ^ (-e).toNat) : m.log2 + e = n.log2 := by
  have hlog := congrArg Nat.log2 h
  rw [log2_mul_two_pow hm, log2_mul_two_pow hn] at hlog
  omega

/-- A double that is large enough has no fraction. -/
theorem Within.exists_isNat {lo hi : Nat} (h : Within lo hi x) (hlo : 52 ≤ lo) :
    ∃ n, 0 < n ∧ IsNat n x ∧ lo ≤ n.log2 ∧ n.log2 ≤ hi := by
  obtain ⟨m, e, hcanonical, hx, hle, hhi⟩ := h
  have hlog := hcanonical.log2.1
  have hpos := Nat.mul_pos hcanonical.pos (Nat.two_pow_pos e.toNat)
  have hn : m * 2 ^ e.toNat = m * 2 ^ e.toNat * 2 ^ (-e).toNat := by
    rw [Int.toNat_eq_zero.2 (by omega : -e ≤ 0), pow_zero, Nat.mul_one]
  have := log2_add_eq hcanonical.pos hpos hn
  exact ⟨_, hpos, ⟨m, e, hcanonical, hx, hn⟩, by omega, by omega⟩

theorem mul_one_of_isNat (h : IsNat n x) : x * 1 = x := by
  obtain ⟨m, e, hcanonical, hx, -⟩ := h
  have hround := hcanonical.round .positive 52
  have hmul : UnpackedFloat.mul .binary64 (unpacked x) (unpacked 1) = unpacked x := by
    rw [unpacked_one, hx]
    exact hround
  rw [mul_def, hmul, ofModel_pack_unpacked]

theorem isNat_toFloat {w : UInt64} (hpos : 0 < w.toNat) (hlt : w.toNat < 2 ^ 53) :
    IsNat w.toNat w.toFloat := by
  generalize hn : w.toNat = n at hpos hlt
  have hlog := (Nat.log2_lt hpos.ne').2 hlt
  obtain ⟨k, hk⟩ : ∃ k, n.log2 + k = 52 := ⟨52 - n.log2, by omega⟩
  have hlog' : (n * 2 ^ k).log2 = 52 := (log2_mul_two_pow hpos k).trans hk
  have hm : 0 < n * 2 ^ k := Nat.mul_pos hpos (Nat.two_pow_pos k)
  have hcanonical : Canonical (n * 2 ^ k) (-k) :=
    ⟨hm, (Nat.log2_lt hm.ne').1 (by omega), by omega, by omega,
      .inl ((Nat.le_log2 hm.ne').1 (by omega))⟩
  have hshift : (0 - Format.binary64.targetExponent (totalExponent n 0)).toNat = k := by
    rw [targetExponent_binary64, totalExponent]
    omega
  have hpositive : compare (n : Int) 0 = .gt := by rw [Int.compare_eq_gt]; omega
  have hround : roundWithAccuracy .binary64 .positive (n * 2 ^ k) (0 - k) .exact =
      .finite .positive (n * 2 ^ k) (-k) hm := by
    simpa using hcanonical.round .positive 0
  refine ⟨_, _, hcanonical, ?_, ?_⟩
  · show (Float.Model.pack (UnpackedFloat.ofNat .binary64 w.toNat)).unpack = _
    rw [hn, ← hcanonical.unpack_pack .positive]
    simp only [UnpackedFloat.ofNat, UnpackedFloat.ofInt, UnpackedFloat.normalize, hpositive,
      UnpackedFloat.round, decreaseExponent, hshift, Int.toNat_natCast, Nat.shiftLeft_eq, hround]
  · rw [Int.toNat_eq_zero.2 (by omega), neg_neg, Int.toNat_natCast, pow_zero, Nat.mul_one]

/-- A count of at most 53 bits is kept as it is, and any other one stays as large as these. -/
theorem exists_isNat_ofInt (hpos : 0 < n) (hlt : n < 2 ^ 64) :
    ∃ n', 0 < n' ∧ IsNat n' (Float.ofInt n) ∧ n'.log2 ≤ 64 ∧
      (n' = n ∨ 2 ^ 53 ≤ n ∧ 2 ^ 53 ≤ n') := by
  show ∃ n', 0 < n' ∧ IsNat n' (Float.ofScientific n false 0) ∧ _
  unfold Float.ofScientific
  split
  · rename_i hsmall
    have hword : n.toUInt64.toNat = n := UInt64.toNat_ofNat_of_lt' hlt
    have hnat : IsNat n n.toUInt64.toFloat := by
      have := isNat_toFloat (w := n.toUInt64) (by omega) (by omega)
      rwa [hword] at this
    have hlog := (Nat.log2_lt hpos.ne').2 hlt
    refine ⟨n, hpos, ?_, by omega, .inl rfl⟩
    show IsNat n (n.toUInt64.toFloat * 1)
    rwa [mul_one_of_isNat hnat]
  · rename_i hlarge
    have hle : 2 ^ 53 ≤ n := by
      by_contra hsmall
      exact hlarge ⟨by omega, by decide⟩
    have hlog := (Nat.le_log2 hpos.ne').2 hle
    have hwithin : Within (53 : Nat) (64 : Nat) (.ofModel (Float.Model.ofScientific n 0)) :=
      (within_pack (exists_ofScientific hpos hlt)).mono (by omega) le_rfl
    obtain ⟨n', hpos', hn', hlow, hhigh⟩ := hwithin.exists_isNat (by decide)
    exact ⟨n', hpos', hn', hhigh, .inr ⟨hle, (Nat.le_log2 hpos'.ne').1 hlow⟩⟩

/-! ## Quotients -/

theorem roundToInt_positive (m : Nat) (e : Int) :
    roundToInt .positive m e = (m * 2 ^ e.toNat / 2 ^ (-e).toNat : Nat) := by
  have hshift : (0 - (e - (e.toNat : Int))).toNat = (-e).toNat := by omega
  simp only [roundToInt, decreaseExponent, shiftToExponent, sub_zero, hshift, mantissa_shiftRight,
    mantissa_ofMantissaAndAccuracy, Nat.shiftLeft_eq, Sign.apply]

theorem toNat_toUInt64 {e : Int} (hm : 0 < m) (hx : unpacked x = .finite .positive m e hm)
    (hlt : m * 2 ^ e.toNat / 2 ^ (-e).toNat < 2 ^ 64) :
    x.toUInt64.toNat = m * 2 ^ e.toNat / 2 ^ (-e).toNat := by
  show (UInt64.ofNatClamp ((unpacked x).toInt 0 _).toNat).toNat = _
  rw [hx, UnpackedFloat.toInt, roundToInt_positive, Int.toNat_natCast,
    UInt64.ofNatClamp_eq_ofNat _ hlt]
  exact UInt64.toNat_ofNat_of_lt' hlt

/-- An exponent that is a difference is a quotient of powers. -/
theorem mul_two_pow_div (m c j : Nat) {e : Int} (he : e = c - j) :
    m * 2 ^ e.toNat / 2 ^ (-e).toNat = m * 2 ^ c / 2 ^ j := by
  obtain ⟨d, hc, hj⟩ : ∃ d, c = e.toNat + d ∧ j = (-e).toNat + d := ⟨min c j, by omega, by omega⟩
  rw [hc, hj, Nat.pow_add, Nat.pow_add, ← Nat.mul_assoc,
    Nat.mul_div_mul_right _ _ (Nat.two_pow_pos d)]

theorem toNat_div_of_isNat (hx : IsNat a x) (hy : IsNat b y) (ha : 0 < a) (hb : 0 < b)
    (hlt : a < 2 ^ 53) (hle : b.log2 ≤ 64) : (x / y).toUInt64.toNat = a / b := by
  obtain ⟨m, e, hm, hx, hxa⟩ := hx
  obtain ⟨n, f, hn, hy, hyb⟩ := hy
  have hloga := log2_add_eq hm.pos ha hxa
  have hlogb := log2_add_eq hn.pos hb hyb
  have hbitsa := (Nat.log2_lt ha.ne').2 hlt
  obtain ⟨s, hcore, hbits, hlow, hhigh⟩ :=
    exists_divCore (e := e) (f := f) hm.pos hn.pos (by omega)
  obtain ⟨k, hk⟩ : ∃ k, (m * 2 ^ s / n).log2 = 52 + k := ⟨_, (Nat.add_sub_cancel' hbits).symm⟩
  obtain ⟨j, hj⟩ : ∃ j : Nat, e - f - s + k = -j := ⟨(-(e - f - s + k)).toNat, by omega⟩
  obtain ⟨m', e', h, hround, -, carry, -, he', hrounded⟩ :=
    exists_round_shiftRight (e := e - f - s) .positive (accuracyOfFraction (m * 2 ^ s % n) n) hk
      (by omega) (by omega)
  -- The fraction that is rounded is `a * 2 ^ j / b`, up to a common factor.
  have hcross : m * 2 ^ s * b = a * 2 ^ j * (n * 2 ^ k) := by
    have hexp : (-e).toNat + f.toNat + s = j + k + (e.toNat + (-f).toNat) := by omega
    refine Nat.eq_of_mul_eq_mul_right (Nat.two_pow_pos (e.toNat + (-f).toNat)) ?_
    calc m * 2 ^ s * b * 2 ^ (e.toNat + (-f).toNat)
        = m * 2 ^ e.toNat * (b * 2 ^ (-f).toNat) * 2 ^ s := by ring
      _ = a * 2 ^ (-e).toNat * (n * 2 ^ f.toNat) * 2 ^ s := by rw [hxa, hyb]
      _ = a * n * 2 ^ ((-e).toNat + f.toNat + s) := by ring
      _ = a * 2 ^ j * (n * 2 ^ k) * 2 ^ (e.toNat + (-f).toNat) := by rw [hexp]; ring
  have htruncates := ((truncates_accuracyOfFraction (n := m * 2 ^ s) hn.pos).shiftRight hn.pos
    k).congr (Nat.mul_pos hn.pos (Nat.two_pow_pos k)) hb hcross
  have hmantissa : 2 ^ 52 ≤ a * 2 ^ j / b := by
    rw [← htruncates.mantissa_eq, mantissa_shiftRight, mantissa_ofMantissaAndAccuracy,
      Nat.le_div_iff_mul_le (Nat.two_pow_pos k), ← Nat.pow_add, ← hk]
    refine Nat.log2_self_le ?_
    rintro hzero
    rw [hzero, Nat.log2_zero] at hk
    omega
  have hvalue : m' * 2 ^ e'.toNat / 2 ^ (-e').toNat = a / b := by
    rw [mul_two_pow_div m' carry j (by omega), hrounded]
    exact div_two_pow_of_rounded hb hlt hmantissa htruncates.roundedMantissa
  have hquotient : unpacked (x / y) = .finite .positive m' e' h.pos := by
    rw [div_def, hx, hy, ← h.unpack_pack, ← hround]
    simp only [UnpackedFloat.div, hcore]
    rfl
  have hbound : a / b < 2 ^ 64 := (Nat.div_le_self a b).trans_lt (by omega)
  rw [toNat_toUInt64 h.pos hquotient (by omega), hvalue]

/-- Cut off to a whole number, the quotient of two counts is the quotient of integers. -/
theorem toNat_ofInt_div {a b : Int} (ha : 0 ≤ a) (hlt : a < 2 ^ 53) (hb : 0 < b)
    (hle : b ≤ maxTicks) : ((Float.ofInt a / Float.ofInt b).toUInt64.toNat : Int) = a / b := by
  rcases ha.eq_or_lt with rfl | ha
  · rw [Int.zero_ediv]
    show ((0 / Float.ofInt b : Float).toUInt64.toNat : Int) = 0
    rw [zero_div (within_ofInt hb hle)]
    rfl
  lift a to Nat using ha.le
  lift b to Nat using hb.le
  have hb64 : b < 2 ^ 64 := by simp only [maxTicks] at hle; omega
  obtain ⟨a', ha', hx, -, hsame⟩ := exists_isNat_ofInt (n := a) (by omega) (by omega)
  obtain ⟨b', hb', hy, hlog, hlarge⟩ := exists_isNat_ofInt (n := b) (by omega) hb64
  obtain rfl : a' = a := by omega
  rw [toNat_div_of_isNat hx hy ha' hb' (by omega) hlog, ← Int.natCast_ediv, Nat.cast_inj]
  -- A divisor that is not kept as it is is larger than any such dividend.
  rcases hlarge with rfl | ⟨hlarge, hlarge'⟩
  · rfl
  · rw [Nat.div_eq_of_lt (by omega), Nat.div_eq_of_lt (by omega)]

end Telemetry.Number
