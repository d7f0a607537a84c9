import Mathlib
import Telemetry.Consolidation
import Telemetry.Time.Duration

/-!
# Doubles

A finite double other than zero is a mantissa of at most 53 bits times a power of two, and each
such number has one form, `Canonical`. A result that has this form is not rounded, and what is
packed into 64 bits is unpacked as it was. So adding zero and dividing by one change nothing, and a
number divided by itself is one.

Mathlib is imported whole for what Batteries proves about packing and comparing doubles, since no
smaller module of Mathlib leads there.
-/

namespace Telemetry.Number

open Float.Model Float.Model.UnpackedFloat

/-- Mantissa and exponent of a double. Only the least exponent goes with a short mantissa. -/
structure Canonical (m : Nat) (e : Int) : Prop where
  pos : 0 < m
  lt : m < 2 ^ 53
  min_le : -1074 ≤ e
  le_max : e ≤ 971
  normal : 2 ^ 52 ≤ m ∨ e = -1074

/-! ## Rounding -/

section Rounding

variable {m k : Nat} {e : Int} {s : Sign}

theorem log2_mul_two_pow (hm : 0 < m) (k : Nat) : (m * 2 ^ k).log2 = m.log2 + k := by
  have hpow : 0 < 2 ^ k := Nat.two_pow_pos k
  refine (Nat.log2_eq_iff (Nat.mul_pos hm hpow).ne').2 ⟨?_, ?_⟩
  · rw [Nat.pow_add]
    exact Nat.mul_le_mul_right _ (Nat.log2_self_le hm.ne')
  · rw [Nat.add_right_comm, Nat.pow_add]
    exact Nat.mul_lt_mul_of_pos_right Nat.lt_log2_self hpow

theorem targetExponent_binary64 (t : Int) :
    Format.binary64.targetExponent t = max (t - 53) (-1074) := rfl

theorem Canonical.log2 (h : Canonical m e) : m.log2 ≤ 52 ∧ (2 ^ 52 ≤ m → m.log2 = 52) := by
  have hlt := (Nat.log2_lt h.pos.ne').2 h.lt
  refine ⟨by omega, fun hle => ?_⟩
  have := (Nat.le_log2 h.pos.ne').2 hle
  omega

theorem Canonical.targetExponent (h : Canonical m e) (k : Nat) :
    Format.binary64.targetExponent (totalExponent (m * 2 ^ k) (e - k)) = e := by
  obtain ⟨hle, hnormal⟩ := h.log2
  have hmin := h.min_le
  have hform := h.normal
  rw [targetExponent_binary64, totalExponent, log2_mul_two_pow h.pos]
  omega

theorem shiftRight_exact (m k : Nat) :
    (ExtendedMantissa.mk (m * 2 ^ k) false false >>> k) = ⟨m, false, false⟩ := by
  induction k generalizing m with
  | zero => simp [HShiftRight.hShiftRight, Nat.repeat]
  | succ k ih =>
    have hdouble : m * 2 ^ (k + 1) = m * 2 * 2 ^ k := by rw [Nat.pow_succ', Nat.mul_assoc]
    have hstep : (ExtendedMantissa.mk (m * 2 ^ (k + 1)) false false >>> (k + 1)) =
        (ExtendedMantissa.mk (m * 2 ^ (k + 1)) false false >>> k).shiftRightOne := rfl
    rw [hstep, hdouble, ih]
    simp [ExtendedMantissa.shiftRightOne]

theorem mantissa_shiftRight (em : ExtendedMantissa) (k : Nat) :
    (em >>> k).mantissa = em.mantissa / 2 ^ k := by
  induction k with
  | zero => simp [HShiftRight.hShiftRight, Nat.repeat]
  | succ k ih =>
    have hstep : (em >>> (k + 1)) = (em >>> k).shiftRightOne := rfl
    rw [hstep, ExtendedMantissa.shiftRightOne, ih, Nat.div_div_eq_div_mul, Nat.pow_succ]

theorem Canonical.shift (h : Canonical m e) (k : Nat) :
    shiftToTargetExponent Format.binary64 (m * 2 ^ k) (e - k) .exact =
      (⟨m, false, false⟩, e) := by
  have hk : (e - (e - k)).toNat = k := by omega
  simp only [shiftToTargetExponent, h.targetExponent, shiftToExponent, hk,
    ExtendedMantissa.ofMantissaAndAccuracy, shiftRight_exact]
  simp

theorem Canonical.shift_self (h : Canonical m e) :
    shiftToTargetExponent Format.binary64 m e .exact = (⟨m, false, false⟩, e) := by
  simpa using h.shift 0

/-- Nothing is rounded where the number has a canonical form. -/
theorem Canonical.round (h : Canonical m e) (s : Sign) (k : Nat) :
    roundWithAccuracy Format.binary64 s (m * 2 ^ k) (e - k) .exact = .finite s m e h.pos := by
  have hm : (ExtendedMantissa.mk m false false).roundedMantissa = m := rfl
  simp only [roundWithAccuracy, h.shift, hm, h.shift_self, dif_neg h.pos.ne']

theorem roundedMantissa_mem (em : ExtendedMantissa) :
    em.mantissa ≤ em.roundedMantissa ∧ em.roundedMantissa ≤ em.mantissa + 1 := by
  obtain ⟨m, r, t⟩ := em
  cases r <;> cases t <;>
    simp [ExtendedMantissa.roundedMantissa, ExtendedMantissa.accuracy,
      Accuracy.roundToNearestEven]
  omega

theorem mantissa_ofMantissaAndAccuracy (m : Nat) (a : Accuracy) :
    (ExtendedMantissa.ofMantissaAndAccuracy m a).mantissa = m := by
  rcases a with _ | _ | _ | _ <;> rfl

/-- A mantissa with `k` bits too many is rounded at the last bit that is left, and a carry out of it
is shifted back. -/
theorem exists_round_shiftRight (s : Sign) (a : Accuracy) (hk : m.log2 = 52 + k)
    (hmin : -1074 ≤ e + k) (hmax : e + k ≤ 970) :
    ∃ m' e', ∃ h : Canonical m' e',
      roundWithAccuracy Format.binary64 s m e a = .finite s m' e' h.pos ∧ m'.log2 = 52 ∧
        ∃ carry : Nat, carry ≤ 1 ∧ e' = e + k + carry ∧
          m' * 2 ^ carry = (ExtendedMantissa.ofMantissaAndAccuracy m a >>> k).roundedMantissa := by
  have hpos : m ≠ 0 := by
    rintro rfl
    rw [Nat.log2_zero] at hk
    omega
  have htarget : Format.binary64.targetExponent (totalExponent m e) = e + k := by
    rw [targetExponent_binary64, totalExponent]
    omega
  generalize hem : ExtendedMantissa.ofMantissaAndAccuracy m a >>> k = em
  have hfirst : shiftToTargetExponent Format.binary64 m e a = (em, e + k) := by
    have : (e + k - e).toNat = k := by omega
    simp only [shiftToTargetExponent, htarget, shiftToExponent, this, hem]
  have hmantissa : em.mantissa = m / 2 ^ k := by
    rw [← hem, mantissa_shiftRight, mantissa_ofMantissaAndAccuracy]
  have hlow : 2 ^ 52 ≤ em.mantissa := by
    rw [hmantissa, Nat.le_div_iff_mul_le (Nat.two_pow_pos k), ← Nat.pow_add, ← hk]
    exact Nat.log2_self_le hpos
  have hhigh : em.mantissa < 2 ^ 53 := by
    rw [hmantissa, Nat.div_lt_iff_lt_mul (Nat.two_pow_pos k), ← Nat.pow_add]
    have := Nat.lt_log2_self (n := m)
    rwa [hk, Nat.add_right_comm] at this
  have hrounded := roundedMantissa_mem em
  -- A carry out of the mantissa leaves a power of two, which is shifted back without loss.
  rcases (by omega : em.roundedMantissa < 2 ^ 53 ∨ em.roundedMantissa = 2 ^ 52 * 2 ^ 1) with
    hlt | hcarry
  · have h : Canonical em.roundedMantissa (e + k) := ⟨by omega, hlt, by omega, by omega, by omega⟩
    refine ⟨_, _, h, ?_, h.log2.2 (by omega), 0, by omega, by simp, Nat.mul_one _⟩
    simp only [roundWithAccuracy, hfirst, h.shift_self, dif_neg h.pos.ne']
  · have h : Canonical (2 ^ 52) (e + k + 1) :=
      ⟨by decide, by decide, by omega, by omega, .inl le_rfl⟩
    have hsecond := h.shift 1
    rw [Nat.cast_one, add_sub_cancel_right] at hsecond
    refine ⟨_, _, h, ?_, h.log2.2 le_rfl, 1, le_rfl, rfl, hcarry.symm⟩
    simp only [roundWithAccuracy, hfirst, hcarry, hsecond, dif_neg h.pos.ne']

/-- A number of normal size is rounded to one that has a canonical form, and is at most doubled. -/
theorem exists_round (s : Sign) (a : Accuracy) (hm : 52 ≤ m.log2)
    (hmin : -1074 ≤ m.log2 + e - 52) (hmax : m.log2 + e - 52 ≤ 970) :
    ∃ m' e', ∃ h : Canonical m' e',
      roundWithAccuracy Format.binary64 s m e a = .finite s m' e' h.pos ∧
        m.log2 + e ≤ m'.log2 + e' ∧ m'.log2 + e' ≤ m.log2 + e + 1 := by
  obtain ⟨k, hk⟩ : ∃ k, m.log2 = 52 + k := ⟨m.log2 - 52, by omega⟩
  obtain ⟨m', e', h, hround, hlog, carry, hcarry, he, -⟩ :=
    exists_round_shiftRight (e := e) s a hk (by omega) (by omega)
  exact ⟨m', e', h, hround, by omega, by omega⟩

end Rounding

/-! ## Packing -/

section Packing

variable {m : Nat} {e : Int} {s : Sign}

theorem toNat_one_append (mantissa : BitVec 52) :
    (1#1 ++ mantissa).toNat = 2 ^ 52 + mantissa.toNat := by
  rw [BitVec.toNat_append, ← Nat.shiftLeft_add_eq_or_of_lt mantissa.isLt]
  rfl

theorem bias_binary64 : ((Format.binary64.exponentBias : Nat) : Int) = 1023 := rfl

theorem ofNat_eq_iff {w n : Nat} (h : n < 2 ^ w) (v : BitVec w) :
    BitVec.ofNat w n = v ↔ n = v.toNat := by
  rw [← BitVec.toNat_inj, BitVec.toNat_ofNat, Nat.mod_eq_of_lt h]

/-- What is unpacked from three parts. -/
theorem unpack_packComponents (s : Sign) (exponent : BitVec 11) (mantissa : BitVec 52) :
    UnpackedFloat.unpack .binary64 (packComponents .binary64 s exponent mantissa) =
      if exponent = -1#11 then if mantissa = 0#52 then .infinity s else .notANumber
      else if exponent = 0#11 then
        if h : mantissa = 0#52 then .zero s
        else .finite s mantissa.toNat (exponent.toNat - 1075 + 1) (by
          simpa [BitVec.toNat_pos, BitVec.pos_iff_ne_zero] using h)
      else .finite s (2 ^ 52 + mantissa.toNat) (exponent.toNat - 1075) (by omega) := by
  simp only [UnpackedFloat.unpack, unpackMantissa_packComponents, unpackExponent_packComponents,
    unpackSign_packComponents, Sign.ofBitVec_toBitVec, toNat_one_append, bias_binary64]
  rfl

theorem mantissaBits_binary64 : Format.binary64.mantissaBits = 53 := rfl

theorem Canonical.unpack_pack_of_normal (h : Canonical m e) (hnormal : 2 ^ 52 ≤ m) (s : Sign) :
    UnpackedFloat.unpack .binary64 (UnpackedFloat.pack .binary64 (.finite s m e h.pos)) =
      .finite s m e h.pos := by
  have hmin := h.min_le
  have hmax := h.le_max
  have hlt := h.lt
  obtain ⟨biased, hbiased⟩ : ∃ n : Nat, (e + 1023 + 52).toNat = n := ⟨_, rfl⟩
  have hlog : m.log2 + 1 = Format.binary64.mantissaBits := by
    rw [h.log2.2 hnormal, mantissaBits_binary64]
  have hpack : UnpackedFloat.pack .binary64 (.finite s m e h.pos) =
      packComponents .binary64 s (BitVec.ofNat 11 biased) (BitVec.ofNat 52 m) := by
    have hrange : ¬ 2 ^ 11 ≤ biased + 1 := by omega
    simp only [UnpackedFloat.pack, bias_binary64, Nat.cast_ofNat, hbiased, if_neg hrange,
      if_pos hlog]
  have hones : BitVec.ofNat 11 biased ≠ -1#11 := by
    rw [Ne, ofNat_eq_iff (by omega)]
    simp
    omega
  have hzero : BitVec.ofNat 11 biased ≠ 0#11 := by
    rw [Ne, ofNat_eq_iff (by omega)]
    simp
    omega
  rw [hpack, unpack_packComponents, if_neg hones, if_neg hzero]
  simp only [BitVec.toNat_ofNat]
  congr 1 <;> omega

theorem Canonical.unpack_pack_of_short (h : Canonical m e) (hshort : m < 2 ^ 52) (s : Sign) :
    UnpackedFloat.unpack .binary64 (UnpackedFloat.pack .binary64 (.finite s m e h.pos)) =
      .finite s m e h.pos := by
  obtain rfl := h.normal.resolve_left (by omega)
  have hlog : ¬ m.log2 + 1 = Format.binary64.mantissaBits := by
    have := (Nat.log2_lt h.pos.ne').2 hshort
    rw [mantissaBits_binary64]
    omega
  have hpack : UnpackedFloat.pack .binary64 (.finite s m (-1074) h.pos) =
      packComponents .binary64 s 0#11 (BitVec.ofNat 52 m) := by
    rw [UnpackedFloat.pack, if_neg (by decide), if_neg hlog]
  have hzero : BitVec.ofNat 52 m ≠ 0#52 := by
    rw [Ne, ofNat_eq_iff (by omega)]
    exact h.pos.ne'
  rw [hpack, unpack_packComponents, if_neg (by decide), if_pos rfl, dif_neg hzero]
  simp only [BitVec.toNat_ofNat]
  congr 1
  omega

/-- Packing keeps a canonical form. -/
theorem Canonical.unpack_pack (h : Canonical m e) (s : Sign) :
    (Float.Model.pack (.finite s m e h.pos)).unpack = .finite s m e h.pos := by
  rcases lt_or_ge m (2 ^ 52) with hshort | hnormal
  · exact h.unpack_pack_of_short hshort s
  · exact h.unpack_pack_of_normal hnormal s

theorem canonical_of_unpack {x : Float.Model} {hm : 0 < m} (h : x.unpack = .finite s m e hm) :
    Canonical m e := by
  have hmantissa : (@unpackMantissa .binary64 x.toBits.toBitVec).toNat < 2 ^ 52 := BitVec.isLt _
  have hexponent : (@unpackExponent .binary64 x.toBits.toBitVec).toNat < 2 ^ 11 := BitVec.isLt _
  change UnpackedFloat.unpack .binary64 x.toBits.toBitVec = _ at h
  unfold UnpackedFloat.unpack at h
  dsimp only at h
  split at h
  · split at h <;> cases h
  rename_i hones
  split at h
  · rename_i hzero
    split at h
    · cases h
    cases h
    refine ⟨hm, by omega, ?_, ?_, ?_⟩ <;> simp [hzero, bias_binary64]
  · rename_i hzero
    cases h
    rw [← BitVec.toNat_inj] at hones hzero
    simp at hones hzero
    simp only [toNat_one_append, bias_binary64, Nat.cast_ofNat] at hm ⊢
    exact ⟨hm, by omega, by omega, by omega, by omega⟩

end Packing

/-! ## Operations -/

section Operations

variable {x y : Float} {m n : Nat} {e : Int} {s : Sign}

/-- What a double stands for. -/
def unpacked (x : Float) : UnpackedFloat :=
  x.toModel.unpack

theorem ofModel_pack_unpacked (x : Float) : .ofModel (.pack (unpacked x)) = x :=
  Float.ofBits_toBits x

/-- The form of the number one. -/
theorem canonical_one : Canonical (2 ^ 52) (-52) :=
  ⟨by decide, by decide, by decide, by decide, .inl le_rfl⟩

theorem unpacked_one : unpacked 1 = .finite .positive (2 ^ 52) (-52) canonical_one.pos := by
  rfl

theorem add_def (x y : Float) :
    x + y = .ofModel (.pack (UnpackedFloat.add .binary64 (unpacked x) (unpacked y))) := rfl

theorem mul_def (x y : Float) :
    x * y = .ofModel (.pack (UnpackedFloat.mul .binary64 (unpacked x) (unpacked y))) := rfl

theorem div_def (x y : Float) :
    x / y = .ofModel (.pack (UnpackedFloat.div .binary64 (unpacked x) (unpacked y))) := rfl

/-! ## Order -/

/-- Mantissas count only where the exponents are the same. -/
theorem then_swap (m m' : Nat) (e e' : Int) :
    (compare e' e).then (compare m' m) = ((compare e e').then (compare m m')).swap := by
  rw [Ordering.swap_then, Int.compare_swap, Nat.compare_swap]

theorem compare_swap (u w : UnpackedFloat) :
    w.compare u = (u.compare w).map Ordering.swap := by
  rcases u with (_ | _) | _ | (_ | _) | ⟨_ | _, m, e, hm⟩ <;>
    rcases w with (_ | _) | _ | (_ | _) | ⟨_ | _, m', e', hm'⟩ <;>
    first
      | rfl
      | simp only [UnpackedFloat.compare, Option.map_some, then_swap m m' e e', Ordering.swap_swap]

theorem compare_eq_none {u w : UnpackedFloat} (h : u.compare w = none) :
    u.isNaN = true ∨ w.isNaN = true := by
  rcases u with (_ | _) | _ | (_ | _) | ⟨_ | _, m, e, hm⟩ <;>
    rcases w with (_ | _) | _ | (_ | _) | ⟨_ | _, m', e', hm'⟩ <;>
    first
      | exact .inl rfl
      | exact .inr rfl
      | cases h

theorem lt_iff : x < y ↔ (unpacked x).compare (unpacked y) = some .lt := by
  show decide (UnpackedFloat.lt (unpacked x) (unpacked y) = true) = true ↔ _
  rw [decide_eq_true_iff, UnpackedFloat.lt]
  cases (unpacked x).compare (unpacked y) with
  | none => simp
  | some o => cases o <;> simp

/-- Two numbers are the same if neither is less than the other. -/
theorem beq_of_not_lt (hx : x.isNaN = false) (hy : y.isNaN = false) (hlt : ¬ x < y)
    (hgt : ¬ y < x) : (x == y) = true := by
  rw [lt_iff] at hlt
  rw [lt_iff, compare_swap (unpacked x)] at hgt
  show ((unpacked x).compare (unpacked y) == some .eq) = true
  cases h : (unpacked x).compare (unpacked y) with
  | none =>
    rcases compare_eq_none h with hnan | hnan
    · exact absurd hnan (Bool.eq_false_iff.1 hx)
    · exact absurd hnan (Bool.eq_false_iff.1 hy)
  | some o =>
    rw [h] at hlt hgt
    cases o with
    | lt => exact absurd rfl hlt
    | eq => rfl
    | gt => exact absurd rfl hgt

theorem not_lt_of_le (h : x ≤ y) : ¬ y < x := by
  have hle : UnpackedFloat.le (unpacked x) (unpacked y) = true := of_decide_eq_true h
  rw [UnpackedFloat.le] at hle
  rw [lt_iff, compare_swap (unpacked x)]
  cases hc : (unpacked x).compare (unpacked y) with
  | none => simp
  | some o =>
    rw [hc] at hle
    cases o with
    | lt | eq => simp
    | gt => cases hle

/-! ## Zero and one -/

theorem zero_add_of_ne_zero (h : ∀ s, unpacked x ≠ .zero s) : 0 + x = x := by
  have hadd : UnpackedFloat.add .binary64 (unpacked 0) (unpacked x) = unpacked x := by
    have hzero : unpacked 0 = .zero .positive := rfl
    rw [hzero]
    cases hx : unpacked x with
    | zero s => exact absurd hx (h s)
    | _ => rfl
  rw [add_def, hadd, ofModel_pack_unpacked]

/-- Adding zero changes nothing but the sign of a negative zero. -/
theorem zero_add_beq (hx : x.isNaN = false) : (0 + x == x) = true := by
  by_cases hzero : ∃ s, unpacked x = .zero s
  · obtain ⟨s, hs⟩ := hzero
    rw [← ofModel_pack_unpacked x, hs]
    cases s <;> rfl
  · rw [zero_add_of_ne_zero fun s hs => hzero ⟨s, hs⟩, Float.beq_self_iff]
    simpa using hx

theorem divCore_one (h : Canonical m e) : ∃ k : Nat,
    divCore .binary64 m e (2 ^ 52) (-52) = (m * 2 ^ k, e - k, .exact) := by
  obtain ⟨hle, -⟩ := h.log2
  obtain ⟨k, hk⟩ : ∃ k : Nat, min (e - -52) (Format.binary64.targetExponent
      (totalExponent m e - totalExponent (2 ^ 52) (-52))) = e - k := by
    have hmin := h.min_le
    have hone : totalExponent (2 ^ 52) (-52) = 1 := rfl
    rw [targetExponent_binary64, hone, totalExponent]
    exact ⟨(e - max (m.log2 + e - 53) (-1074)).toNat, by omega⟩
  have hshift : (e - -52 - (e - k)).toNat = k + 52 := by omega
  have hm : m <<< (k + 52) = m * 2 ^ k * 2 ^ 52 := by
    rw [Nat.shiftLeft_eq, Nat.pow_add, Nat.mul_assoc]
  refine ⟨k, ?_⟩
  simp only [divCore, hk, hshift, hm, Nat.mul_div_cancel _ (Nat.two_pow_pos 52),
    Nat.mul_mod_left, accuracyOfFraction, if_pos]

theorem div_one (x : Float) : x / 1 = x := by
  have hdiv : UnpackedFloat.div .binary64 (unpacked x) (unpacked 1) = unpacked x := by
    rw [unpacked_one]
    cases hx : unpacked x with
    | infinity s => cases s <;> rfl
    | notANumber => rfl
    | zero s => cases s <;> rfl
    | finite s m e hm =>
      have h := canonical_of_unpack hx
      obtain ⟨k, hk⟩ := divCore_one h
      have hs : s / .positive = s := by cases s <;> rfl
      simp only [UnpackedFloat.div, hk, hs, h.round]
  rw [div_def, hdiv, ofModel_pack_unpacked]

/-- A number other than zero divided by itself is one. -/
theorem div_self_of_finite {hm : 0 < m} (h : unpacked x = .finite s m e hm) : x / x = 1 := by
  have hcore : divCore .binary64 m e m e = (2 ^ 52 * 2 ^ 1, (-52 : Int) - (1 : Nat), .exact) := by
    have htarget : min (0 : Int) (Format.binary64.targetExponent 0) = -53 := rfl
    have hshift : (0 - (-53 : Int)).toNat = 53 := rfl
    simp only [divCore, sub_self, htarget, hshift, Nat.shiftLeft_eq, Nat.mul_div_cancel_left _ hm,
      Nat.mul_mod_right, accuracyOfFraction, if_pos]
    rfl
  have hs : s / s = .positive := by cases s <;> rfl
  rw [div_def, h]
  simp only [UnpackedFloat.div, hcore, hs, canonical_one.round]
  rfl

end Operations

end Telemetry.Number
