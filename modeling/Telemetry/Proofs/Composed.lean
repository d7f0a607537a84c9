import Telemetry.Proofs.Number.Words
import Telemetry.Proofs.Value

/-!
# Values made of their numbers

A value is turned into a number and back. Gauges come back as they are, and derives come back with
the same number, and as the same word where that number is exact. Counters and absolutes are read as
unsigned words but made by way of a signed one, which stops at `2 ^ 63 - 1`: beyond that the number
is lost.
-/

namespace Telemetry

open Number

variable {n : Nat} {x : Float} {w : UInt64}

/-! ## Signed words -/

theorem toNat_signedWord (h : IsNat n x) : (signedWord x).toNat = min n (2 ^ 63 - 1) := by
  have hword := h.toNat_toUInt64
  have hmax : (0x7FFFFFFFFFFFFFFF : UInt64).toNat = 2 ^ 63 - 1 := rfl
  rw [signedWord, if_neg h.not_lt_zero, UInt64.toNat_min, hword, hmax]
  omega

/-- A negative number of at most 64 bits is told by its distance to zero. -/
theorem toNat_signedWord_neg (h : IsNat n x) :
    (0 - signedWord (-x)).toNat = min n (2 ^ 63) := by
  have hword := h.toNat_toUInt64
  have hmin : (0x8000000000000000 : UInt64).toNat = 2 ^ 63 := rfl
  have hback (v : UInt64) : 0 - (0 - v) = v := by simp
  rw [signedWord, if_pos h.neg_lt_zero, h.neg_neg, hback, UInt64.toNat_min, hword, hmin]
  omega

/-- As a number, the greatest word that is made has come to be `2 ^ 63`. -/
theorem isNat_toFloat_signedWord (h : IsNat n x) :
    IsNat (min n (2 ^ 63)) (signedWord x).toFloat := by
  have hword := toNat_signedWord h
  rcases lt_or_ge n (2 ^ 63) with hlt | hge
  · have hsame : (signedWord x).toNat = n := by omega
    rw [min_eq_left hlt.le, toFloat_eq (hsame ▸ h)]
    exact h
  · have hgreatest : (signedWord x).toNat = 2 ^ 63 - 1 := by omega
    have hrounded : rounded (2 ^ 63 - 1) = 2 ^ 63 := by decide
    have hnat := isNat_rounded (w := signedWord x) (by omega)
    rwa [hgreatest, hrounded, ← min_eq_right hge] at hnat

theorem isPositive_iff : w < 0x8000000000000000 ↔ w.toNat < 2 ^ 63 :=
  UInt64.lt_iff_toNat_lt

theorem signedNumber_of_lt (h : w.toNat < 2 ^ 63) : signedNumber w = w.toFloat :=
  if_pos (isPositive_iff.2 h)

theorem signedNumber_of_ge (h : 2 ^ 63 ≤ w.toNat) : signedNumber w = -(0 - w).toFloat :=
  if_neg (mt isPositive_iff.1 (not_lt.2 h))

namespace Value

/-! ## Unsigned words -/

theorem toFloat_signedWord_toFloat (w : UInt64) :
    (signedWord w.toFloat).toFloat = w.toFloat ↔ w.toNat ≤ 2 ^ 63 + 1024 := by
  rcases w.toNat.eq_zero_or_pos with hzero | hpos
  · obtain rfl : w = 0 := UInt64.toNat_inj.1 hzero
    exact iff_of_true rfl (by decide)
  · have hnat := isNat_rounded hpos
    have hback := isNat_toFloat_signedWord hnat
    rw [← rounded_le_iff w.toNat_lt]
    constructor
    · intro heq
      rw [heq] at hback
      have := hback.unique hnat
      omega
    · intro hle
      rw [min_eq_left hle] at hback
      exact hback.eq hnat

theorem toNat_signedWord_toFloat (h : Representable w.toNat) :
    (signedWord w.toFloat).toNat = min w.toNat (2 ^ 63 - 1) := by
  rcases w.toNat.eq_zero_or_pos with hzero | hpos
  · obtain rfl : w = 0 := UInt64.toNat_inj.1 hzero
    rfl
  · have hnat := isNat_rounded hpos
    rw [rounded_of_representable h] at hnat
    exact toNat_signedWord hnat

theorem signedWord_toFloat_lt (w : UInt64) : (signedWord w.toFloat).toNat < 2 ^ 63 := by
  rcases w.toNat.eq_zero_or_pos with hzero | hpos
  · obtain rfl : w = 0 := UInt64.toNat_inj.1 hzero
    decide
  · have := toNat_signedWord (isNat_rounded hpos)
    omega

theorem toNat_signedWord_of_ge (h : 2 ^ 63 ≤ w.toNat) :
    (signedWord w.toFloat).toNat = 2 ^ 63 - 1 := by
  have hword := toNat_signedWord (isNat_rounded (w := w) (by omega))
  have hrounded := le_rounded (n := w.toNat) h w.toNat_lt
  omega

/-! ## Signed words -/

/-- The distance of a negative number to zero. -/
theorem toNat_zero_sub (w : UInt64) : (0 - w).toNat = (2 ^ 64 - w.toNat) % 2 ^ 64 :=
  UInt64.toNat_sub 0 w

theorem toNat_zero_sub_signedWord (h : 2 ^ 63 ≤ w.toNat) :
    (0 - signedWord (-(0 - w).toFloat)).toNat = rounded (0 - w).toNat := by
  have hlt := w.toNat_lt
  have hdistance := toNat_zero_sub w
  have hback := toNat_signedWord_neg (isNat_rounded (w := 0 - w) (by omega))
  have hle := (rounded_le_iff (0 - w).toNat_lt).2 (by omega)
  rwa [min_eq_left hle] at hback

/-- Signed words never lose their number, however it is rounded. -/
theorem signedNumber_signedWord (w : UInt64) :
    signedNumber (signedWord (signedNumber w)) = signedNumber w := by
  rcases lt_or_ge w.toNat (2 ^ 63) with hlt | hge
  · rw [signedNumber_of_lt hlt, signedNumber_of_lt (signedWord_toFloat_lt w),
      toFloat_signedWord_toFloat]
    omega
  · have hlt := w.toNat_lt
    have hdistance := toNat_zero_sub w
    have hnat := isNat_rounded (w := 0 - w) (by omega)
    have hback := toNat_zero_sub_signedWord hge
    rw [signedNumber_of_ge hge]
    have hword : 2 ^ 63 ≤ (signedWord (-(0 - w).toFloat)).toNat := by
      have hle := (rounded_le_iff (0 - w).toNat_lt).2 (by omega)
      have hpos := hnat.pos
      rw [← hback, toNat_zero_sub] at hpos hle
      omega
    rw [signedNumber_of_ge hword, toFloat_eq (hback ▸ hnat)]

theorem signedWord_signedNumber (h : Representable (signedInt w).natAbs) :
    signedWord (signedNumber w) = w := by
  rcases lt_or_ge w.toNat (2 ^ 63) with hlt | hge
  · have hint : signedInt w = w.toNat := if_pos (isPositive_iff.2 hlt)
    rw [hint, Int.natAbs_natCast] at h
    rw [signedNumber_of_lt hlt, ← UInt64.toNat_inj, toNat_signedWord_toFloat h]
    omega
  · have hint : signedInt w = (w.toNat : Int) - 0x10000000000000000 :=
      if_neg (mt isPositive_iff.1 (not_lt.2 hge))
    have habs : (signedInt w).natAbs = (0 - w).toNat := by
      have hlt := w.toNat_lt
      rw [toNat_zero_sub]
      omega
    have hback := toNat_zero_sub_signedWord hge
    rw [rounded_of_representable (habs ▸ h), UInt64.toNat_inj] at hback
    rw [signedNumber_of_ge hge]
    simpa using hback

/-! ## Values -/

/-- A value made of the number of another one is of its kind. It has its number, but for counters
and absolutes beyond `2 ^ 63 + 1024`; and it is the same value if that is a gauge, a derive whose
signed number is exact, or a counter or an absolute below `2 ^ 63` whose number is exact. From
`2 ^ 63` on the word that comes back is always the same. -/
theorem compose_number (v : Value) :
    (compose v.number v.kind).kind = v.kind ∧
    ((compose v.number v.kind).number = v.number ↔
      (v.kind.wraps = true → v.word.toNat ≤ 2 ^ 63 + 1024)) ∧
    (v.kind = .gauge → compose v.number v.kind = v) ∧
    (v.kind = .derive → Representable (signedInt v.word).natAbs →
      compose v.number v.kind = v) ∧
    (v.kind.wraps = true → Representable v.word.toNat →
      (compose v.number v.kind = v ↔ v.word.toNat < 2 ^ 63)) ∧
    (v.kind.wraps = true → 2 ^ 63 ≤ v.word.toNat →
      (compose v.number v.kind).word.toNat = 2 ^ 63 - 1) := by
  cases v with
  | gauge x => simp [compose, number, kind, MetricKind.wraps]
  | derive w =>
    have hword (h : Representable (signedInt w).natAbs) : derive (signedWord (signedNumber w)) =
        derive w := congrArg derive (signedWord_signedNumber h)
    refine ⟨rfl, iff_of_true (signedNumber_signedWord w) ?_, ?_, fun _ => hword, ?_, ?_⟩ <;>
      · intro h
        cases h
  | counter w | absolute w =>
    have hnumber := toFloat_signedWord_toFloat w
    have hword (h : Representable w.toNat) : signedWord w.toFloat = w ↔ w.toNat < 2 ^ 63 := by
      rw [← UInt64.toNat_inj, toNat_signedWord_toFloat h]
      omega
    refine ⟨rfl, ?_, ?_, ?_, ?_, ?_⟩
    · simpa [compose, number, kind, word, MetricKind.wraps] using hnumber
    · intro h
      cases h
    · intro h
      cases h
    · simpa [compose, number, kind, word, MetricKind.wraps] using hword
    · intro _ hge
      exact toNat_signedWord_of_ge hge

/-- The first word that does not come back, although it is a double. -/
example : compose (counter 0x8000000000000000).number .counter = counter 0x7FFFFFFFFFFFFFFF := by
  rfl

end Value

end Telemetry
