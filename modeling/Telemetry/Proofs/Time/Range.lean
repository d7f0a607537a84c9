import Mathlib.Tactic.Ring
import Mathlib.Tactic.Linarith
import Telemetry.Time.Lattice

/-!
# Time arithmetic within its range

Counts are 64-bit numbers, and one that would leave the range stops at its end. Here each operation
gets a condition, `AddFits`, `FloorFits` and so on, which says that neither the conversions to the
finer unit nor the result leave the range. Under it the operation is exact on instants: `nanos`
turns it into the operation on integers that it stands for.
-/

namespace Telemetry

/-- `n` nanoseconds, counted in `u`, are within the range of a count. -/
def Fits (n : Int) (u : TimeUnit) : Prop :=
  minTicks * u.nanos ≤ n ∧ n ≤ maxTicks * u.nanos

instance (n : Int) (u : TimeUnit) : Decidable (Fits n u) :=
  inferInstanceAs (Decidable (_ ∧ _))

theorem not_overflows {n : Int} (hmin : minTicks ≤ n) (hmax : n ≤ maxTicks) :
    overflows n = false := by
  simp only [overflows, Bool.or_eq_false_iff, decide_eq_false_iff_not]
  omega

/-- Where so many units can be counted, their number is within the range. -/
theorem Fits.not_overflows {n : Int} {u : TimeUnit} (h : Fits (n * u.nanos) u) :
    overflows n = false :=
  Telemetry.not_overflows (le_of_mul_le_mul_right h.1 u.nanos_pos)
    (le_of_mul_le_mul_right h.2 u.nanos_pos)

/-! ## Units -/

namespace TimeUnit

theorem nanos_dvd {u v : TimeUnit} (h : u.nanos ≤ v.nanos) : u.nanos ∣ v.nanos := by
  cases u <;> cases v <;> first | (exact absurd h (by decide)) | decide

theorem nanos_finest_le_left (u v : TimeUnit) : (u.finest v).nanos ≤ u.nanos := by
  unfold finest; split <;> omega

theorem nanos_finest_le_right (u v : TimeUnit) : (u.finest v).nanos ≤ v.nanos := by
  unfold finest; split <;> omega

theorem nanos_finest (u v : TimeUnit) : (u.finest v).nanos = min u.nanos v.nanos := by
  unfold finest; split <;> omega

theorem finest_finest (u v : TimeUnit) : (u.finest v).finest v = u.finest v := by
  unfold finest; split <;> simp_all

/-- A conversion to a finer unit keeps the time, and one to a coarser unit drops the fraction. -/
theorem convert_eq_tdiv {u v : TimeUnit} {n : Int} (h : Fits (n * v.nanos) u) :
    u.convert n v = (n * v.nanos).tdiv u.nanos := by
  have hu := u.nanos_pos
  have hv := v.nanos_pos
  unfold convert
  split
  · rename_i hle
    obtain ⟨k, hk⟩ := nanos_dvd hle
    have hmul : n * v.nanos = n * k * u.nanos := by rw [hk]; ring
    rw [hk, Int.mul_ediv_cancel_left _ hu.ne', ← hk, hmul, Int.mul_tdiv_cancel _ hu.ne']
    rw [Fits, hmul] at h
    exact clampTicks_of_mem (le_of_mul_le_mul_right h.1 hu) (le_of_mul_le_mul_right h.2 hu)
  · rename_i hlt
    obtain ⟨k, hk⟩ := nanos_dvd (by omega : v.nanos ≤ u.nanos)
    rw [hk, Int.mul_ediv_cancel_left _ hv.ne', mul_comm n, Int.mul_tdiv_mul_of_pos _ _ hv]

/-- Whatever the range, a conversion is the quotient of the units, kept within the range. -/
theorem convert_eq_clampTicks {u v : TimeUnit} {n : Int} (hmin : minTicks ≤ n)
    (hmax : n ≤ maxTicks) :
    u.convert n v = clampTicks ((n * v.nanos).tdiv u.nanos) := by
  have hu := u.nanos_pos
  have hv := v.nanos_pos
  unfold convert
  split
  · rename_i hle
    obtain ⟨k, hk⟩ := nanos_dvd hle
    have hmul : n * v.nanos = n * k * u.nanos := by rw [hk]; ring
    rw [hmul, hk, Int.mul_ediv_cancel_left _ hu.ne', Int.mul_tdiv_cancel _ hu.ne']
  · rename_i hlt
    obtain ⟨k, hk⟩ := nanos_dvd (by omega : v.nanos ≤ u.nanos)
    have hk0 : 0 < k := pos_of_mul_pos_right (hk ▸ hu) hv.le
    rw [hk, Int.mul_ediv_cancel_left _ hv.ne', mul_comm n, Int.mul_tdiv_mul_of_pos _ _ hv]
    have hlow : minTicks ≤ minTicks.tdiv k := by
      have := Int.tdiv_le_self k (by decide : 0 ≤ -minTicks)
      rw [Int.neg_tdiv] at this
      exact Int.neg_le_neg_iff.1 this
    have hhigh : maxTicks.tdiv k ≤ maxTicks := Int.tdiv_le_self k (by decide)
    exact (clampTicks_of_mem (hlow.trans (Int.tdiv_le_tdiv hk0 hmin))
      ((Int.tdiv_le_tdiv hk0 hmax).trans hhigh)).symm

theorem convert_mul_nanos {u v : TimeUnit} {n : Int} (hle : u.nanos ≤ v.nanos)
    (h : Fits (n * v.nanos) u) : u.convert n v * u.nanos = n * v.nanos := by
  rw [convert_eq_tdiv h]
  exact Int.tdiv_mul_cancel ((nanos_dvd hle).mul_left n)

end TimeUnit

/-! ## Rounding of integers -/

/-- The greatest multiple of `s` that is not above `n`. -/
def floorTo (n s : Int) : Int := n / s * s

/-- The least multiple of `s` that is not below `n`. -/
def ceilTo (n s : Int) : Int := -floorTo (-n) s

section Rounding

variable {n m s : Int}

theorem floorTo_le (hs : 0 < s) : floorTo n s ≤ n :=
  Int.ediv_mul_le n hs.ne'

theorem dvd_floorTo : s ∣ floorTo n s := Int.dvd_mul_left _ _

theorem le_ceilTo (hs : 0 < s) : n ≤ ceilTo n s := by
  have := floorTo_le (n := -n) hs
  rw [ceilTo]; omega

theorem dvd_ceilTo : s ∣ ceilTo n s := Int.dvd_neg.2 dvd_floorTo

theorem floorTo_of_dvd (h : s ∣ n) : floorTo n s = n := Int.ediv_mul_cancel h

theorem ceilTo_of_dvd (h : s ∣ n) : ceilTo n s = n := by
  rw [ceilTo, floorTo_of_dvd (Int.dvd_neg.2 h), neg_neg]

theorem floorTo_sub_of_dvd (h : s ∣ m) : floorTo (n - m) s = floorTo n s - m := by
  obtain ⟨k, rfl⟩ := h
  rcases eq_or_ne s 0 with rfl | hs
  · simp [floorTo]
  · rw [floorTo, floorTo, Int.sub_mul_ediv_left n k hs]
    ring

theorem floorTo_le_iff (hs : 0 < s) (h : s ∣ m) : floorTo n s ≤ m ↔ n < m + s := by
  obtain ⟨k, rfl⟩ := h
  rw [floorTo, mul_comm s k, mul_le_mul_iff_left₀ hs, ← Int.lt_add_one_iff,
    Int.ediv_lt_iff_lt_mul hs, add_one_mul]

/-- Rounding is the same whether it is done on counts or on what they stand for. -/
theorem floorTo_mul {u : Int} (hu : 0 < u) : floorTo (n * u) (s * u) = floorTo n s * u := by
  rw [floorTo, floorTo, Int.mul_ediv_mul_of_pos_left _ _ hu]
  ring

theorem ceilTo_mul {u : Int} (hu : 0 < u) : ceilTo (n * u) (s * u) = ceilTo n s * u := by
  rw [ceilTo, ceilTo, ← neg_mul, floorTo_mul hu, neg_mul]

theorem ceilTo_of_not_dvd (hs : 0 < s) (h : ¬ s ∣ n) : ceilTo n s = (n / s + 1) * s := by
  have hdiv : -n / s = -(n / s + 1) := by
    have h1 := Int.emod_add_mul_ediv n s
    have h2 := Int.emod_pos_of_not_dvd h |>.resolve_left hs.ne'
    have h3 := Int.emod_lt_of_pos n hs
    rw [Int.ediv_eq_iff_of_pos hs]
    constructor <;> nlinarith
  rw [ceilTo, floorTo, hdiv]
  ring

end Rounding

/-! ## Spans -/

namespace Duration

theorem nanos_nonneg (d : Duration) : 0 ≤ d.nanos :=
  mul_nonneg d.nonneg d.unit.nanos_pos.le

theorem isZero_iff {d : Duration} : d.isZero = true ↔ d.nanos = 0 := by
  have := d.unit.nanos_pos
  simp [isZero, nanos, this.ne']

theorem nanos_pos_iff {d : Duration} : 0 < d.nanos ↔ ¬ d.isZero = true := by
  rw [isZero_iff]
  exact d.nanos_nonneg.lt_iff_ne.trans ne_comm

theorem ticksIn_mul_nanos {d : Duration} {u : TimeUnit} (hle : u.nanos ≤ d.unit.nanos)
    (h : Fits d.nanos u) : d.ticksIn u * u.nanos = d.nanos :=
  TimeUnit.convert_mul_nanos hle h

/-- Two spans can be counted in the finer of their units. -/
def RatioFits (a b : Duration) : Prop :=
  Fits a.nanos (a.commonUnit b) ∧ Fits b.nanos (a.commonUnit b)

theorem pos_of_isMultipleOf {a b : Duration} (h : a.isMultipleOf b = true) : 0 < a.nanos := by
  apply lt_of_le_of_ne a.nanos_nonneg
  intro hzero
  obtain ⟨hpart, hwhole, -⟩ := of_decide_eq_true h
  have hticks : a.ticks = 0 := by
    have := a.unit.nanos_pos
    simpa [nanos, this.ne'] using hzero.symm
  have hnone : a.ticksIn (a.commonUnit b) = 0 := by
    rw [ticksIn, hticks, TimeUnit.convert]
    split
    · rw [zero_mul]
      exact clampTicks_of_mem (by decide) (by decide)
    · exact Int.zero_tdiv _
  omega

instance (a b : Duration) : Decidable (RatioFits a b) :=
  inferInstanceAs (Decidable (_ ∧ _))

theorem isMultipleOf_iff {a b : Duration} (h : RatioFits a b) :
    a.isMultipleOf b = true ↔ 0 < b.nanos ∧ b.nanos ≤ a.nanos ∧ b.nanos ∣ a.nanos := by
  have hu := (a.commonUnit b).nanos_pos
  have ha := ticksIn_mul_nanos (TimeUnit.nanos_finest_le_left _ _) h.1
  have hb := ticksIn_mul_nanos (TimeUnit.nanos_finest_le_right _ _) h.2
  change _ * (a.commonUnit b).nanos = _ at ha hb
  rw [isMultipleOf, decide_eq_true_iff, ← ha, ← hb, Int.mul_dvd_mul_iff_right hu.ne',
    mul_le_mul_iff_left₀ hu, mul_pos_iff_of_pos_right hu, Int.dvd_iff_emod_eq_zero]
  rfl

end Duration

/-! ## Instants -/

namespace Timestamp

theorem le_iff {a b : Timestamp} : a ≤ b ↔ a.nanos ≤ b.nanos := Iff.rfl

theorem lt_iff {a b : Timestamp} : a < b ↔ a.nanos < b.nanos := Iff.rfl

theorem nanos_later (a b : Timestamp) : (a.later b).nanos = max a.nanos b.nanos := by
  unfold later
  split <;> rename_i h <;> rw [lt_iff] at h <;> omega

theorem ticksIn_mul_nanos {t : Timestamp} {u : TimeUnit} (hle : u.nanos ≤ t.unit.nanos)
    (h : Fits t.nanos u) : t.ticksIn u * u.nanos = t.nanos :=
  TimeUnit.convert_mul_nanos hle h

theorem nanos_ofTicks {n : Int} {u : TimeUnit} (h : Fits (n * u.nanos) u) :
    (ofTicks n u).nanos = n * u.nanos := by
  have hu := u.nanos_pos
  exact congrArg (· * u.nanos) (clampTicks_of_mem (le_of_mul_le_mul_right h.1 hu)
    (le_of_mul_le_mul_right h.2 hu))

theorem millis_eq_clampTicks (t : Timestamp) : t.millis = clampTicks (t.nanos.tdiv 1000000) :=
  TimeUnit.convert_eq_clampTicks t.min_le t.le_max

/-- Whole milliseconds depend on the instant alone. -/
theorem millis_eq_tdiv {t : Timestamp} (h : Fits t.nanos .milliseconds) :
    t.millis = t.nanos.tdiv 1000000 :=
  TimeUnit.convert_eq_tdiv h

def AddFits (t : Timestamp) (d : Duration) : Prop :=
  let u := t.unit.finest d.unit
  Fits t.nanos u ∧ Fits d.nanos u ∧ Fits (t.nanos + d.nanos) u

def SubFits (t : Timestamp) (d : Duration) : Prop :=
  let u := t.unit.finest d.unit
  Fits t.nanos u ∧ Fits d.nanos u ∧ Fits (t.nanos - d.nanos) u

def FloorFits (t : Timestamp) (d : Duration) : Prop :=
  let u := t.unit.finest d.unit
  Fits t.nanos u ∧ Fits d.nanos u ∧ Fits (floorTo t.nanos d.nanos) u

def CeilFits (t : Timestamp) (d : Duration) : Prop :=
  let u := t.unit.finest d.unit
  Fits t.nanos u ∧ Fits d.nanos u ∧ Fits (ceilTo t.nanos d.nanos) u

instance (t : Timestamp) (d : Duration) : Decidable (t.AddFits d) :=
  inferInstanceAs (Decidable (_ ∧ _ ∧ _))

instance (t : Timestamp) (d : Duration) : Decidable (t.SubFits d) :=
  inferInstanceAs (Decidable (_ ∧ _ ∧ _))

instance (t : Timestamp) (d : Duration) : Decidable (t.FloorFits d) :=
  inferInstanceAs (Decidable (_ ∧ _ ∧ _))

instance (t : Timestamp) (d : Duration) : Decidable (t.CeilFits d) :=
  inferInstanceAs (Decidable (_ ∧ _ ∧ _))

section Exact

variable {t : Timestamp} {d : Duration}

theorem nanos_add (h : t.AddFits d) : (t + d).nanos = t.nanos + d.nanos := by
  obtain ⟨ht, hd, hsum⟩ := h
  have hn := ticksIn_mul_nanos (TimeUnit.nanos_finest_le_left _ _) ht
  have hm := Duration.ticksIn_mul_nanos (TimeUnit.nanos_finest_le_right _ _) hd
  rw [← hn, ← hm, ← add_mul] at hsum ⊢
  exact nanos_ofTicks hsum

theorem nanos_sub (h : t.SubFits d) : (t - d).nanos = t.nanos - d.nanos := by
  obtain ⟨ht, hd, hdiff⟩ := h
  have hn := ticksIn_mul_nanos (TimeUnit.nanos_finest_le_left _ _) ht
  have hm := Duration.ticksIn_mul_nanos (TimeUnit.nanos_finest_le_right _ _) hd
  rw [← hn, ← hm, ← sub_mul] at hdiff ⊢
  exact nanos_ofTicks hdiff

theorem nanos_floor (hpos : 0 < d.nanos) (h : t.FloorFits d) :
    (t.floor d).nanos = floorTo t.nanos d.nanos := by
  obtain ⟨ht, hd, hfloor⟩ := h
  have hu := (t.unit.finest d.unit).nanos_pos
  have hn := ticksIn_mul_nanos (TimeUnit.nanos_finest_le_left _ _) ht
  have hm := Duration.ticksIn_mul_nanos (TimeUnit.nanos_finest_le_right _ _) hd
  have hne : d.ticksIn (t.unit.finest d.unit) ≠ 0 := by rintro h0; simp [h0] at hm; omega
  rw [← hn, ← hm, floorTo_mul hu] at hfloor ⊢
  rw [floor, if_neg hne]
  exact nanos_ofTicks hfloor

theorem nanos_ceil (hpos : 0 < d.nanos) (h : t.CeilFits d) :
    (t.ceil d).nanos = ceilTo t.nanos d.nanos := by
  obtain ⟨ht, hd, hceil⟩ := h
  have hu := (t.unit.finest d.unit).nanos_pos
  have hn := ticksIn_mul_nanos (TimeUnit.nanos_finest_le_left _ _) ht
  have hm := Duration.ticksIn_mul_nanos (TimeUnit.nanos_finest_le_right _ _) hd
  have hticks : 0 < d.ticksIn (t.unit.finest d.unit) := by
    rw [← hm] at hpos
    exact pos_of_mul_pos_left hpos hu.le
  rw [← hn, ← hm, ceilTo_mul hu] at hceil ⊢
  by_cases hdvd : d.ticksIn (t.unit.finest d.unit) ∣ t.ticksIn (t.unit.finest d.unit)
  · rw [ceilTo_of_dvd hdvd] at hceil ⊢
    rw [ceil, if_pos (.inr (Int.emod_eq_zero_of_dvd hdvd))]
    exact nanos_ofTicks hceil
  · rw [ceilTo_of_not_dvd hticks hdvd] at hceil ⊢
    rw [ceil, if_neg (not_or.2 ⟨hticks.ne', mt Int.dvd_of_emod_eq_zero hdvd⟩)]
    exact nanos_ofTicks hceil

theorem not_floorOverflows (h : t.FloorFits d) : t.floorOverflows d = false := by
  obtain ⟨ht, hd, hfloor⟩ := h
  have hn := ticksIn_mul_nanos (TimeUnit.nanos_finest_le_left _ _) ht
  have hm := Duration.ticksIn_mul_nanos (TimeUnit.nanos_finest_le_right _ _) hd
  rw [← hn, ← hm, floorTo_mul (t.unit.finest d.unit).nanos_pos, floorTo] at hfloor
  rw [floorOverflows]
  exact Bool.and_eq_false_imp.2 fun _ => hfloor.not_overflows

theorem not_ceilOverflows (hpos : 0 < d.nanos) (h : t.CeilFits d) :
    t.ceilOverflows d = false := by
  obtain ⟨ht, hd, hceil⟩ := h
  have hu := (t.unit.finest d.unit).nanos_pos
  have hn := ticksIn_mul_nanos (TimeUnit.nanos_finest_le_left _ _) ht
  have hm := Duration.ticksIn_mul_nanos (TimeUnit.nanos_finest_le_right _ _) hd
  have hticks : 0 < d.ticksIn (t.unit.finest d.unit) := by
    rw [← hm] at hpos
    exact pos_of_mul_pos_left hpos hu.le
  rw [ceilOverflows]
  refine Bool.and_eq_false_imp.2 fun hpart => ?_
  have hdvd : ¬ d.ticksIn (t.unit.finest d.unit) ∣ t.ticksIn (t.unit.finest d.unit) := by
    intro hdvd
    simp [Int.emod_eq_zero_of_dvd hdvd] at hpart
  rw [← hn, ← hm, ceilTo_mul hu, ceilTo_of_not_dvd hticks hdvd] at hceil
  exact hceil.not_overflows

end Exact

end Timestamp

/-! ## Whole milliseconds -/

/-- The milliseconds of an instant, exact where it is counted in milliseconds or a coarser unit. -/
def Timestamp.exactMillis (t : Timestamp) : Int := t.nanos / 1000000

def Duration.exactMillis (d : Duration) : Int := d.nanos / 1000000

/-- The instant is a whole number of milliseconds, and its count of them is exact. -/
def Timestamp.Whole (t : Timestamp) : Prop := t.nanos = t.millis * 1000000

namespace Timestamp

variable {a b : Timestamp}

theorem whole_of_dvd (h : Fits a.nanos .milliseconds) (hdvd : 1000000 ∣ a.nanos) : a.Whole := by
  rw [Whole, millis_eq_tdiv h]
  exact (Int.tdiv_mul_cancel hdvd).symm

theorem Whole.exactMillis (h : a.Whole) : a.exactMillis = a.millis := by
  rw [Timestamp.exactMillis, h]
  omega

theorem Whole.lt_iff (ha : a.Whole) (hb : b.Whole) : a < b ↔ a.millis < b.millis := by
  rw [Timestamp.lt_iff, ha, hb]
  omega

theorem Whole.le_iff (ha : a.Whole) (hb : b.Whole) : a ≤ b ↔ a.millis ≤ b.millis := by
  rw [Timestamp.le_iff, ha, hb]
  omega

theorem dvd_nanos (h : TimeUnit.milliseconds.nanos ≤ a.unit.nanos) : 1000000 ∣ a.nanos :=
  (TimeUnit.nanos_dvd h).mul_left _

/-- Dropping the fraction of a millisecond keeps instants in order, and so does the end of the
range. -/
theorem millis_le_millis (h : a ≤ b) : a.millis ≤ b.millis := by
  have htdiv : a.nanos.tdiv 1000000 ≤ b.nanos.tdiv 1000000 := Int.tdiv_le_tdiv (by decide) h
  rw [millis_eq_clampTicks, millis_eq_clampTicks]
  simp only [clampTicks]
  omega

theorem millis_later (a b : Timestamp) : (a.later b).millis = max a.millis b.millis := by
  unfold later
  split <;> rename_i h
  · rw [max_eq_left (millis_le_millis (Int.le_of_lt h))]
  · rw [max_eq_right (millis_le_millis (Int.not_lt.1 h))]

/-- A multiple of a step of a millisecond or more is at least one millisecond later than the one
before. -/
theorem millis_lt_millis {c p : Timestamp} {step : Int} (hc : Fits c.nanos .milliseconds)
    (hp : Fits p.nanos .milliseconds) (hsub : p.nanos = c.nanos - step) (hdvd : step ∣ c.nanos)
    (hstep : 1000000 ≤ step) : p.millis < c.millis := by
  obtain ⟨k, hk⟩ := hdvd
  rw [millis_eq_tdiv hc, millis_eq_tdiv hp]
  -- Zero does not lie between the two, so that both are rounded to the same side.
  have hside : 0 ≤ p.nanos ∨ c.nanos ≤ 0 := by
    rcases Int.lt_or_le 0 k with hpos | hneg
    · exact .inl (by nlinarith)
    · exact .inr (by nlinarith)
  rcases hside with hpos | hneg
  · rw [Int.tdiv_eq_ediv_of_nonneg hpos, Int.tdiv_eq_ediv_of_nonneg (by omega)]
    omega
  · have htdiv (n : Int) (hn : n ≤ 0) : n.tdiv 1000000 = -(-n / 1000000) := by
      rw [← Int.tdiv_eq_ediv_of_nonneg (by omega), Int.neg_tdiv, Int.neg_neg]
    rw [htdiv _ hneg, htdiv _ (by omega)]
    omega

end Timestamp

theorem Duration.millis_le_millis {a b : Duration} (h : a ≤ b) (ha : Fits a.nanos .milliseconds)
    (hb : Fits b.nanos .milliseconds) : a.millis ≤ b.millis := by
  rw [millis, millis, ticksIn, ticksIn, TimeUnit.convert_eq_tdiv ha, TimeUnit.convert_eq_tdiv hb]
  exact Int.tdiv_le_tdiv (by decide) h

end Telemetry
