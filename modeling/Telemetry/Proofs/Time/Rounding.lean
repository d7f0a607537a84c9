import Mathlib.Order.Bounds.Basic
import Telemetry.Proofs.Time.Range

/-!
# Rounding to the multiples of a step

Rounded down, an instant becomes the greatest multiple of the step that is not after it, and rounded
up the least that is not before it. Everything else about rounding follows from one fact on either
side, `le_floorTo_iff` and `ceilTo_le_iff`: a multiple of the step lies on the same side of the
rounded instant as of the instant itself. In particular a multiple of a coarser step is a multiple
of the finer one, so that rounding to the finer step first makes no difference.
-/

namespace Telemetry

/-! ## Integers -/

section Integers

variable {n m s r : Int}

theorem le_floorTo_iff (hs : 0 < s) (h : s ∣ m) : m ≤ floorTo n s ↔ m ≤ n := by
  obtain ⟨k, rfl⟩ := h
  rw [floorTo, mul_comm s k, mul_le_mul_iff_left₀ hs, Int.le_ediv_iff_mul_le hs]

theorem ceilTo_le_iff (hs : 0 < s) (h : s ∣ m) : ceilTo n s ≤ m ↔ n ≤ m := by
  rw [ceilTo, neg_le, le_floorTo_iff hs (Int.dvd_neg.2 h), neg_le_neg_iff]

theorem isGreatest_floorTo (hs : 0 < s) : IsGreatest {m | s ∣ m ∧ m ≤ n} (floorTo n s) :=
  ⟨⟨dvd_floorTo, floorTo_le hs⟩, fun _ hm => (le_floorTo_iff hs hm.1).2 hm.2⟩

theorem isLeast_ceilTo (hs : 0 < s) : IsLeast {m | s ∣ m ∧ n ≤ m} (ceilTo n s) :=
  ⟨⟨dvd_ceilTo, le_ceilTo hs⟩, fun _ hm => (ceilTo_le_iff hs hm.1).2 hm.2⟩

theorem floorTo_mono (hs : 0 < s) (h : n ≤ m) : floorTo n s ≤ floorTo m s :=
  (le_floorTo_iff hs dvd_floorTo).2 ((floorTo_le hs).trans h)

theorem ceilTo_mono (hs : 0 < s) (h : n ≤ m) : ceilTo n s ≤ ceilTo m s :=
  (ceilTo_le_iff hs dvd_ceilTo).2 (h.trans (le_ceilTo hs))

/-- To round to a step first makes no difference where one goes on to a multiple of it. -/
theorem floorTo_floorTo (hs : 0 < s) (hr : 0 < r) (h : s ∣ r) :
    floorTo (floorTo n s) r = floorTo n r := by
  apply le_antisymm
  · exact floorTo_mono hr (floorTo_le hs)
  · rw [le_floorTo_iff hr dvd_floorTo, le_floorTo_iff hs (h.trans dvd_floorTo)]
    exact floorTo_le hr

theorem ceilTo_ceilTo (hs : 0 < s) (hr : 0 < r) (h : s ∣ r) :
    ceilTo (ceilTo n s) r = ceilTo n r := by
  simp only [ceilTo, neg_neg, floorTo_floorTo hs hr h]

theorem ceilTo_sub_floorTo (hs : 0 < s) :
    ceilTo n s - floorTo n s = if s ∣ n then 0 else s := by
  split
  next h => rw [ceilTo_of_dvd h, floorTo_of_dvd h, sub_self]
  next h =>
    rw [ceilTo_of_not_dvd hs h, floorTo]
    ring

end Integers

/-! ## Instants -/

namespace Timestamp

variable {t : Timestamp} {step : Duration}

/-- An instant and its unit make up the timestamp. -/
theorem eq_of_nanos {a b : Timestamp} (hunit : a.unit = b.unit) (h : a.nanos = b.nanos) :
    a = b := by
  refine eq_iff.1 ⟨?_, hunit⟩
  rw [nanos, nanos, hunit] at h
  exact mul_right_cancel₀ b.unit.nanos_pos.ne' h

theorem unit_floor (t : Timestamp) (step : Duration) :
    (t.floor step).unit = t.unit.finest step.unit := by
  unfold floor
  dsimp only
  split <;> rfl

theorem unit_ceil (t : Timestamp) (step : Duration) :
    (t.ceil step).unit = t.unit.finest step.unit := by
  unfold ceil
  dsimp only
  split <;> rfl

theorem floor_floor (hpos : 0 < step.nanos) (h : t.FloorFits step) :
    (t.floor step).floor step = t.floor step := by
  have hunit : (t.floor step).unit.finest step.unit = t.unit.finest step.unit := by
    rw [unit_floor, TimeUnit.finest_finest]
  have hnanos := nanos_floor hpos h
  have hsame : floorTo (floorTo t.nanos step.nanos) step.nanos = floorTo t.nanos step.nanos :=
    floorTo_of_dvd dvd_floorTo
  have hfits : (t.floor step).FloorFits step := by
    rw [FloorFits, hunit, hnanos, hsame]
    exact ⟨h.2.2, h.2.1, h.2.2⟩
  refine eq_of_nanos ?_ ?_
  · rw [unit_floor, hunit, unit_floor]
  · rw [nanos_floor hpos hfits, hnanos, hsame]

theorem ceil_ceil (hpos : 0 < step.nanos) (h : t.CeilFits step) :
    (t.ceil step).ceil step = t.ceil step := by
  have hunit : (t.ceil step).unit.finest step.unit = t.unit.finest step.unit := by
    rw [unit_ceil, TimeUnit.finest_finest]
  have hnanos := nanos_ceil hpos h
  have hsame : ceilTo (ceilTo t.nanos step.nanos) step.nanos = ceilTo t.nanos step.nanos :=
    ceilTo_of_dvd dvd_ceilTo
  have hfits : (t.ceil step).CeilFits step := by
    rw [CeilFits, hunit, hnanos, hsame]
    exact ⟨h.2.2, h.2.1, h.2.2⟩
  refine eq_of_nanos ?_ ?_
  · rw [unit_ceil, hunit, unit_ceil]
  · rw [nanos_ceil hpos hfits, hnanos, hsame]

/-- What rounding an instant to the multiples of a step comes to. -/
structure Rounds (t : Timestamp) (step : Duration) : Prop where
  floor_greatest : IsGreatest {n | step.nanos ∣ n ∧ n ≤ t.nanos} (t.floor step).nanos
  ceil_least : IsLeast {n | step.nanos ∣ n ∧ t.nanos ≤ n} (t.ceil step).nanos
  floor_le : t.floor step ≤ t
  le_ceil : t ≤ t.ceil step
  apart : (t.ceil step).nanos - (t.floor step).nanos =
    if step.nanos ∣ t.nanos then 0 else step.nanos
  floor_again : (t.floor step).floor step = t.floor step
  ceil_again : (t.ceil step).ceil step = t.ceil step
  floor_mono : ∀ later : Timestamp, later.FloorFits step → t ≤ later →
    t.floor step ≤ later.floor step
  ceil_mono : ∀ later : Timestamp, later.CeilFits step → t ≤ later →
    t.ceil step ≤ later.ceil step
  /-- The three times may be given in three units. -/
  floor_nested : ∀ resolution : Duration, resolution.RatioFits step →
    resolution.isMultipleOf step = true → t.FloorFits resolution →
    (t.floor step).FloorFits resolution →
    ((t.floor step).floor resolution).nanos = (t.floor resolution).nanos
  ceil_nested : ∀ resolution : Duration, resolution.RatioFits step →
    resolution.isMultipleOf step = true → t.CeilFits resolution →
    (t.ceil step).CeilFits resolution →
    ((t.ceil step).ceil resolution).nanos = (t.ceil resolution).nanos

/-- Rounding is exact for every instant, before the epoch too, and every step of some length, as
long as both can be counted in the finer of their units and so can the rounded instants. -/
theorem rounds_exactly (hpos : 0 < step.nanos) (hfloor : t.FloorFits step)
    (hceil : t.CeilFits step) : t.Rounds step where
  floor_greatest := by
    rw [nanos_floor hpos hfloor]
    exact isGreatest_floorTo hpos
  ceil_least := by
    rw [nanos_ceil hpos hceil]
    exact isLeast_ceilTo hpos
  floor_le := by
    rw [le_iff, nanos_floor hpos hfloor]
    exact floorTo_le hpos
  le_ceil := by
    rw [le_iff, nanos_ceil hpos hceil]
    exact le_ceilTo hpos
  apart := by
    rw [nanos_ceil hpos hceil, nanos_floor hpos hfloor]
    exact ceilTo_sub_floorTo hpos
  floor_again := floor_floor hpos hfloor
  ceil_again := ceil_ceil hpos hceil
  floor_mono := by
    intro later hlater h
    rw [le_iff, nanos_floor hpos hfloor, nanos_floor hpos hlater]
    exact Telemetry.floorTo_mono hpos h
  ceil_mono := by
    intro later hlater h
    rw [le_iff, nanos_ceil hpos hceil, nanos_ceil hpos hlater]
    exact Telemetry.ceilTo_mono hpos h
  floor_nested := by
    intro resolution hratio hmultiple ht hrounded
    obtain ⟨-, hle, hdvd⟩ := (Duration.isMultipleOf_iff hratio).1 hmultiple
    have hres : 0 < resolution.nanos := hpos.trans_le hle
    rw [nanos_floor hres hrounded, nanos_floor hpos hfloor, nanos_floor hres ht,
      floorTo_floorTo hpos hres hdvd]
  ceil_nested := by
    intro resolution hratio hmultiple ht hrounded
    obtain ⟨-, hle, hdvd⟩ := (Duration.isMultipleOf_iff hratio).1 hmultiple
    have hres : 0 < resolution.nanos := hpos.trans_le hle
    rw [nanos_ceil hres hrounded, nanos_ceil hpos hceil, nanos_ceil hres ht,
      ceilTo_ceilTo hpos hres hdvd]

/-- One and a half seconds before the epoch, rounded to seconds and then to minutes. -/
theorem rounds_exactly_beforeEpoch :
    let t : Timestamp := .ofTicks (-1500) .milliseconds
    let step : Duration := .ofTicks 1 .seconds
    let minute : Duration := .ofTicks 1 .minutes
    0 < step.nanos ∧ t.FloorFits step ∧ t.CeilFits step ∧ t.Rounds step ∧
      ((t.floor step).floor minute).nanos = (t.floor minute).nanos ∧
      ((t.ceil step).ceil minute).nanos = (t.ceil minute).nanos := by
  intro t step minute
  have hpos : 0 < step.nanos := by decide
  have hfloor : t.FloorFits step := by decide
  have hceil : t.CeilFits step := by decide
  have h := rounds_exactly hpos hfloor hceil
  have hratio : minute.RatioFits step := by decide
  exact ⟨hpos, hfloor, hceil, h,
    h.floor_nested minute hratio (by decide) (by decide) (by decide),
    h.ceil_nested minute hratio (by decide) (by decide) (by decide)⟩

end Timestamp

end Telemetry
