import Telemetry.Proofs.Lattice.Spaced

/-!
# Walks over a range

Queries walk over a range that is widened to whole steps. Where rounding its ends and every step
stay within the range of a count, the walk meets the multiples of the step from the one end to the
other.
-/

namespace Telemetry

namespace Lattice

/-- The walk over a range, widened to whole steps. -/
def covering (start finish : Timestamp) (step : Duration) : Lattice :=
  .ascending (start.floor step) (finish.ceil step) step

/-- The walk begins with the start of the range, rounded down. -/
theorem toList_of_le {start finish : Timestamp} {step : Duration}
    (h : start.floor step ≤ finish.ceil step) :
    ∃ rest, (covering start finish step).toList = start.floor step :: rest := by
  have hcur : (covering start finish step).current = some (start.floor step) := if_pos h
  obtain ⟨k, hk⟩ : ∃ k, (covering start finish step).count = k + 1 := by
    rw [count, hcur]
    dsimp only
    split
    · exact ⟨0, rfl⟩
    · exact ⟨_, rfl⟩
  rw [toList, hk, take, next?_of_current hcur]
  exact ⟨_, rfl⟩

theorem toList_of_not_le {start finish : Timestamp} {step : Duration}
    (h : ¬ start.floor step ≤ finish.ceil step) : (covering start finish step).toList = [] := by
  have hcur : (covering start finish step).current = none := if_neg h
  rw [toList, count, hcur]
  rfl

end Lattice

/-- Rounding the ends of a range and walking from one to the other stay within range. -/
structure RangeFits (start finish : Timestamp) (step : Duration) : Prop where
  floor : start.FloorFits step
  ceil : finish.CeilFits step
  steps : ∀ t ∈ (Lattice.covering start finish step).toList, t.AddFits step

/-- The range is also walked through with each bucket measured from its beginning, one step before
its end, and in milliseconds. -/
structure WalkFits (start finish : Timestamp) (step : Duration) : Prop extends
    RangeFits start finish step where
  floors : ∀ t ∈ (Lattice.covering start finish step).toList, t.SubFits step
  millis : ∀ t ∈ (Lattice.covering start finish step).toList,
    Fits t.nanos .milliseconds ∧ Fits (t.nanos - step.nanos) .milliseconds

instance (start finish : Timestamp) (step : Duration) : Decidable (RangeFits start finish step) :=
  decidable_of_iff (start.FloorFits step ∧ finish.CeilFits step ∧
      ∀ t ∈ (Lattice.covering start finish step).toList, t.AddFits step)
    ⟨fun ⟨hfloor, hceil, hsteps⟩ => ⟨hfloor, hceil, hsteps⟩,
      fun ⟨hfloor, hceil, hsteps⟩ => ⟨hfloor, hceil, hsteps⟩⟩

instance (start finish : Timestamp) (step : Duration) : Decidable (WalkFits start finish step) :=
  decidable_of_iff (RangeFits start finish step ∧
      (∀ t ∈ (Lattice.covering start finish step).toList, t.SubFits step) ∧
      ∀ t ∈ (Lattice.covering start finish step).toList,
        Fits t.nanos .milliseconds ∧ Fits (t.nanos - step.nanos) .milliseconds)
    ⟨fun ⟨hrange, hfloors, hmillis⟩ => ⟨hrange, hfloors, hmillis⟩,
      fun ⟨hrange, hfloors, hmillis⟩ => ⟨hrange, hfloors, hmillis⟩⟩

namespace RangeFits

variable {start finish : Timestamp} {step : Duration}

theorem nanos_toList (h : RangeFits start finish step) (hd : 0 < step.nanos) :
    (Lattice.covering start finish step).toList.map (·.nanos) =
      spaced (floorTo start.nanos step.nanos) (ceilTo finish.nanos step.nanos) step.nanos := by
  rw [← Timestamp.nanos_floor hd h.floor, ← Timestamp.nanos_ceil hd h.ceil]
  by_cases hle : start.floor step ≤ finish.ceil step
  · have hcur : (Lattice.covering start finish step).current = some (start.floor step) :=
      if_pos hle
    refine Lattice.map_along_take hd hcur hle h.steps ?_
    rw [Lattice.count_of_current hd hcur]
    omega
  · rw [spaced_of_lt hd (not_le.1 hle), Lattice.toList_of_not_le hle]
    rfl

theorem count_eq (h : RangeFits start finish step) (hd : 0 < step.nanos) :
    (Lattice.covering start finish step).count =
      (spaced (floorTo start.nanos step.nanos) (ceilTo finish.nanos step.nanos)
        step.nanos).length := by
  rw [← Timestamp.nanos_floor hd h.floor, ← Timestamp.nanos_ceil hd h.ceil]
  by_cases hle : start.floor step ≤ finish.ceil step
  · have hcur : (Lattice.covering start finish step).current = some (start.floor step) :=
      if_pos hle
    have hspan : 0 ≤ ((finish.ceil step).nanos - (start.floor step).nanos) / step.nanos :=
      Int.ediv_nonneg (Int.sub_nonneg.2 hle) hd.le
    have hcount : (Lattice.covering start finish step).count =
        (((finish.ceil step).nanos - (start.floor step).nanos) / step.nanos).toNat + 1 :=
      Lattice.count_of_current hd hcur
    rw [hcount, length_spaced]
    omega
  · have hcur : (Lattice.covering start finish step).current = none := if_neg hle
    rw [spaced_of_lt hd (not_le.1 hle), Lattice.count, hcur]
    rfl

/-- The walk comes to its end with the last instant that is counted. -/
theorem pull?_count (h : RangeFits start finish step) (hd : 0 < step.nanos) :
    (Lattice.covering start finish step).pull? (Lattice.covering start finish step).count =
      none := by
  by_cases hle : start.floor step ≤ finish.ceil step
  · have hcur : (Lattice.covering start finish step).current = some (start.floor step) :=
      if_pos hle
    have hfits : ∀ i < (Lattice.covering start finish step).count, ∀ t,
        (Lattice.covering start finish step).pull? i = some t →
          (Lattice.covering start finish step).StepFits t := by
      intro i hi t ht
      refine h.steps t ?_
      rw [Lattice.toList, Lattice.take_eq]
      exact List.mem_filterMap.2 ⟨i, List.mem_range.2 hi, ht⟩
    have hpull := Lattice.along_pull? hd hcur hle hfits
    rw [Lattice.count_of_current hd hcur, if_neg (by omega), Option.map_eq_none_iff] at hpull
    rw [Lattice.count_of_current hd hcur]
    exact hpull
  · have hcur : (Lattice.covering start finish step).current = none := if_neg hle
    exact Lattice.pull?_eq_none_of_le ((Lattice.pull?_zero _).trans hcur) (Nat.zero_le _)

theorem floor_le_ceil (h : RangeFits start finish step) (hd : 0 < step.nanos)
    (hle : start ≤ finish) : start.floor step ≤ finish.ceil step := by
  have hfloor := floorTo_le (n := start.nanos) hd
  have hceil := le_ceilTo (n := finish.nanos) hd
  rw [Timestamp.le_iff] at hle ⊢
  rw [Timestamp.nanos_floor hd h.floor, Timestamp.nanos_ceil hd h.ceil]
  omega

theorem nanos_of_mem (h : RangeFits start finish step) (hd : 0 < step.nanos) {t : Timestamp}
    (ht : t ∈ (Lattice.covering start finish step).toList) :
    floorTo start.nanos step.nanos ≤ t.nanos ∧ t.nanos ≤ ceilTo finish.nanos step.nanos ∧
      step.nanos ∣ t.nanos := by
  have hmem := List.mem_map_of_mem (f := (·.nanos)) ht
  rw [h.nanos_toList hd, mem_spaced hd] at hmem
  exact ⟨hmem.1, hmem.2.1, (Int.dvd_iff_dvd_of_dvd_sub hmem.2.2).2 dvd_floorTo⟩

theorem isChain (h : RangeFits start finish step) (hd : 0 < step.nanos) :
    (Lattice.covering start finish step).toList.IsChain
      fun p c => c.nanos = p.nanos + step.nanos := by
  rw [← List.isChain_map (R := fun p c => c = p + step.nanos), h.nanos_toList hd]
  exact isChain_spaced _ _ _

theorem pairwise (h : RangeFits start finish step) (hd : 0 < step.nanos) :
    (Lattice.covering start finish step).toList.Pairwise (· < ·) := by
  have hlt := pairwise_spaced (a := floorTo start.nanos step.nanos)
    (b := ceilTo finish.nanos step.nanos) hd
  rw [← h.nanos_toList hd, List.pairwise_map] at hlt
  exact hlt

end RangeFits

end Telemetry
