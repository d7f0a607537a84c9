import Telemetry.Proofs.Time.Range

/-!
# Elapsed time

The span between two instants is counted in the finer of their units. Where both instants and their
distance can be counted in it, `SinceFits`, the span is as long as they are apart.
-/

namespace Telemetry.Timestamp

/-- Both instants, and the time from the one to the other, can be counted in the finer unit. -/
def SinceFits (t earlier : Timestamp) : Prop :=
  let u := t.unit.finest earlier.unit
  Fits t.nanos u ∧ Fits earlier.nanos u ∧ Fits (t.nanos - earlier.nanos) u

instance (t earlier : Timestamp) : Decidable (t.SinceFits earlier) :=
  inferInstanceAs (Decidable (_ ∧ _ ∧ _))

/-- In a unit that is not coarser, the count of an instant depends on the instant alone. -/
theorem ticksIn_eq_clampTicks {t : Timestamp} {u : TimeUnit} (hle : u.nanos ≤ t.unit.nanos) :
    t.ticksIn u = clampTicks (t.nanos / u.nanos) := by
  rw [ticksIn, TimeUnit.convert, if_pos hle, nanos, Int.mul_ediv_assoc _ (TimeUnit.nanos_dvd hle)]

variable {t earlier : Timestamp}

theorem since?_of_le (h : earlier ≤ t) :
    t.since? earlier = some (.ofTicks (t.ticksIn (t.unit.finest earlier.unit) -
      earlier.ticksIn (t.unit.finest earlier.unit)) (t.unit.finest earlier.unit)) :=
  if_neg (Int.not_lt.2 h)

/-- Between instants that do not follow each other no time goes by. -/
theorem isZero_since? (h : ¬ earlier < t) {span : Duration} (hspan : t.since? earlier = some span) :
    span.isZero = true := by
  unfold since? at hspan
  split at hspan
  · cases hspan
  rename_i hle
  cases hspan
  have heq : t.nanos = earlier.nanos := by
    rw [lt_iff] at h hle
    omega
  have hsame : t.ticksIn (t.unit.finest earlier.unit) =
      earlier.ticksIn (t.unit.finest earlier.unit) := by
    rw [ticksIn_eq_clampTicks (TimeUnit.nanos_finest_le_left _ _),
      ticksIn_eq_clampTicks (TimeUnit.nanos_finest_le_right _ _), heq]
  simp [Duration.isZero, Duration.ofTicks, hsame, maxTicks]

theorem nanos_since? (h : earlier ≤ t) (hfits : t.SinceFits earlier) :
    ∃ span, t.since? earlier = some span ∧ span.nanos = t.nanos - earlier.nanos ∧
      span.unit = t.unit.finest earlier.unit := by
  refine ⟨_, since?_of_le h, ?_, rfl⟩
  obtain ⟨ht, hearlier, hdiff⟩ := hfits
  rw [le_iff] at h
  have hu := (t.unit.finest earlier.unit).nanos_pos
  have hn := ticksIn_mul_nanos (TimeUnit.nanos_finest_le_left _ _) ht
  have hm := ticksIn_mul_nanos (TimeUnit.nanos_finest_le_right _ _) hearlier
  rw [← hn, ← hm, ← sub_mul] at hdiff ⊢
  have hpos : 0 ≤ t.ticksIn (t.unit.finest earlier.unit) -
      earlier.ticksIn (t.unit.finest earlier.unit) := by
    rw [← hn, ← hm] at h
    nlinarith
  have hmax := le_of_mul_le_mul_right hdiff.2 hu
  simp only [Duration.nanos, Duration.ofTicks]
  rw [min_eq_left hmax, max_eq_right hpos]

theorem not_sinceOverflows (h : t.SinceFits earlier) : t.sinceOverflows earlier = false := by
  obtain ⟨ht, hearlier, hdiff⟩ := h
  have hn := ticksIn_mul_nanos (TimeUnit.nanos_finest_le_left _ _) ht
  have hm := ticksIn_mul_nanos (TimeUnit.nanos_finest_le_right _ _) hearlier
  rw [← hn, ← hm, ← sub_mul] at hdiff
  rw [sinceOverflows]
  exact Bool.and_eq_false_imp.2 fun _ => hdiff.not_overflows

/-- Between instants that do follow each other time goes by. -/
theorem isZero_eq_of_lt (h : earlier < t) {span : Duration}
    (hspan : span.nanos = t.nanos - earlier.nanos) : span.isZero = false := by
  rw [lt_iff] at h
  rw [← Bool.not_eq_true, Duration.isZero_iff]
  omega

end Telemetry.Timestamp
