import Mathlib.Tactic.Push
import Telemetry.Proofs.Time.Elapsed

/-!
# Arithmetic on instants and spans

Where neither the conversions to the finer unit nor the result leave the range of a count, each
operation does to `nanos` what it stands for. Two facts follow for any units: what one operation
does another one undoes, and operands that stand for the same instants and spans are as good as each
other. Comparison needs no such condition, for it looks at `nanos` alone.
-/

namespace Telemetry

/-! ## Spans -/

namespace Duration

variable {a b : Duration}

theorem le_iff : a ≤ b ↔ a.nanos ≤ b.nanos := Iff.rfl

theorem lt_iff : a < b ↔ a.nanos < b.nanos := Iff.rfl

theorem nanos_ofTicks {n : Int} {u : TimeUnit} (hpos : 0 ≤ n * u.nanos)
    (h : Fits (n * u.nanos) u) : (ofTicks n u).nanos = n * u.nanos := by
  have hu := u.nanos_pos
  have hmax := le_of_mul_le_mul_right h.2 hu
  have hmin : 0 ≤ n := nonneg_of_mul_nonneg_left hpos hu
  simp only [nanos, ofTicks]
  rw [min_eq_left hmax, max_eq_right hmin]

/-- Both spans and their sum can be counted in the finer of their units. -/
def AddFits (a b : Duration) : Prop :=
  RatioFits a b ∧ Fits (a.nanos + b.nanos) (a.commonUnit b)

instance (a b : Duration) : Decidable (a.AddFits b) :=
  inferInstanceAs (Decidable (_ ∧ _))

section Common

/-! In the finer unit both spans are counted exactly. -/

variable (h : a.RatioFits b)
include h

theorem RatioFits.left :
    a.ticksIn (a.commonUnit b) * (a.commonUnit b).nanos = a.nanos :=
  ticksIn_mul_nanos (TimeUnit.nanos_finest_le_left _ _) h.1

theorem RatioFits.right :
    b.ticksIn (a.commonUnit b) * (a.commonUnit b).nanos = b.nanos :=
  ticksIn_mul_nanos (TimeUnit.nanos_finest_le_right _ _) h.2

theorem RatioFits.sub_nonneg_iff :
    0 ≤ a.ticksIn (a.commonUnit b) - b.ticksIn (a.commonUnit b) ↔ b ≤ a := by
  rw [sub_nonneg, le_iff, ← h.left, ← h.right,
    mul_le_mul_iff_left₀ (a.commonUnit b).nanos_pos]

end Common

theorem nanos_add (h : a.AddFits b) : (a + b).nanos = a.nanos + b.nanos := by
  obtain ⟨hboth, hsum⟩ := h
  have hpos : 0 ≤ a.nanos + b.nanos := add_nonneg a.nanos_nonneg b.nanos_nonneg
  rw [← hboth.left, ← hboth.right, ← add_mul] at hsum hpos ⊢
  exact nanos_ofTicks hpos hsum

theorem sub?_eq_none_iff (h : a.RatioFits b) : a.sub? b = none ↔ a < b := by
  simp only [sub?, h.sub_nonneg_iff, ite_eq_right_iff, reduceCtorEq, imp_false]
  exact Int.not_le

theorem nanos_sub? (h : a.RatioFits b) (hle : b ≤ a) :
    ∃ rest, a.sub? b = some rest ∧ rest.nanos = a.nanos - b.nanos ∧
      rest.unit = a.commonUnit b := by
  refine ⟨_, if_pos (h.sub_nonneg_iff.2 hle), ?_, rfl⟩
  have hpos : 0 ≤ a.nanos - b.nanos := sub_nonneg.2 hle
  have hfits : Fits (a.nanos - b.nanos) (a.commonUnit b) := by
    have hmax := h.1.2
    have hmin : minTicks * (a.commonUnit b).nanos ≤ 0 :=
      mul_nonpos_of_nonpos_of_nonneg (by decide) (a.commonUnit b).nanos_pos.le
    have hb := b.nanos_nonneg
    exact ⟨by omega, by omega⟩
  rw [← h.left, ← h.right, ← sub_mul] at hpos hfits ⊢
  exact nanos_ofTicks hpos hfits

/-- Put behind the shorter span, the difference makes up the longer one. -/
theorem nanos_add_sub? (h : a.RatioFits b) (hle : b ≤ a) :
    ∃ rest, a.sub? b = some rest ∧ rest.nanos = a.nanos - b.nanos ∧
      (b + rest).nanos = a.nanos := by
  obtain ⟨rest, hrest, hnanos, hunit⟩ := nanos_sub? h hle
  have hcommon : b.commonUnit rest = a.commonUnit b := by
    rw [commonUnit, hunit, commonUnit, TimeUnit.finest_comm, TimeUnit.finest_finest]
  have hsum : b.nanos + rest.nanos = a.nanos := by omega
  have hfits : b.AddFits rest := by
    have hb := b.nanos_nonneg
    have hr := rest.nanos_nonneg
    have hmin : minTicks * (a.commonUnit b).nanos ≤ 0 :=
      mul_nonpos_of_nonpos_of_nonneg (by decide) (a.commonUnit b).nanos_pos.le
    have hmax := h.1.2
    rw [AddFits, RatioFits, hcommon, hsum]
    exact ⟨⟨h.2, by omega, by omega⟩, h.1⟩
  exact ⟨rest, hrest, hnanos, (nanos_add hfits).trans hsum⟩

theorem isMultipleOf_iff_exists (h : a.RatioFits b) :
    a.isMultipleOf b = true ↔ 0 < b.nanos ∧ ∃ k : Int, 1 ≤ k ∧ a.nanos = k * b.nanos := by
  rw [isMultipleOf_iff h]
  refine and_congr_right fun hpos => ⟨?_, ?_⟩
  · rintro ⟨hle, k, hk⟩
    refine ⟨k, ?_, by rw [hk, mul_comm]⟩
    by_contra! hlt
    nlinarith
  · rintro ⟨k, hk, heq⟩
    exact ⟨by nlinarith, k, by rw [heq, mul_comm]⟩

end Duration

/-! ## Instants -/

namespace Timestamp

variable {t u : Timestamp} {a : Duration}

/-- What a span moves an instant by, it moves it back by. -/
theorem nanos_add_sub (h : t.AddFits a) : (t + a - a).nanos = t.nanos := by
  have hsum := nanos_add h
  obtain ⟨ht, ha, hta⟩ := h
  have hback : (t + a).nanos - a.nanos = t.nanos := by omega
  have hunit : (t + a).unit.finest a.unit = t.unit.finest a.unit := TimeUnit.finest_finest _ _
  have hfits : (t + a).SubFits a := by
    rw [SubFits, hunit, hback, hsum]
    exact ⟨hta, ha, ht⟩
  exact (nanos_sub hfits).trans hback

theorem nanos_sub_add (h : t.SubFits a) : (t - a + a).nanos = t.nanos := by
  have hdiff := nanos_sub h
  obtain ⟨ht, ha, hta⟩ := h
  have hback : (t - a).nanos + a.nanos = t.nanos := by omega
  have hunit : (t - a).unit.finest a.unit = t.unit.finest a.unit := TimeUnit.finest_finest _ _
  have hfits : (t - a).AddFits a := by
    rw [AddFits, hunit, hback, hdiff]
    exact ⟨hta, ha, ht⟩
  exact (nanos_add hfits).trans hback

theorem since?_eq_none_iff : t.since? u = none ↔ t < u := by
  simp [since?]

/-- The span since an earlier instant leads from there to the later one. -/
theorem nanos_add_since? (h : t.SinceFits u) (hle : u ≤ t) :
    ∃ span, t.since? u = some span ∧ span.nanos = t.nanos - u.nanos ∧
      (u + span).nanos = t.nanos := by
  obtain ⟨span, hspan, hnanos, hunit⟩ := nanos_since? hle h
  have hsum : u.nanos + span.nanos = t.nanos := by omega
  have hfinest : u.unit.finest span.unit = t.unit.finest u.unit := by
    rw [hunit, TimeUnit.finest_comm, TimeUnit.finest_finest]
  have hfits : u.AddFits span := by
    rw [AddFits, hfinest, hsum, hnanos]
    exact ⟨h.2.1, h.2.2, h.1⟩
  exact ⟨span, hspan, hnanos, (nanos_add hfits).trans hsum⟩

end Timestamp

/-! ## All operations -/

/-- What arithmetic on instants and spans comes to, each operation within its range. -/
structure ArithmeticExact (t u : Timestamp) (a b : Duration) : Prop where
  add : t.AddFits a → (t + a).nanos = t.nanos + a.nanos ∧ (t + a - a).nanos = t.nanos
  sub : t.SubFits a → (t - a).nanos = t.nanos - a.nanos ∧ (t - a + a).nanos = t.nanos
  since_none : t.since? u = none ↔ t < u
  since_some : t.SinceFits u → u ≤ t → ∃ span, t.since? u = some span ∧
    span.nanos = t.nanos - u.nanos ∧ (u + span).nanos = t.nanos
  rest_none : a.RatioFits b → (a.sub? b = none ↔ a < b)
  rest_some : a.RatioFits b → b ≤ a → ∃ rest, a.sub? b = some rest ∧
    rest.nanos = a.nanos - b.nanos ∧ (b + rest).nanos = a.nanos
  multiple : a.RatioFits b →
    (a.isMultipleOf b = true ↔ 0 < b.nanos ∧ ∃ k : Int, 1 ≤ k ∧ a.nanos = k * b.nanos)

/-- Two quadruples of operands, on which every operation comes to the same. -/
structure ArithmeticAlike (t u : Timestamp) (a b : Duration) (t' u' : Timestamp)
    (a' b' : Duration) : Prop where
  add : t.AddFits a → t'.AddFits a' → (t + a).nanos = (t' + a').nanos
  sub : t.SubFits a → t'.SubFits a' → (t - a).nanos = (t' - a').nanos
  since : t.SinceFits u → t'.SinceFits u' →
    (t.since? u).map (·.nanos) = (t'.since? u').map (·.nanos)
  sum : a.AddFits b → a'.AddFits b' → (a + b).nanos = (a' + b').nanos
  rest : a.RatioFits b → a'.RatioFits b' →
    (a.sub? b).map (·.nanos) = (a'.sub? b').map (·.nanos)
  multiple : a.RatioFits b → a'.RatioFits b' → a.isMultipleOf b = a'.isMultipleOf b'
  compare_instants : compare t u = compare t' u'
  compare_spans : compare a b = compare a' b'

section Alike

variable {t u t' u' : Timestamp} {a b a' b' : Duration}

theorem Timestamp.since?_alike (ht : t.nanos = t'.nanos) (hu : u.nanos = u'.nanos)
    (h : t.SinceFits u) (h' : t'.SinceFits u') :
    (t.since? u).map (·.nanos) = (t'.since? u').map (·.nanos) := by
  by_cases hlt : t < u
  · have hlt' : t' < u' := by rwa [lt_iff, ← ht, ← hu]
    rw [since?_eq_none_iff.2 hlt, since?_eq_none_iff.2 hlt']
  · have hle : u ≤ t := Int.not_lt.1 hlt
    have hle' : u' ≤ t' := by rwa [le_iff, ← ht, ← hu]
    obtain ⟨span, hspan, hnanos, -⟩ := nanos_since? hle h
    obtain ⟨span', hspan', hnanos', -⟩ := nanos_since? hle' h'
    rw [hspan, hspan', Option.map_some, Option.map_some, hnanos, hnanos', ht, hu]

theorem Duration.sub?_alike (ha : a.nanos = a'.nanos) (hb : b.nanos = b'.nanos)
    (h : a.RatioFits b) (h' : a'.RatioFits b') :
    (a.sub? b).map (·.nanos) = (a'.sub? b').map (·.nanos) := by
  by_cases hlt : a < b
  · have hlt' : a' < b' := by rwa [lt_iff, ← ha, ← hb]
    rw [(sub?_eq_none_iff h).2 hlt, (sub?_eq_none_iff h').2 hlt']
  · have hle : b ≤ a := Int.not_lt.1 hlt
    have hle' : b' ≤ a' := by rwa [le_iff, ← ha, ← hb]
    obtain ⟨rest, hrest, hnanos, -⟩ := nanos_sub? h hle
    obtain ⟨rest', hrest', hnanos', -⟩ := nanos_sub? h' hle'
    rw [hrest, hrest', Option.map_some, Option.map_some, hnanos, hnanos', ha, hb]

theorem arithmeticAlike_of_nanos (ht : t.nanos = t'.nanos) (hu : u.nanos = u'.nanos)
    (ha : a.nanos = a'.nanos) (hb : b.nanos = b'.nanos) :
    ArithmeticAlike t u a b t' u' a' b' where
  add h h' := by rw [Timestamp.nanos_add h, Timestamp.nanos_add h', ht, ha]
  sub h h' := by rw [Timestamp.nanos_sub h, Timestamp.nanos_sub h', ht, ha]
  since := Timestamp.since?_alike ht hu
  sum h h' := by rw [Duration.nanos_add h, Duration.nanos_add h', ha, hb]
  rest := Duration.sub?_alike ha hb
  multiple h h' := by
    rw [Bool.eq_iff_iff, Duration.isMultipleOf_iff h, Duration.isMultipleOf_iff h', ha, hb]
  compare_instants := by
    show compare t.nanos u.nanos = compare t'.nanos u'.nanos
    rw [ht, hu]
  compare_spans := by
    show compare a.nanos b.nanos = compare a'.nanos b'.nanos
    rw [ha, hb]

end Alike

instance : Std.TransOrd Timestamp :=
  inferInstanceAs (Std.TransCmp (compareOn Timestamp.nanos))

instance : Std.TransOrd Duration :=
  inferInstanceAs (Std.TransCmp (compareOn Duration.nanos))

/-- Arithmetic is exact on instants and spans. So operands in other units that stand for the same
give the same results, and the same is meant by the order, which is total: two instants, or two
spans, are equal in it just if they are equally many nanoseconds. -/
theorem arithmetic_exact (t u : Timestamp) (a b : Duration) :
    ArithmeticExact t u a b ∧
      (∀ t' u' a' b', t.nanos = t'.nanos → u.nanos = u'.nanos → a.nanos = a'.nanos →
        b.nanos = b'.nanos → ArithmeticAlike t u a b t' u' a' b') ∧
      (compare t u = .eq ↔ t.nanos = u.nanos) ∧ (compare t u = .lt ↔ t < u) ∧
      (compare a b = .eq ↔ a.nanos = b.nanos) ∧ (compare a b = .lt ↔ a < b) ∧
      Std.TransOrd Timestamp ∧ Std.TransOrd Duration := by
  have hexact : ArithmeticExact t u a b :=
    { add := fun h => ⟨Timestamp.nanos_add h, Timestamp.nanos_add_sub h⟩
      sub := fun h => ⟨Timestamp.nanos_sub h, Timestamp.nanos_sub_add h⟩
      since_none := Timestamp.since?_eq_none_iff
      since_some := Timestamp.nanos_add_since?
      rest_none := Duration.sub?_eq_none_iff
      rest_some := Duration.nanos_add_sub?
      multiple := Duration.isMultipleOf_iff_exists }
  have hcompare (m n : Int) : (compare m n = .eq ↔ m = n) ∧ (compare m n = .lt ↔ m < n) :=
    ⟨compare_eq_iff_eq, compare_lt_iff_lt⟩
  exact ⟨hexact, fun t' u' a' b' => arithmeticAlike_of_nanos,
    (hcompare t.nanos u.nanos).1, (hcompare t.nanos u.nanos).2,
    (hcompare a.nanos b.nanos).1, (hcompare a.nanos b.nanos).2, inferInstance, inferInstance⟩

/-- A quarter of a second before the epoch and one second after it, and spans of two minutes and of
half a second, each in two units. -/
theorem arithmetic_exact_mixedUnits :
    let t : Timestamp := .ofTicks 1 .seconds
    let u : Timestamp := .ofTicks (-250) .milliseconds
    let a : Duration := .ofTicks 2 .minutes
    let b : Duration := .ofTicks 500000 .microseconds
    let t' : Timestamp := .ofTicks 1000 .milliseconds
    let a' : Duration := .ofTicks 120 .seconds
    t.AddFits a ∧ t'.AddFits a' ∧ t.SubFits a ∧ t.SinceFits u ∧ u ≤ t ∧ a.RatioFits b ∧ b ≤ a ∧
      t.nanos = t'.nanos ∧ a.nanos = a'.nanos ∧
      (t + a).nanos = (t' + a').nanos ∧ (t - a + a).nanos = t.nanos ∧
      (∃ span, t.since? u = some span ∧ span.nanos = 1250000000 ∧ (u + span).nanos = t.nanos) ∧
      (∃ rest, a.sub? b = some rest ∧ rest.nanos = 119500000000 ∧ (b + rest).nanos = a.nanos) ∧
      a.isMultipleOf b = true := by
  intro t u a b t' a'
  have hadd : t.AddFits a := by decide
  have hadd' : t'.AddFits a' := by decide
  have hsub : t.SubFits a := by decide
  have hsince : t.SinceFits u := by decide
  have hle : u ≤ t := by decide
  have hratio : a.RatioFits b := by decide
  have hshort : b ≤ a := by decide
  have ht : t.nanos = t'.nanos := by decide
  have ha : a.nanos = a'.nanos := by decide
  obtain ⟨hexact, halike, -⟩ := arithmetic_exact t u a b
  exact ⟨hadd, hadd', hsub, hsince, hle, hratio, hshort, ht, ha,
    (halike t' u a' b ht rfl ha rfl).add hadd hadd', (hexact.sub hsub).2,
    hexact.since_some hsince hle, hexact.rest_some hratio hshort,
    (hexact.multiple hratio).2 ⟨by decide, 240, by decide, by decide⟩⟩

end Telemetry
