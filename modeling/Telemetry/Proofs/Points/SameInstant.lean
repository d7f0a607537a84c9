import Telemetry.Proofs.Contents
import Telemetry.Proofs.Points.Local

/-!
# Points at one instant

The points of two walks that come by one instant may carry it in different units. Buckets are
measured by instants and by whole milliseconds, so that such points show the same.
-/

namespace Telemetry

/-- Two timestamps of one instant, and of one count of milliseconds. -/
def Timestamp.Same (a b : Timestamp) : Prop :=
  a.nanos = b.nanos ∧ a.millis = b.millis

theorem Timestamp.same_of_fits {a b : Timestamp} (h : a.nanos = b.nanos)
    (ha : Fits a.nanos .milliseconds) : a.Same b := by
  refine ⟨h, ?_⟩
  rw [millis_eq_tdiv ha, millis_eq_tdiv (h ▸ ha), h]

section Same

variable {floor floor' ceiling ceiling' : Timestamp} {rows : List (Row Value)}

@[refl] theorem Timestamp.Same.refl (t : Timestamp) : t.Same t := ⟨rfl, rfl⟩

theorem Timestamp.Same.le_iff {a a' b b' : Timestamp} (ha : a.Same a') (hb : b.Same b') :
    a ≤ b ↔ a' ≤ b' := by
  rw [Timestamp.le_iff, Timestamp.le_iff, ha.1, hb.1]

theorem Timestamp.Same.lt_iff {a a' b b' : Timestamp} (ha : a.Same a') (hb : b.Same b') :
    a < b ↔ a' < b' := by
  rw [Timestamp.lt_iff, Timestamp.lt_iff, ha.1, hb.1]

theorem Timestamp.Same.millisSince {a a' b b' : Timestamp} (ha : a.Same a') (hb : b.Same b') :
    a.millisSince b = a'.millisSince b' := by
  rw [Timestamp.millisSince, Timestamp.millisSince, ha.2, hb.2]

theorem Timestamp.Same.later {a a' b b' : Timestamp} (ha : a.Same a') (hb : b.Same b') :
    (a.later b).Same (a'.later b') := by
  unfold Timestamp.later
  by_cases hlt : b < a
  · rwa [if_pos hlt, if_pos ((hb.lt_iff ha).1 hlt)]
  · rwa [if_neg hlt, if_neg (mt (hb.lt_iff ha).2 hlt)]

theorem Coverage.advance_same (h : floor.Same floor') (c : Coverage) (heartbeat : Duration)
    (s : Sample) : c.advance floor heartbeat s = c.advance floor' heartbeat s := by
  unfold advance
  cases c.last with
  | none => rfl
  | some last =>
    obtain ⟨hnanos, hmillis⟩ := (Timestamp.Same.refl last).later h
    simp only [Timestamp.lt_iff, Timestamp.millisSince, hnanos, hmillis, h.1]

theorem Track.absorb_same (h : floor.Same floor') (t : Track) (rows : List (Row Value)) :
    t.absorb floor rows = t.absorb floor' rows := by
  induction rows generalizing t with
  | nil => rfl
  | cons row rest ih =>
    have hadvance : t.advance floor row = t.advance floor' row := by
      unfold advance
      cases row.get? t.datasource.source with
      | none => rfl
      | some s => simp only [Coverage.advance_same h]
    rw [absorb_cons, absorb_cons, hadvance, ih]

theorem Track.complete_same (hf : floor.Same floor') (hc : ceiling.Same ceiling') (t : Track) :
    t.complete floor ceiling rows = t.complete floor' ceiling' rows := by
  unfold complete
  cases t.coverage.last with
  | none => rfl
  | some last =>
    have hmillis := ((Timestamp.Same.refl last).later hf).2
    simp only [Timestamp.le_iff, hc.1, Resampling.carry, Timestamp.millisSince, hc.2, hmillis]

theorem Row.upTo_same {α : Type} {c c' : Timestamp} (h : c.nanos = c'.nanos)
    (rows : List (Row α)) : upTo c rows = upTo c' rows := by
  simp only [upTo, Timestamp.le_iff, h]

theorem Row.after_same {α : Type} {c c' : Timestamp} (h : c.nanos = c'.nanos)
    (rows : List (Row α)) : after c rows = after c' rows := by
  simp only [after, Timestamp.le_iff, h]

theorem Track.close_same (hf : floor.Same floor') (hc : ceiling.Same ceiling') (t : Track)
    (rows : List (Row Value)) : t.close floor ceiling rows = t.close floor' ceiling' rows := by
  rw [close, close, Row.upTo_same hc.1, Row.after_same hc.1, absorb_same hf, complete_same hf hc]

/-- The points of two walks at one instant show the same. -/
theorem Descriptor.pointAt_same (d : Descriptor) {c c' : Timestamp} (hc : c.Same c')
    (hf : (c - d.step).Same (c' - d.step)) (resource resource' : String)
    (rows : List (Row Value)) :
    (d.pointAt resource rows c).contents = (d.pointAt resource' rows c').contents := by
  refine Row.insertAll_content rfl ?_
  rw [List.map_map, List.map_map, List.map_map, List.map_map]
  apply List.map_congr_left
  intro t _
  simp only [Function.comp_apply, Reading.content, Track.measurement, Track.close_same hf hc]

end Same

end Telemetry
