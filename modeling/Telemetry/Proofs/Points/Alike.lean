import Telemetry.Proofs.Points.Overflow
import Telemetry.Proofs.Selection

/-!
# Rows that are read alike

In what order the readings of a row stand, and in which unit its instant is written, is no concern
of the stages that read it: they look readings up by their names and compare instants. Rows that
answer the same to both are alike, and points made from rows that are alike are the same points.
-/

namespace Telemetry

/-- Rows of one instant with the same reading under every name. -/
structure Row.Alike {α : Type} (a b : Row α) : Prop where
  nanos_eq : a.timestamp.nanos = b.timestamp.nanos
  get?_eq : ∀ name, a.get? name = b.get? name

section Alike

variable {a b : Row Value} {rows rows' : List (Row Value)}

/-! ## Rates -/

namespace Feed

variable {policy : CounterWrap} {tracked : List Tracked}

theorem Tracked.rate?_alike (h : a.Alike b) (policy : CounterWrap) (t : Tracked) :
    t.rate? policy a.readings = t.rate? policy b.readings :=
  congrArg (Option.map _) (h.get?_eq t.metric)

theorem Tracked.see_alike (h : a.Alike b) (t : Tracked) : t.see a.readings = t.see b.readings := by
  have hfind : a.readings.find? (·.name = t.metric) = b.readings.find? (·.name = t.metric) :=
    h.get?_eq t.metric
  rw [see, see, hfind]

theorem rateRow_alike (policy : CounterWrap) (h : a.Alike b)
    (hnodup : (tracked.map (·.metric)).Nodup) :
    (rateRow policy tracked a).1.Alike (rateRow policy tracked b).1 ∧
      (rateRow policy tracked a).2 = (rateRow policy tracked b).2 := by
  have hrates : tracked.filterMap (·.rate? policy a.readings) =
      tracked.filterMap (·.rate? policy b.readings) :=
    List.filterMap_congr fun t _ => t.rate?_alike h policy
  rw [rateRow_eq hnodup, rateRow_eq hnodup, hrates]
  refine ⟨⟨by simpa [Row.empty] using h.nanos_eq, fun name => ?_⟩,
    List.map_congr_left fun t _ => t.see_alike h⟩
  rw [Row.get?_insertAll_empty, Row.get?_insertAll_empty]

theorem extractOverflows_alike (h : a.Alike b) (hnodup : (tracked.map (·.metric)).Nodup) :
    extractOverflows tracked a.readings = extractOverflows tracked b.readings := by
  have hfind (name : String) : a.readings.find? (·.name = name) =
      b.readings.find? (·.name = name) := h.get?_eq name
  simp only [extractOverflows_eq hnodup a.nodup, extractOverflows_eq hnodup b.nodup, hfind]

/-- The induction runs over both lists of rows; what has been seen of the metrics stays the same. -/
theorem checkedRatesFrom_alike (policy : CounterWrap) (h : List.Forall₂ Row.Alike rows rows')
    (hnodup : (tracked.map (·.metric)).Nodup) :
    List.Forall₂ (Likewise Row.Alike) (checkedRatesFrom policy tracked (ofRows rows))
      (checkedRatesFrom policy tracked (ofRows rows')) := by
  induction h generalizing tracked with
  | nil => exact .nil
  | @cons row row' _ _ hrow _ ih =>
    rw [ofRows_cons, ofRows_cons, checkedRatesFrom, checkedRatesFrom,
      extractOverflows_alike hrow hnodup]
    split
    · exact .cons (.error _) .nil
    · obtain ⟨halike, htracked⟩ := rateRow_alike policy hrow hnodup
      have hnext : ((rateRow policy tracked row').2.map (·.metric)).Nodup := by
        simpa [rateRow_eq hnodup, Function.comp_def] using hnodup
      dsimp only
      rw [htracked]
      exact .cons (.ok halike) (ih hnext)

end Feed

/-! ## Points -/

theorem Row.Alike.matches (h : a.Alike b) : Row.Matches (· = ·) a b := by
  refine ⟨h.nanos_eq, ?_⟩
  rintro ds _ rfl
  rw [h.get?_eq]
  cases b.get? ds.source with
  | none => exact .none
  | some s => exact .some ⟨⟨.refl _, rfl⟩, rfl, rfl⟩

/-- Points made from rows that are alike are the same, and so is where a count overflows. -/
theorem Feed.checkedPoints_alike {input input' : Feed Value}
    (h : List.Forall₂ (Likewise Row.Alike) input input') (n : Nat) (d : Descriptor)
    (resource : String) (start finish : Timestamp) :
    checkedPoints n d resource start finish input =
      checkedPoints n d resource start finish input' := by
  refine Resampling.run_attempt?_eq (D := (· = ·)) n ⟨rfl, ?_, .nil, h.imp ?_⟩ rfl
  · refine List.forall₂_map_right_iff.2 (List.forall₂_map_left_iff.2 (List.forall₂_same.2 ?_))
    exact fun ds _ => ⟨rfl, ⟨rfl, rfl, rfl⟩, Coverage.matches_empty ds ds⟩
  · rintro _ _ (halike | e)
    · exact .ok halike.matches
    · exact .error e

end Alike

end Telemetry
