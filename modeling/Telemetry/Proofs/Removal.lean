import Mathlib.Data.List.Perm.Basic
import Telemetry.Feed.Exported
import Telemetry.Feed.Rates
import Telemetry.Proofs.Row

/-!
# Readings taken out of a row

A reading that is taken out of a row leaves a gap, and the last reading moves into it. Only the
order of the readings that are left tells this from closing the gap, and no two of them have the
same name. So nobody who looks them up by name sees the difference: `extractInOrder` and
`takeInOrder` close the gap, and rows come out the same.
-/

namespace Telemetry

section SwapRemove

variable {α : Type} {p : α → Bool} {l : List α}

theorem Feed.swapRemove_of_forall_not (h : ∀ a ∈ l, ¬ p a = true) : swapRemove p l = l := by
  have hnone : l.findIdx? p = none := by
    rw [List.findIdx?_eq_none_iff]
    exact fun a ha => Bool.eq_false_iff.2 (h a ha)
  rw [swapRemove, hnone]

theorem Feed.swapRemove_append {before behind : List α} {a : α} (h : ∀ b ∈ before, ¬ p b = true)
    (ha : p a = true) : (swapRemove p (before ++ a :: behind)).Perm (before ++ behind) := by
  have hfind : (before ++ a :: behind).findIdx? p = some before.length := by
    rw [List.findIdx?_append, List.findIdx?_eq_none_iff.2 fun b hb => Bool.eq_false_iff.2 (h b hb),
      Option.none_or, List.findIdx?_cons, if_pos ha]
    simp
  rcases List.eq_nil_or_concat behind with rfl | ⟨init, last, rfl⟩
  · simp [swapRemove, hfind]
  · rw [List.concat_eq_append] at hfind ⊢
    have hlast : (before ++ a :: (init ++ [last])).getLast? = some last := by
      rw [← List.cons_append, ← List.append_assoc, List.getLast?_concat]
    have hset : ((before ++ a :: (init ++ [last])).set before.length last).dropLast =
        before ++ last :: init := by
      rw [List.set_append_right _ _ le_rfl, Nat.sub_self, List.set_cons_zero, ← List.cons_append,
        ← List.append_assoc, List.dropLast_concat]
    rw [swapRemove, hfind, hlast]
    dsimp only
    rw [hset]
    exact (List.perm_append_singleton last init).symm.append_left before

theorem Feed.swapRemove_perm (p : α → Bool) (l : List α) : (swapRemove p l).Perm (l.eraseP p) := by
  by_cases h : ∃ a ∈ l, p a = true
  · obtain ⟨a, ha, hpa⟩ := h
    obtain ⟨b, before, behind, hbefore, hb, rfl, herase⟩ := List.exists_of_eraseP ha hpa
    rw [herase]
    exact swapRemove_append hbefore hb
  · have hnot : ∀ a ∈ l, ¬ p a = true := fun a ha hpa => h ⟨a, ha, hpa⟩
    rw [swapRemove_of_forall_not hnot, List.eraseP_of_forall_not hnot]

end SwapRemove

/-- Look-ups by name do not depend on the order of readings with different names. -/
theorem Row.find?_perm {α : Type} {l l' : List (Reading α)} (hperm : l.Perm l')
    (h : (l.map (·.name)).Nodup) (name : String) :
    l.find? (·.name = name) = l'.find? (·.name = name) := by
  have hfilter : (l.filter (·.name = name)).Perm (l'.filter (·.name = name)) := hperm.filter _
  have h' : (l'.map (·.name)).Nodup := (hperm.map _).nodup_iff.1 h
  rw [filter_name h, filter_name h'] at hfilter
  cases hl : l.find? (·.name = name) <;> cases hl' : l'.find? (·.name = name) <;>
    simp_all

section Nodup

variable {α : Type} {l l' : List (Reading α)}

theorem Row.swapRemove_perm (hperm : l.Perm l') (h : (l.map (·.name)).Nodup) (name : String) :
    (Feed.swapRemove (·.name = name) l).Perm (l'.eraseP (·.name = name)) := by
  refine (Feed.swapRemove_perm _ l).trans (hperm.eraseP _ ?_)
  refine (List.pairwise_map.1 h).imp fun hne ha hb => hne ?_
  rw [of_decide_eq_true ha, of_decide_eq_true hb]

theorem Row.nodup_swapRemove (h : (l.map (·.name)).Nodup) (name : String) :
    ((Feed.swapRemove (·.name = name) l).map (·.name)).Nodup := by
  refine ((Feed.swapRemove_perm _ l).map _).nodup_iff.2 ?_
  exact h.sublist (List.eraseP_sublist.map _)

end Nodup

namespace Feed

/-- `extract`, if the gap is closed. -/
def extractInOrder (policy : CounterWrap) :
    List Tracked → List Sample → List Sample × List Tracked
  | [], _ => ([], [])
  | t :: rest, samples =>
    match samples.find? (·.name = t.metric) with
    | none =>
      let (out, tracked) := extractInOrder policy rest samples
      (out, t :: tracked)
    | some s =>
      let (out, tracked) := extractInOrder policy rest (samples.eraseP (·.name = t.metric))
      (rated policy s t.last :: out, { t with last := some ⟨s.timestamp, s.value⟩ } :: tracked)

/-- `takeLabels`, if the gap is closed. -/
def takeInOrder (timestamp : Timestamp) (resource : String) :
    List String → List Measurement → List Measurement
  | [], _ => []
  | label :: rest, ms =>
    (ms.find? (·.name = label)).getD (.unknown timestamp resource label)
      :: takeInOrder timestamp resource rest (ms.eraseP (·.name = label))

/-- The induction runs over the metrics; what is left of the samples differs in its order. -/
theorem extract_perm (policy : CounterWrap) (tracked : List Tracked)
    {samples samples' : List Sample} (hperm : samples.Perm samples')
    (h : (samples.map (·.name)).Nodup) :
    extract policy tracked samples = extractInOrder policy tracked samples' := by
  induction tracked generalizing samples samples' with
  | nil => rfl
  | cons t rest ih =>
    have hleft := ih (Row.swapRemove_perm hperm h t.metric) (Row.nodup_swapRemove h t.metric)
    have hfind := Row.find?_perm hperm h t.metric
    cases hs : samples'.find? (·.name = t.metric) with
    | none => simp only [extract, extractInOrder, hfind, hs, ih hperm h]
    | some s => simp only [extract, extractInOrder, hfind, hs, hleft]

theorem takeLabels_perm (timestamp : Timestamp) (resource : String) (labels : List String)
    {ms ms' : List Measurement} (hperm : ms.Perm ms') (h : (ms.map (·.name)).Nodup) :
    takeLabels timestamp resource labels ms = takeInOrder timestamp resource labels ms' := by
  induction labels generalizing ms ms' with
  | nil => rfl
  | cons label rest ih =>
    have hleft := ih (Row.swapRemove_perm hperm h label) (Row.nodup_swapRemove h label)
    rw [takeLabels, takeInOrder, Row.find?_perm hperm h, hleft]

theorem rateRow_eq_inOrder (policy : CounterWrap) (tracked : List Tracked) (row : Row Value) :
    rateRow policy tracked row =
      ((Row.empty row.timestamp row.resource).insertAll
        (extractInOrder policy tracked row.readings).1,
        (extractInOrder policy tracked row.readings).2) := by
  rw [rateRow, extract_perm policy tracked (.refl _) row.nodup]

theorem exportRow_eq_inOrder (labels : List String) (row : Row Float) :
    exportRow labels row = (Row.empty row.timestamp row.resource).insertAll
      (takeInOrder row.timestamp row.resource labels row.readings) := by
  rw [exportRow, takeLabels_perm row.timestamp row.resource labels (.refl _) row.nodup]

end Feed

end Telemetry
