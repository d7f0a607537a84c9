import Telemetry.Proofs.Rates

/-!
# Metrics that are listed more than once

The first entry of a metric takes its sample out of the row, so a later entry of the same metric
finds nothing, whatever the row holds. What was listed twice is rated once, and all that is known of
lists without repetitions is known of any list.
-/

namespace Telemetry.Feed

variable {policy : CounterWrap} {tracked : List Tracked} {samples : List Sample}

theorem name_ne_of_mem_eraseP {n : String} {s : Sample} (h : (samples.map (·.name)).Nodup)
    (hs : s ∈ samples.eraseP (·.name = n)) : s.name ≠ n := by
  induction samples with
  | nil => cases hs
  | cons first rest ih =>
    obtain ⟨hfirst, hrest⟩ := List.nodup_cons.1 h
    by_cases hname : first.name = n
    · rw [List.eraseP_cons_of_pos (by simpa using hname)] at hs
      intro heq
      exact hfirst (List.mem_map.2 ⟨s, hs, heq.trans hname.symm⟩)
    · rw [List.eraseP_cons_of_neg (by simpa using hname)] at hs
      rcases List.mem_cons.1 hs with rfl | hmem
      · exact hname
      · exact ih hrest hmem

section Cons

variable {t : Tracked} {rest : List Tracked} {s : Sample}

theorem extractInOrder_cons_of_none (h : samples.find? (·.name = t.metric) = none) :
    extractInOrder policy (t :: rest) samples =
      ((extractInOrder policy rest samples).1, t :: (extractInOrder policy rest samples).2) := by
  simp [extractInOrder, h]

theorem extractInOrder_cons_of_some (h : samples.find? (·.name = t.metric) = some s) :
    extractInOrder policy (t :: rest) samples =
      let left := extractInOrder policy rest (samples.eraseP (·.name = t.metric))
      (rated policy s t.last :: left.1,
        { t with last := some ⟨s.timestamp, s.value⟩ } :: left.2) := by
  simp [extractInOrder, h]

end Cons

/-- The entries of other metrics. -/
def others (metric : String) (tracked : List Tracked) : List Tracked :=
  tracked.filter fun t => ! t.metric = metric

theorem others_cons (metric : String) (t : Tracked) (rest : List Tracked) :
    others metric (t :: rest) =
      if t.metric = metric then others metric rest else t :: others metric rest := by
  by_cases h : t.metric = metric <;> simp [others, h]

/-- Entries of a metric that has no sample are passed over. -/
theorem extractInOrder_others {metric : String} (h : ∀ s ∈ samples, s.name ≠ metric) :
    extractInOrder policy (others metric tracked) samples =
      ((extractInOrder policy tracked samples).1,
        others metric (extractInOrder policy tracked samples).2) := by
  induction tracked generalizing samples with
  | nil => rfl
  | cons t rest ih =>
    rw [others_cons]
    cases hfind : samples.find? (·.name = t.metric) with
    | none =>
      rw [extractInOrder_cons_of_none hfind, others_cons]
      split
      · exact ih h
      · rw [extractInOrder_cons_of_none hfind, ih h]
    | some s =>
      have hne : t.metric ≠ metric := by
        intro heq
        have hname : s.name = t.metric := by simpa using List.find?_some hfind
        exact h s (List.mem_of_find?_eq_some hfind) (hname.trans heq)
      have hleft : ∀ r ∈ samples.eraseP (·.name = t.metric), r.name ≠ metric := by
        intro r hr
        exact h r (List.mem_of_mem_eraseP hr)
      rw [if_neg hne, extractInOrder_cons_of_some hfind, extractInOrder_cons_of_some hfind,
        ih hleft, others_cons, if_neg hne]

/-- The first entry of each metric. -/
def unrepeated (tracked : List Tracked) : List Tracked :=
  tracked.eraseDupsBy fun t u => t.metric = u.metric

theorem unrepeated_cons (t : Tracked) (rest : List Tracked) :
    unrepeated (t :: rest) = t :: unrepeated (others t.metric rest) := by
  simp [unrepeated, others, List.eraseDupsBy_cons]

theorem unrepeated_untouched (metrics : List String) :
    unrepeated (metrics.map (⟨·, none⟩)) = metrics.eraseDups.map (⟨·, none⟩) := by
  induction hn : metrics.length using Nat.strong_induction_on generalizing metrics with
  | _ n ih =>
  cases metrics with
  | nil => rfl
  | cons metric rest =>
    have hothers : others metric (rest.map (⟨·, none⟩)) =
        (rest.filter fun m => ! m == metric).map (⟨·, none⟩) := by
      rw [others, List.filter_map]
      rfl
    have hshorter : (rest.filter fun m => ! m == metric).length < n := by
      have := List.length_filter_le (fun m => ! m == metric) rest
      rw [← hn]
      exact Nat.lt_succ_of_le this
    rw [List.map_cons, unrepeated_cons, hothers, ih _ hshorter _ rfl, List.eraseDups_cons]
    rfl

theorem extractInOrder_unrepeated (h : (samples.map (·.name)).Nodup) :
    extractInOrder policy (unrepeated tracked) samples =
      ((extractInOrder policy tracked samples).1,
        unrepeated (extractInOrder policy tracked samples).2) := by
  induction hn : tracked.length using Nat.strong_induction_on generalizing tracked samples with
  | _ n ih =>
  cases tracked with
  | nil => rfl
  | cons t rest =>
    have hshorter : (others t.metric rest).length < n := by
      have := List.length_filter_le (fun u : Tracked => ! u.metric = t.metric) rest
      rw [← hn]
      exact Nat.lt_succ_of_le this
    rw [unrepeated_cons]
    cases hfind : samples.find? (·.name = t.metric) with
    | none =>
      have hnone : ∀ s ∈ samples, s.name ≠ t.metric := by simpa using hfind
      have hrest := ih _ hshorter h rfl
      rw [extractInOrder_others hnone] at hrest
      rw [extractInOrder_cons_of_none hfind, extractInOrder_cons_of_none hfind, hrest,
        unrepeated_cons]
    | some s =>
      have herased : ((samples.eraseP (·.name = t.metric)).map (·.name)).Nodup :=
        h.sublist (List.eraseP_sublist.map _)
      have hrest := ih _ hshorter herased rfl
      rw [extractInOrder_others fun r hr => name_ne_of_mem_eraseP h hr] at hrest
      rw [extractInOrder_cons_of_some hfind, extractInOrder_cons_of_some hfind, hrest,
        unrepeated_cons]

theorem rateRow_unrepeated (tracked : List Tracked) (row : Row Value) :
    rateRow policy (unrepeated tracked) row =
      ((rateRow policy tracked row).1, unrepeated (rateRow policy tracked row).2) := by
  simp only [rateRow_eq_inOrder, extractInOrder_unrepeated row.nodup]

/-- Of two scans, one that keeps what the other remembers up to `g` gives the same rows. -/
theorem scanRows_map {α β σ τ : Type} {f : σ → Row α → Row β × σ} {f' : τ → Row α → Row β × τ}
    (g : σ → τ) (h : ∀ s row, f' (g s) row = ((f s row).1, g (f s row).2)) (s : σ)
    (feed : Feed α) : scanRows f' (g s) feed = scanRows f s feed := by
  induction feed generalizing s with
  | nil => rfl
  | cons item rest ih =>
    cases item with
    | ok row => rw [scanRows, scanRows, h, ih]
    | error e => rw [scanRows, scanRows, ih]

/-- Listing a metric again asks for nothing more. -/
theorem rates_eraseDups (policy : CounterWrap) (metrics : List String) (feed : Feed Value) :
    rates policy metrics.eraseDups feed = rates policy metrics feed := by
  rw [rates, rates, ← unrepeated_untouched]
  exact scanRows_map unrepeated rateRow_unrepeated _ feed

/-- Each row is rated against what the rows before it show of the listed metrics. -/
theorem getElem?_rates (policy : CounterWrap) (metrics : List String) (feed : Feed Value)
    (i : Nat) :
    (rates policy metrics feed)[i]? = feed[i]?.map (Except.map fun row =>
      (rateRow policy (metrics.eraseDups.map (trackedAfter (rowsOf (feed.take i)))) row).1) := by
  rw [← rates_eraseDups, rates, getElem?_scanRows, foldl_rateRow (nodup_eraseDups metrics)]

end Telemetry.Feed
