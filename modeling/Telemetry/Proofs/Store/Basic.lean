import Mathlib.Data.String.Basic
import Telemetry.Store
import Telemetry.Proofs.Row

/-!
# A store as a map of rows

The resources of a store and the rows of each resource stand in order, and that is all that is
asked of a store: `Sorted`. Then a row can be looked up by its resource and its instant. Storing a
sample changes the row under the sample's resource and instant, and no other.
-/

namespace Telemetry

/-! ## Rows by their instants -/

namespace Row

variable {α : Type} {rows : List (Row α)} {row : Row α} {n : Int}

/-- The row of the instant that lies `n` nanoseconds after the epoch. -/
def at? (rows : List (Row α)) (n : Int) : Option (Row α) :=
  rows.find? (·.timestamp.nanos = n)

theorem at?_cons (row : Row α) (rows : List (Row α)) (n : Int) :
    at? (row :: rows) n = if row.timestamp.nanos = n then some row else at? rows n := by
  by_cases h : row.timestamp.nanos = n <;> simp [at?, h]

theorem Ascending.nodup_nanos (h : Ascending rows) : (rows.map (·.timestamp.nanos)).Nodup :=
  List.pairwise_map.2 (h.imp fun hlt => (Timestamp.lt_iff.1 hlt).ne)

theorem nanos_of_at? (h : at? rows n = some row) : row.timestamp.nanos = n := by
  simpa using List.find?_some h

theorem Ascending.at?_nanos (h : Ascending rows) (hrow : row ∈ rows) :
    at? rows row.timestamp.nanos = some row :=
  find?_key (fun row : Row α => row.timestamp.nanos) h.nodup_nanos hrow

theorem Ascending.at?_eq_some_iff (h : Ascending rows) :
    at? rows n = some row ↔ row ∈ rows ∧ row.timestamp.nanos = n := by
  refine ⟨fun hrow => ⟨List.mem_of_find?_eq_some hrow, nanos_of_at? hrow⟩, ?_⟩
  rintro ⟨hmem, rfl⟩
  exact h.at?_nanos hmem

theorem at?_eq_none_of_forall_lt (h : ∀ row ∈ rows, n < row.timestamp.nanos) :
    at? rows n = none := by
  refine List.find?_eq_none.2 fun row hrow => ?_
  simpa using (h row hrow).ne'

end Row

namespace Store

variable {store : Store} {s : Sample} {rows : List (Row Value)} {series : List Series}
  {resource : String} {n : Int}

/-! ## A sample among rows -/

section PlaceInRows

variable {row : Row Value} {rest : List (Row Value)}

theorem placeInRows_of_lt (h : s.timestamp.nanos < row.timestamp.nanos) :
    placeInRows s (row :: rest) =
      (Row.empty s.timestamp s.resource).insert s :: row :: rest :=
  if_pos h

theorem placeInRows_of_eq (h : s.timestamp.nanos = row.timestamp.nanos) :
    placeInRows s (row :: rest) = row.insert s :: rest :=
  (if_neg h.not_lt).trans (if_neg h.not_gt)

theorem placeInRows_of_gt (h : row.timestamp.nanos < s.timestamp.nanos) :
    placeInRows s (row :: rest) = row :: placeInRows s rest :=
  (if_neg h.not_gt).trans (if_pos h)

theorem nanos_of_mem_placeInRows (h : row ∈ placeInRows s rows) :
    row.timestamp.nanos = s.timestamp.nanos ∨ row ∈ rows := by
  induction rows with
  | nil => exact .inl (by simp_all [placeInRows, Row.empty])
  | cons first rest ih =>
    rcases lt_trichotomy s.timestamp.nanos first.timestamp.nanos with hlt | heq | hgt
    · rw [placeInRows_of_lt hlt] at h
      rcases List.mem_cons.1 h with rfl | hmem
      · exact .inl rfl
      · exact .inr hmem
    · rw [placeInRows_of_eq heq] at h
      rcases List.mem_cons.1 h with rfl | hmem
      · exact .inl heq.symm
      · exact .inr (List.mem_cons_of_mem _ hmem)
    · rw [placeInRows_of_gt hgt] at h
      rcases List.mem_cons.1 h with rfl | hmem
      · exact .inr List.mem_cons_self
      · exact (ih hmem).imp_right (List.mem_cons_of_mem _)

theorem ascending_placeInRows (h : Row.Ascending rows) : Row.Ascending (placeInRows s rows) := by
  induction rows with
  | nil => exact List.pairwise_singleton _ _
  | cons first rest ih =>
    obtain ⟨hfirst, hrest⟩ := List.pairwise_cons.1 h
    rcases lt_trichotomy s.timestamp.nanos first.timestamp.nanos with hlt | heq | hgt
    · rw [placeInRows_of_lt hlt]
      refine List.pairwise_cons.2 ⟨List.forall_mem_cons.2 ⟨hlt, fun row hrow => ?_⟩, h⟩
      exact lt_trans (a := s.timestamp.nanos) hlt (hfirst row hrow)
    · rw [placeInRows_of_eq heq]
      exact List.pairwise_cons.2 ⟨hfirst, hrest⟩
    · rw [placeInRows_of_gt hgt]
      refine List.pairwise_cons.2 ⟨fun row hrow => ?_, ih hrest⟩
      rcases nanos_of_mem_placeInRows hrow with heq | hmem
      · exact Timestamp.lt_iff.2 (heq ▸ hgt)
      · exact hfirst row hmem

/-- A sample goes into the row of its instant, which it begins if there is none. -/
theorem at?_placeInRows (h : Row.Ascending rows) (n : Int) :
    Row.at? (placeInRows s rows) n =
      if s.timestamp.nanos = n
      then some (((Row.at? rows n).getD (Row.empty s.timestamp s.resource)).insert s)
      else Row.at? rows n := by
  induction rows with
  | nil => exact Row.at?_cons _ [] n
  | cons first rest ih =>
    obtain ⟨hfirst, hrest⟩ := List.pairwise_cons.1 h
    rcases lt_trichotomy s.timestamp.nanos first.timestamp.nanos with hlt | heq | hgt
    · have hnone : Row.at? (first :: rest) s.timestamp.nanos = none :=
        Row.at?_eq_none_of_forall_lt <| List.forall_mem_cons.2
          ⟨hlt, fun row hrow => hlt.trans (Timestamp.lt_iff.1 (hfirst row hrow))⟩
      rw [placeInRows_of_lt hlt, Row.at?_cons]
      by_cases hn : s.timestamp.nanos = n
      · rw [← hn, hnone]
        rfl
      · rw [if_neg hn]
        exact if_neg hn
    · rw [placeInRows_of_eq heq, Row.at?_cons, Row.at?_cons, Row.timestamp_insert, heq]
      split <;> rfl
    · rw [placeInRows_of_gt hgt, Row.at?_cons, Row.at?_cons, ih hrest]
      by_cases hn : first.timestamp.nanos = n
      · rw [if_pos hn, if_pos hn, if_neg (hn ▸ hgt.ne')]
      · rw [if_neg hn, if_neg hn]

end PlaceInRows

/-! ## A sample among resources -/

/-- The resources stand in order, and so do the rows of each resource. -/
structure Sorted (store : Store) : Prop where
  resources : store.series.Pairwise (·.resource < ·.resource)
  rows : ∀ x ∈ store.series, Row.Ascending x.rows

theorem mem_map_placeInSeries :
    resource ∈ (placeInSeries s series).map (·.resource) ↔
      s.resource = resource ∨ resource ∈ series.map (·.resource) := by
  induction series with
  | nil => simp [placeInSeries, eq_comm]
  | cons first rest ih =>
    unfold placeInSeries
    grind

theorem sorted_empty : empty.Sorted :=
  ⟨.nil, by simp [empty]⟩

theorem resources_placeInSeries (h : series.Pairwise (·.resource < ·.resource)) :
    (placeInSeries s series).Pairwise (·.resource < ·.resource) := by
  induction series with
  | nil => exact List.pairwise_singleton _ _
  | cons first rest ih =>
    obtain ⟨hfirst, hrest⟩ := List.pairwise_cons.1 h
    unfold placeInSeries
    split
    next hlt =>
      exact List.pairwise_cons.2
        ⟨List.forall_mem_cons.2 ⟨hlt, fun x hx => lt_trans hlt (hfirst x hx)⟩, h⟩
    next hle =>
      split
      next => exact List.pairwise_cons.2 ⟨hfirst, hrest⟩
      next hne =>
        refine List.pairwise_cons.2 ⟨fun x hx => ?_, ih hrest⟩
        rcases mem_map_placeInSeries.1 (List.mem_map_of_mem hx) with heq | hmem
        · exact heq ▸ lt_of_le_of_ne (not_lt.1 hle) (Ne.symm hne)
        · obtain ⟨y, hy, heq⟩ := List.mem_map.1 hmem
          exact heq ▸ hfirst y hy

theorem rows_placeInSeries (h : ∀ x ∈ series, Row.Ascending x.rows) :
    ∀ x ∈ placeInSeries s series, Row.Ascending x.rows := by
  have hone : Row.Ascending (placeInRows s []) := ascending_placeInRows .nil
  induction series with
  | nil => simpa [placeInSeries] using hone
  | cons first rest ih =>
    obtain ⟨hfirst, hrest⟩ := List.forall_mem_cons.1 h
    unfold placeInSeries
    split
    next => exact List.forall_mem_cons.2 ⟨hone, h⟩
    next =>
      split
      next => exact List.forall_mem_cons.2 ⟨ascending_placeInRows hfirst, hrest⟩
      next => exact List.forall_mem_cons.2 ⟨hfirst, ih hrest⟩

theorem Sorted.insert (h : store.Sorted) (s : Sample) : (store.insert s).Sorted :=
  ⟨resources_placeInSeries h.resources, rows_placeInSeries h.rows⟩

theorem Sorted.insertAll (h : store.Sorted) (samples : List Sample) :
    (store.insertAll samples).Sorted := by
  induction samples generalizing store with
  | nil => exact h
  | cons s rest ih => exact ih (h.insert s)

theorem Sorted.rows_ascending (h : store.Sorted) (resource : String) :
    Row.Ascending (store.rows resource) := by
  unfold Store.rows
  split
  next hx => exact h.rows _ (List.mem_of_find?_eq_some hx)
  next => exact .nil

theorem find?_placeInSeries (h : series.Pairwise (·.resource < ·.resource)) (resource : String) :
    (placeInSeries s series).find? (·.resource = resource) =
      if s.resource = resource then
        some ⟨resource, placeInRows s
          (((series.find? (·.resource = resource)).map Series.rows).getD [])⟩
      else series.find? (·.resource = resource) := by
  induction series with
  | nil => by_cases hs : s.resource = resource <;> simp [placeInSeries, hs]
  | cons first rest ih =>
    obtain ⟨hfirst, hrest⟩ := List.pairwise_cons.1 h
    unfold placeInSeries
    split
    next hlt =>
      by_cases hs : s.resource = resource
      · have hnone : (first :: rest).find? (·.resource = resource) = none := by
          refine List.find?_eq_none.2 fun x hx => ?_
          rcases List.mem_cons.1 hx with rfl | hmem
          · simpa [← hs] using hlt.ne'
          · simpa [← hs] using (hlt.trans (hfirst x hmem)).ne'
        rw [hnone, if_pos hs]
        simp [hs]
      · simp [hs]
    next =>
      split
      next heq =>
        by_cases hs : s.resource = resource
        · simp [← hs, ← heq]
        · simp [hs, ← heq]
      next hne =>
        by_cases hf : first.resource = resource
        · simp [hf, hf ▸ hne]
        · simpa [hf] using ih hrest

theorem rows_eq (store : Store) (resource : String) : store.rows resource =
    ((store.series.find? (·.resource = resource)).map Series.rows).getD [] := by
  unfold Store.rows
  split <;> rename_i hfind <;> rw [hfind] <;> rfl

theorem rows_insert (h : store.Sorted) (s : Sample) (resource : String) :
    (store.insert s).rows resource =
      if s.resource = resource then placeInRows s (store.rows resource)
      else store.rows resource := by
  rw [rows_eq, rows_eq, insert, find?_placeInSeries h.resources]
  split <;> rfl

theorem Sorted.rows_of_mem (h : store.Sorted) {x : Series} (hx : x ∈ store.series) :
    store.rows x.resource = x.rows := by
  have hnodup : (store.series.map (·.resource)).Nodup :=
    List.pairwise_map.2 (h.resources.imp fun hlt => hlt.ne)
  rw [rows_eq, Row.find?_key (·.resource) hnodup hx]
  rfl

theorem Sorted.mem_rows_iff (h : store.Sorted) {row : Row Value} :
    row ∈ store.rows resource ↔ ∃ x ∈ store.series, x.resource = resource ∧ row ∈ x.rows := by
  constructor
  · intro hrow
    unfold Store.rows at hrow
    split at hrow
    next x hx =>
      exact ⟨x, List.mem_of_find?_eq_some hx, by simpa using List.find?_some hx, hrow⟩
    next => cases hrow
  · rintro ⟨x, hx, rfl, hrow⟩
    rwa [h.rows_of_mem hx]

theorem mem_resources_insert (s : Sample) (resource : String) :
    resource ∈ (store.insert s).resources ↔ s.resource = resource ∨ resource ∈ store.resources :=
  mem_map_placeInSeries

/-! ## The row of a resource and an instant -/

/-- The row of a resource at an instant, given by its distance from the epoch. -/
def row? (store : Store) (resource : String) (n : Int) : Option (Row Value) :=
  Row.at? (store.rows resource) n

theorem row?_insert (h : store.Sorted) (s : Sample) (resource : String) (n : Int) :
    (store.insert s).row? resource n =
      if s.resource = resource ∧ s.timestamp.nanos = n
      then some (((store.row? resource n).getD (Row.empty s.timestamp resource)).insert s)
      else store.row? resource n := by
  rw [row?, row?, rows_insert h]
  by_cases hs : s.resource = resource
  · rw [if_pos hs, at?_placeInRows (h.rows_ascending resource)]
    simp [hs]
  · simp [hs]

end Store

end Telemetry
