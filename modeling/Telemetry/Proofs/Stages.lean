import Mathlib.Data.List.Forall2
import Telemetry.Feed.Calculated
import Telemetry.Proofs.Descriptor
import Telemetry.Proofs.Exported

/-!
# Stages that work row by row

Rates, calculations and exports turn each row into one row. Rates keep the instants of rows.
Calculations put one measurement behind the others, and none of them fails where labels are defined
in order. An export takes its labels out of a row that has all of them.
-/

namespace Telemetry

namespace Feed

variable {α β σ : Type} {f : σ → Row α → Row β × σ} {s : σ} {rows : List (Row α)}

theorem mapRows_ofRows {g : Row α → Except QueryError (Row β)} {rows' : List (Row β)}
    (h : List.Forall₂ (fun row row' => g row = .ok row') rows rows') :
    mapRows g (ofRows rows) = ofRows rows' := by
  induction h with
  | nil => rfl
  | cons hrow _ ih =>
    simp only [mapRows, ofRows, List.map_cons] at ih ⊢
    rw [ih, ← hrow]
    rfl

/-! ## Rates -/

/-- What a scan makes of rows one after the other. -/
def scanned (f : σ → Row α → Row β × σ) : σ → List (Row α) → List (Row β)
  | _, [] => []
  | s, row :: rest => (f s row).1 :: scanned f (f s row).2 rest

theorem scanRows_ofRows : scanRows f s (ofRows rows) = ofRows (scanned f s rows) := by
  induction rows generalizing s with
  | nil => rfl
  | cons row rest ih =>
    rw [ofRows, List.map_cons, scanRows, ← ofRows, ih]
    rfl

theorem timestamp_scanned (h : ∀ s row, (f s row).1.timestamp = row.timestamp) (s : σ)
    (rows : List (Row α)) : (scanned f s rows).map (·.timestamp) = rows.map (·.timestamp) := by
  induction rows generalizing s with
  | nil => rfl
  | cons row rest ih => rw [scanned, List.map_cons, List.map_cons, h, ih]

theorem forall_mem_scanned {P : Row β → Prop} (h : ∀ s, ∀ row ∈ rows, P (f s row).1) :
    ∀ row ∈ scanned f s rows, P row := by
  induction rows generalizing s with
  | nil => simp [scanned]
  | cons row rest ih =>
    intro row' hrow'
    rcases List.mem_cons.1 hrow' with rfl | hmem
    · exact h s row List.mem_cons_self
    · exact ih (fun s row hrow => h s row (List.mem_cons_of_mem _ hrow)) row' hmem

section Rates

variable {policy : CounterWrap} {tracked : List Tracked} {samples : List Sample}
  {metrics : List String} {rows : List (Row Value)}

theorem timestamp_rated (policy : CounterWrap) (s : Sample) (previous : Option Sighting) :
    (rated policy s previous).timestamp = s.timestamp := by
  unfold rated
  split <;> rfl

theorem name_rated (policy : CounterWrap) (s : Sample) (previous : Option Sighting) :
    (rated policy s previous).name = s.name := by
  unfold rated
  split <;> rfl

theorem timestamp_of_mem_extractInOrder {s : Sample}
    (h : s ∈ (extractInOrder policy tracked samples).1) :
    ∃ s' ∈ samples, s.timestamp = s'.timestamp := by
  induction tracked generalizing samples with
  | nil => cases h
  | cons t rest ih =>
    cases hfind : samples.find? (·.name = t.metric) with
    | none =>
      rw [extractInOrder, hfind] at h
      exact ih h
    | some first =>
      rw [extractInOrder, hfind] at h
      rcases List.mem_cons.1 h with rfl | hmem
      · exact ⟨first, List.mem_of_find?_eq_some hfind, timestamp_rated policy first t.last⟩
      · obtain ⟨s', hs', heq⟩ := ih hmem
        exact ⟨s', List.mem_of_mem_eraseP hs', heq⟩

@[simp] theorem timestamp_rateRow (policy : CounterWrap) (tracked : List Tracked)
    (row : Row Value) : (rateRow policy tracked row).1.timestamp = row.timestamp :=
  Row.timestamp_insertAll

theorem stamped_rateRow {row : Row Value} (h : row.Stamped) :
    (rateRow policy tracked row).1.Stamped := by
  intro s hs
  rw [rateRow_eq_inOrder] at hs
  rcases Row.mem_insertAll hs with hmem | hmem
  · obtain ⟨s', hs', heq⟩ := timestamp_of_mem_extractInOrder hmem
    rw [timestamp_rateRow, heq]
    exact h s' hs'
  · cases hmem

/-- The requested metrics of rows without errors. -/
def ratedRows (policy : CounterWrap) (metrics : List String) (rows : List (Row Value)) :
    List (Row Value) :=
  scanned (rateRow policy) (metrics.map (⟨·, none⟩)) rows

theorem rates_ofRows (policy : CounterWrap) (metrics : List String) (rows : List (Row Value)) :
    rates policy metrics (ofRows rows) = ofRows (ratedRows policy metrics rows) :=
  scanRows_ofRows

theorem ascending_ratedRows (h : Row.Ascending rows) :
    Row.Ascending (ratedRows policy metrics rows) := by
  have hsame := timestamp_scanned (timestamp_rateRow policy) (metrics.map (⟨·, none⟩)) rows
  rw [Row.Ascending, ← List.pairwise_map (R := fun a b : Timestamp => a < b)] at h ⊢
  rw [ratedRows, hsame]
  exact h

theorem stamped_ratedRows (h : ∀ row ∈ rows, row.Stamped) :
    ∀ row ∈ ratedRows policy metrics rows, row.Stamped :=
  forall_mem_scanned fun _ row hrow => stamped_rateRow (h row hrow)

end Rates

end Feed

/-! ## Calculations -/

namespace Calculation

variable {c : Calculation} {cs : List Calculation} {row : Row Float} {resource : String}
  {t : Timestamp} {labels : List String}

theorem arguments_of_mem (h : ∀ name, Operand.label name ∈ c.operands → name ∈ row.names) :
    ∃ args, c.arguments row = .ok args := by
  unfold arguments
  generalize c.operands = operands at h
  induction operands with
  | nil => exact ⟨[], rfl⟩
  | cons operand rest ih =>
    obtain ⟨args, hargs⟩ := ih fun name hname => h name (List.mem_cons_of_mem _ hname)
    cases operand with
    | constant x => exact ⟨x :: args, by simp [hargs]; rfl⟩
    | label name =>
      obtain ⟨m, hm⟩ := Row.exists_get? (h name List.mem_cons_self)
      exact ⟨m.value :: args, by simp [hargs, hm]; rfl⟩

/-- A calculation that reads labels of the row puts its own label behind them. -/
theorem extend_shaped (hrow : row.Shaped resource t labels)
    (hops : ∀ name, Operand.label name ∈ c.operands → name ∈ labels) (hnew : c.label ∉ labels) :
    ∃ row', extend row c = .ok row' ∧ row'.Shaped resource t (labels ++ [c.label]) := by
  obtain ⟨rfl, rfl, rfl, hstamped⟩ := hrow
  obtain ⟨args, hargs⟩ := arguments_of_mem hops
  let m : Measurement := ⟨row.timestamp, row.resource, c.label, c.function args, none⟩
  have hreadings : (row.insert m).readings = row.readings ++ [m] := Row.readings_insert hnew
  refine ⟨row.insert m, by rw [extend, hargs]; rfl, rfl, rfl, ?_, ?_⟩
  · rw [Row.names, hreadings, List.map_append]
    rfl
  · rw [hreadings]
    intro m' hm'
    rcases List.mem_append.1 hm' with hmem | hmem
    · exact hstamped m' hmem
    · obtain rfl := List.mem_singleton.1 hmem
      exact ⟨rfl, rfl⟩

/-- The induction runs over the calculations; each finds the labels of those before it in the
row. -/
theorem foldlM_extend_shaped (hrow : row.Shaped resource t labels) (h : InOrder labels cs)
    (hnodup : (labels ++ cs.map (·.label)).Nodup) :
    ∃ row', cs.foldlM extend row = .ok row' ∧
      row'.Shaped resource t (labels ++ cs.map (·.label)) := by
  induction cs generalizing row labels with
  | nil => exact ⟨row, rfl, by simpa using hrow⟩
  | cons c rest ih =>
    have hnew : c.label ∉ labels := by
      intro hmem
      exact (List.nodup_append.1 hnodup).2.2 _ hmem _ List.mem_cons_self rfl
    obtain ⟨row', hextend, hshaped⟩ := extend_shaped hrow h.1 hnew
    obtain ⟨row'', hrest, hshaped'⟩ := ih hshaped h.2 (by simpa using hnodup)
    refine ⟨row'', ?_, by simpa using hshaped'⟩
    rw [List.foldlM_cons, hextend]
    exact hrest

end Calculation

/-! ## Exports -/

namespace Feed

variable {row : Row Float} {labels exports : List String} {resource : String} {t : Timestamp}

/-- Labels that are all there are exported in their order, and nothing is filled in. -/
theorem exportRow_shaped (hrow : row.Shaped resource t labels) (hexports : exports.Nodup)
    (hsub : exports ⊆ labels) :
    (exportRow exports row).Shaped resource t exports ∧
      (exportRow exports row).readings ⊆ row.readings := by
  obtain ⟨rfl, rfl, rfl, hstamped⟩ := hrow
  have hprojects := projects_exportRow exports row
  have hreadings : (exportRow exports row).readings ⊆ row.readings := by
    intro m hm
    have hlabel : m.name ∈ exports := (hprojects.names.mem_iff _).1 (List.mem_map_of_mem hm)
    obtain ⟨m', hm'⟩ := Row.exists_get? (hsub hlabel)
    have hkept := hprojects.present m.name m' (List.count_eq_one_of_mem hexports hlabel) hm'
    obtain rfl := Option.some.inj ((Row.get?_name hm).symm.trans hkept)
    exact Row.mem_of_get? hm'
  refine ⟨⟨hprojects.timestamp_eq, hprojects.resource_eq, ?_, ?_⟩, hreadings⟩
  · rw [names_exportRow, eraseDups_of_nodup hexports]
  · exact fun m hm => hstamped m (hreadings hm)

end Feed

end Telemetry
