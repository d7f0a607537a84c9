import Mathlib.Data.List.Forall2
import Telemetry.Proofs.Fallible
import Telemetry.Proofs.Removal

/-!
# What an export makes of a row

An exported row has the exported labels in the order of their first mention. A label that is
exported once shows the measurement that the row has under it, and is unknown if there is none.
Each mention of a label takes a measurement out of the row, so a label that is exported again finds
nothing any more and becomes unknown. To export once more changes nothing.
-/

namespace Telemetry.Feed

variable {labels : List String} {label : String} {row : Row Float}

/-- What a mention of a label takes has its name, be it unknown or not. -/
theorem name_taken (t : Timestamp) (resource label : String) (ms : List Measurement) :
    ((ms.find? (·.name = label)).getD (.unknown t resource label)).name = label := by
  cases hfind : ms.find? (·.name = label) with
  | none => rfl
  | some m => simpa using List.find?_some hfind

theorem names_takeInOrder (t : Timestamp) (resource : String) (labels : List String)
    (ms : List Measurement) : (takeInOrder t resource labels ms).map (·.name) = labels := by
  induction labels generalizing ms with
  | nil => rfl
  | cons label rest ih => rw [takeInOrder, List.map_cons, ih, name_taken]

/-- The mentions of a label take the measurements of that name one after the other. Those that
come too late are unknown. -/
theorem filter_takeInOrder (t : Timestamp) (resource label : String) (labels : List String)
    (ms : List Measurement) :
    (takeInOrder t resource labels ms).filter (·.name = label) =
      List.take (labels.count label) (ms.filter (·.name = label) ++
        List.replicate (labels.count label) (Measurement.unknown t resource label)) := by
  induction labels generalizing ms with
  | nil => simp [takeInOrder]
  | cons first rest ih =>
    have hname := name_taken t resource first ms
    rw [takeInOrder]
    by_cases heq : first = label
    · subst heq
      rw [List.filter_cons_of_pos (by simp [hname]), ih, List.count_cons_self,
        Row.filter_eq_find?_eraseP _ ms]
      cases hfind : ms.find? (·.name = first) with
      | none =>
        have hnone : (ms.eraseP (·.name = first)).filter (·.name = first) = [] := by
          rw [List.eraseP_of_forall_not (List.find?_eq_none.1 hfind)]
          exact List.filter_eq_nil_iff.2 (List.find?_eq_none.1 hfind)
        simp [hnone, List.replicate_succ]
      | some m => simp [List.replicate_succ', ← List.append_assoc, List.take_append_of_le_length]
    · rw [List.filter_cons_of_neg (by simp [hname, heq]), ih, Row.filter_eraseP_of_ne heq,
        List.count_cons_of_ne heq]

theorem names_exportRow (labels : List String) (row : Row Float) :
    (exportRow labels row).names = labels.eraseDups := by
  rw [exportRow_eq_inOrder, Row.names_insertAll_empty, names_takeInOrder]

/-- The last of what the mentions of a label take is what the exported row shows under it. -/
theorem get?_exportRow_eq (labels : List String) (row : Row Float) (label : String) :
    (exportRow labels row).get? label =
      (List.take (labels.count label) ((row.get? label).toList ++
        List.replicate (labels.count label)
          (Measurement.unknown row.timestamp row.resource label))).getLast? := by
  rw [exportRow_eq_inOrder, Row.get?_insertAll_empty, filter_takeInOrder,
    Row.filter_name row.nodup, Row.get?]

/-- How an exported row comes from a row: it has the row's instant and resource and, in the order
of their first mention, the exported labels. -/
structure Projects (labels : List String) (row out : Row Float) : Prop where
  timestamp_eq : out.timestamp = row.timestamp
  resource_eq : out.resource = row.resource
  names : FirstMentions labels out.names
  /-- What the row has under a label that is listed once is there unchanged. -/
  present : ∀ label m, labels.count label = 1 → row.get? label = some m → out.get? label = some m
  /-- What the row does not have is unknown, and has the instant and the resource of the row. -/
  absent : ∀ label ∈ labels, row.get? label = none →
    out.get? label = some (Measurement.unknown row.timestamp row.resource label)
  /-- So is what it has under a label that is listed again. -/
  again : ∀ label, 1 < labels.count label →
    out.get? label = some (Measurement.unknown row.timestamp row.resource label)

theorem projects_exportRow (labels : List String) (row : Row Float) :
    Projects labels row (exportRow labels row) where
  timestamp_eq := Row.timestamp_insertAll
  resource_eq := Row.resource_insertAll
  names := names_exportRow labels row ▸ .eraseDups labels
  present label m hcount hm := by simp [get?_exportRow_eq, hcount, hm]
  absent label hlabel hnone := by
    have hcount : labels.count label ≠ 0 := (List.count_pos_iff.2 hlabel).ne'
    simp [get?_exportRow_eq, hnone, hcount, List.getLast?_replicate]
  again label hcount := by
    obtain ⟨k, hk⟩ := Nat.exists_eq_add_of_lt hcount
    rw [get?_exportRow_eq, hk]
    cases row.get? label with
    | none => simp [List.getLast?_replicate]
    | some m => simp [List.getLast?_cons, List.getLast?_replicate]

/-- A label that is exported twice does not show what the row has under it. -/
example : (exportRow ["in", "in"] ((Row.empty (.ofTicks 300 .seconds) "host").insert
      ⟨.ofTicks 300 .seconds, "host", "in", 1.5, none⟩)).readings.map (·.value) = [unknown] := by
  decide

theorem exportRow_exportRow (labels : List String) (row : Row Float) :
    exportRow labels (exportRow labels row) = exportRow labels row := by
  have hfirst := projects_exportRow labels row
  have hagain := projects_exportRow labels (exportRow labels row)
  refine Row.ext_of_get? hagain.timestamp_eq hagain.resource_eq ?_ fun label hlabel => ?_
  · rw [names_exportRow, names_exportRow]
  have hmem : label ∈ labels := (hagain.names.mem_iff label).1 hlabel
  obtain ⟨m, hm⟩ := Row.exists_get? ((hfirst.names.mem_iff label).2 hmem)
  rcases (List.one_le_count_iff.2 hmem).eq_or_lt with hcount | hcount
  · rw [hm, hagain.present label m hcount.symm hm]
  · rw [hfirst.again label hcount, hagain.again label hcount, hfirst.timestamp_eq,
      hfirst.resource_eq]

/-- An export projects each row of a feed onto the labels, lets errors pass, and changes nothing
when it is done again. -/
theorem exported_projects (labels : List String) (feed : Feed Float) :
    List.Forall₂ (Likewise (Projects labels)) feed (feed.exported labels) ∧
      (feed.exported labels).exported labels = feed.exported labels := by
  constructor
  · refine List.forall₂_map_right_iff.2 (List.forall₂_same.2 fun item _ => ?_)
    cases item with
    | ok row => exact .ok (projects_exportRow labels row)
    | error e => exact .error e
  · rw [exported, mapRows, exported, mapRows, List.map_map]
    refine List.map_congr_left fun item _ => ?_
    cases item with
    | ok row => exact congrArg Except.ok (exportRow_exportRow labels row)
    | error e => rfl

end Telemetry.Feed
