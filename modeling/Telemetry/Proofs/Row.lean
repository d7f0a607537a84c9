import Mathlib.Data.List.TakeWhile
import Telemetry.Proofs.Mentions
import Telemetry.Proofs.Time.Range
import Telemetry.Row

/-!
# Rows

The names in a row do not repeat. So readings of new names are put behind those that are there,
and a reading is found under its own name.

A walk over rows takes them up to an instant, `upTo`, and leaves the others, `after`, for later.
Walking on to a later instant goes on where the walk was left.
-/

namespace Telemetry.Row

variable {α : Type} {row row' : Row α} {r : Reading α} {l rs : List (Reading α)} {n : String}

theorem ext_of_readings (htimestamp : row.timestamp = row'.timestamp)
    (hresource : row.resource = row'.resource) (hreadings : row.readings = row'.readings) :
    row = row' := by
  cases row
  cases row'
  cases htimestamp
  cases hresource
  cases hreadings
  rfl

/-- The names of the readings, in order. -/
def names (row : Row α) : List String :=
  row.readings.map (·.name)

@[simp] theorem names_empty (timestamp : Timestamp) (resource : String) :
    (empty timestamp resource : Row α).names = [] := rfl

theorem place_of_not_mem (h : r.name ∉ l.map (·.name)) : place r l = l ++ [r] := by
  induction l with
  | nil => rfl
  | cons s rest ih =>
    rw [List.map_cons, List.mem_cons, not_or] at h
    rw [place, if_neg (Ne.symm h.1), ih h.2, List.cons_append]

theorem readings_insert (h : r.name ∉ row.names) :
    (row.insert r).readings = row.readings ++ [r] :=
  place_of_not_mem h

theorem names_place_of_mem (h : r.name ∈ l.map (·.name)) :
    (place r l).map (·.name) = l.map (·.name) := by
  induction l with
  | nil => cases h
  | cons first rest ih =>
    unfold place
    grind

theorem names_insert (row : Row α) (r : Reading α) :
    (row.insert r).names = if r.name ∈ row.names then row.names else row.names ++ [r.name] := by
  split
  next h => exact names_place_of_mem h
  next h => rw [names, readings_insert h, List.map_append]; rfl

theorem mem_place {s : Reading α} (h : s ∈ place r l) : s = r ∨ s ∈ l := by
  induction l with
  | nil => simpa [place] using h
  | cons first rest ih =>
    rw [place] at h
    split at h
    · exact (List.mem_cons.1 h).imp_right (List.mem_cons_of_mem _)
    · rcases List.mem_cons.1 h with rfl | hmem
      · exact .inr List.mem_cons_self
      · exact (ih hmem).imp_right (List.mem_cons_of_mem _)

theorem mem_insertAll {s : Reading α} (h : s ∈ (row.insertAll rs).readings) :
    s ∈ rs ∨ s ∈ row.readings := by
  induction rs generalizing row with
  | nil => exact .inr h
  | cons r rest ih =>
    rcases ih h with hmem | hmem
    · exact .inl (List.mem_cons_of_mem _ hmem)
    · rcases mem_place hmem with rfl | hrow
      · exact .inl List.mem_cons_self
      · exact .inr hrow

@[simp] theorem timestamp_insertAll : (row.insertAll rs).timestamp = row.timestamp := by
  induction rs generalizing row with
  | nil => rfl
  | cons r rs ih => exact ih

@[simp] theorem resource_insertAll : (row.insertAll rs).resource = row.resource := by
  induction rs generalizing row with
  | nil => rfl
  | cons r rs ih => exact ih

theorem readings_insertAll (h : (row.names ++ rs.map (·.name)).Nodup) :
    (row.insertAll rs).readings = row.readings ++ rs := by
  induction rs generalizing row with
  | nil => simp [insertAll]
  | cons r rs ih =>
    have hr : r.name ∉ row.names := by
      intro hmem
      exact (List.nodup_append.1 h).2.2 _ hmem _ (by simp) rfl
    have hins : (row.insert r).readings = row.readings ++ [r] := readings_insert hr
    have hnames : (row.insert r).names = row.names ++ [r.name] := by
      rw [names, hins, List.map_append]
      rfl
    have hrest : (insertAll (row.insert r) rs).readings = (row.insert r).readings ++ rs :=
      ih (by simpa [hnames] using h)
    rw [hins, List.append_assoc] at hrest
    exact hrest

theorem readings_insertAll_empty (timestamp : Timestamp) (resource : String)
    (h : (rs.map (·.name)).Nodup) :
    ((empty timestamp resource).insertAll rs).readings = rs :=
  readings_insertAll (by simpa using h)

/-- Where no key stands twice, each member of a list is found under its key. -/
theorem find?_key {β κ : Type} [DecidableEq κ] (key : β → κ) {l : List β} {b : β}
    (h : (l.map key).Nodup) (hb : b ∈ l) : l.find? (key · = key b) = some b := by
  induction l with
  | nil => cases hb
  | cons first rest ih =>
    obtain ⟨hfirst, hrest⟩ := List.nodup_cons.1 h
    rcases List.mem_cons.1 hb with rfl | hmem
    · simp
    · have hne : key first ≠ key b := fun heq => hfirst (heq ▸ List.mem_map_of_mem hmem)
      rw [List.find?_cons_of_neg (by simpa using hne)]
      exact ih hrest hmem

theorem find?_name (h : (l.map (·.name)).Nodup) (hr : r ∈ l) :
    l.find? (·.name = r.name) = some r :=
  find?_key (·.name) h hr

theorem get?_name (hr : r ∈ row.readings) : row.get? r.name = some r :=
  find?_name row.nodup hr

/-- Where no name stands twice, the readings of a name are the one that is found, if any. -/
theorem filter_name (h : (l.map (·.name)).Nodup) (n : String) :
    l.filter (·.name = n) = (l.find? (·.name = n)).toList := by
  induction l with
  | nil => rfl
  | cons s rest ih =>
    obtain ⟨hs, hrest⟩ := List.nodup_cons.1 h
    by_cases heq : s.name = n
    · have hnone : ∀ r ∈ rest, ¬ r.name = n := fun r hr h =>
        hs (List.mem_map.2 ⟨r, hr, h.trans heq.symm⟩)
      simpa [heq] using hnone
    · simpa [heq] using ih hrest

/-- The readings of a name are the first of them, and those that are left once it is taken out. -/
theorem filter_eq_find?_eraseP (p : Reading α → Bool) (l : List (Reading α)) :
    l.filter p = (l.find? p).toList ++ (l.eraseP p).filter p := by
  induction l with
  | nil => rfl
  | cons r rest ih => by_cases hr : p r <;> simp [hr, ih]

/-- Taking out a reading of another name leaves those of a name as they are. -/
theorem filter_eraseP_of_ne {m : String} (hne : n ≠ m) (l : List (Reading α)) :
    (l.eraseP (·.name = n)).filter (·.name = m) = l.filter (·.name = m) := by
  rcases List.exists_or_eq_self_of_eraseP (·.name = n) l with
    heq | ⟨r, before, behind, -, hr, rfl, heq⟩
  · rw [heq]
  · have hm : ¬ r.name = m := fun h => hne ((of_decide_eq_true hr).symm.trans h)
    simp [heq, hm]

theorem find?_eraseP_of_ne {m : String} (hne : n ≠ m) (l : List (Reading α)) :
    (l.eraseP (·.name = n)).find? (·.name = m) = l.find? (·.name = m) := by
  rw [← List.head?_filter, filter_eraseP_of_ne hne, List.head?_filter]

theorem mem_of_get? (h : row.get? n = some r) : r ∈ row.readings :=
  List.mem_of_find?_eq_some h

theorem exists_get? (h : n ∈ row.names) : ∃ r, row.get? n = some r := by
  obtain ⟨r, hr, rfl⟩ := List.mem_map.1 h
  exact ⟨r, get?_name hr⟩

theorem mem_names_iff : n ∈ row.names ↔ ∃ r, row.get? n = some r := by
  refine ⟨exists_get?, fun ⟨r, hr⟩ => ?_⟩
  obtain rfl : r.name = n := by simpa using List.find?_some hr
  exact List.mem_map_of_mem (mem_of_get? hr)

/-- The readings of a row are those that it has under its names. -/
theorem readings_eq_filterMap (row : Row α) : row.readings = row.names.filterMap row.get? := by
  rw [names, List.filterMap_map]
  symm
  calc row.readings.filterMap (row.get? ·.name)
      = row.readings.filterMap some := List.filterMap_congr fun _ hr => get?_name hr
    _ = row.readings := List.filterMap_some

/-- Rows of one resource and instant are the same if they have the same names in the same order,
and the same readings under them. -/
theorem ext_of_get? (htimestamp : row.timestamp = row'.timestamp)
    (hresource : row.resource = row'.resource) (hnames : row.names = row'.names)
    (hget : ∀ n ∈ row.names, row.get? n = row'.get? n) : row = row' := by
  refine ext_of_readings htimestamp hresource ?_
  rw [readings_eq_filterMap, readings_eq_filterMap, ← hnames]
  exact List.filterMap_congr hget

theorem find?_place (r : Reading α) (l : List (Reading α)) (n : String) :
    (place r l).find? (·.name = n) = if r.name = n then some r else l.find? (·.name = n) := by
  induction l with
  | nil => by_cases h : r.name = n <;> simp [place, h]
  | cons s rest ih =>
    by_cases hs : s.name = r.name
    · by_cases h : r.name = n <;> simp [place, hs, h]
    · by_cases h : s.name = n
      · have hne : ¬ r.name = n := fun hr => hs (h.trans hr.symm)
        rw [place, if_neg hs, if_neg hne]
        simp [h]
      · rw [place, if_neg hs, List.find?_cons_of_neg (by simpa using h), ih,
          List.find?_cons_of_neg (by simpa using h)]

/-- A reading that is put into a row is found there, and hides none of another name. -/
theorem get?_insert (row : Row α) (r : Reading α) (n : String) :
    (row.insert r).get? n = if r.name = n then some r else row.get? n :=
  find?_place r row.readings n

theorem get?_insert_self (row : Row α) (r : Reading α) : (row.insert r).get? r.name = some r := by
  rw [get?_insert, if_pos rfl]

theorem insertAll_concat (row : Row α) (rs : List (Reading α)) (r : Reading α) :
    row.insertAll (rs ++ [r]) = (row.insertAll rs).insert r :=
  List.foldl_append

/-- The reading of a name is the last that came under it. -/
theorem get?_insertAll_empty (timestamp : Timestamp) (resource : String)
    (rs : List (Reading α)) (name : String) :
    ((empty timestamp resource).insertAll rs).get? name =
      (rs.filter (·.name = name)).getLast? := by
  induction rs using List.reverseRecOn with
  | nil => rfl
  | append_singleton rs r ih =>
    rw [insertAll_concat, get?_insert, ih, List.filter_append]
    by_cases h : r.name = name <;> simp [h]

/-- The names stand in the order in which they came first. -/
theorem names_insertAll_empty (timestamp : Timestamp) (resource : String)
    (rs : List (Reading α)) :
    ((empty timestamp resource).insertAll rs).names = (rs.map (·.name)).eraseDups := by
  induction rs using List.reverseRecOn with
  | nil => rfl
  | append_singleton rs r ih =>
    rw [insertAll_concat, names_insert, ih, List.map_append, List.map_singleton, eraseDups_concat]
    simp only [List.mem_eraseDups]

/-- The number that a row shows under a name, unknown if there is none. -/
def valueOf (row : Row Float) (name : String) : Float :=
  ((row.get? name).map (·.value)).getD unknown

/-- A row of one resource at one instant with these names, in this order. -/
structure Shaped (row : Row α) (resource : String) (c : Timestamp) (names : List String) :
    Prop where
  timestamp_eq : row.timestamp = c
  resource_eq : row.resource = resource
  names_eq : row.names = names
  stamped : ∀ r ∈ row.readings, r.timestamp = c ∧ r.resource = resource

theorem shaped_insertAll_empty {c : Timestamp} {resource : String} {names : List String}
    (hnames : rs.map (·.name) = names) (hnodup : names.Nodup)
    (hstamped : ∀ r ∈ rs, r.timestamp = c ∧ r.resource = resource) :
    ((empty c resource).insertAll rs).Shaped resource c names := by
  have hreadings := readings_insertAll_empty c resource (hnames ▸ hnodup)
  refine ⟨timestamp_insertAll, resource_insertAll, ?_, ?_⟩
  · rw [Row.names, hreadings, hnames]
  · rw [hreadings]
    exact hstamped

/-! ## Rows up to an instant -/

/-- The readings carry the timestamp of the row. -/
def Stamped (row : Row α) : Prop :=
  ∀ r ∈ row.readings, r.timestamp.nanos = row.timestamp.nanos

/-- Each row is later than the one before it. -/
def Ascending (rows : List (Row α)) : Prop :=
  rows.Pairwise fun a b => a.timestamp < b.timestamp

instance (row : Row α) : Decidable row.Stamped :=
  inferInstanceAs (Decidable (∀ r ∈ row.readings, _))

instance (rows : List (Row α)) : Decidable (Ascending rows) :=
  inferInstanceAs (Decidable (rows.Pairwise _))

/-- The rows before the first that is later than `c`. -/
def upTo (c : Timestamp) (rows : List (Row α)) : List (Row α) :=
  rows.takeWhile (·.timestamp ≤ c)

/-- The rows from the first on that is later than `c`. -/
def after (c : Timestamp) (rows : List (Row α)) : List (Row α) :=
  rows.dropWhile (·.timestamp ≤ c)

section UpTo

variable {p c : Timestamp} {rows : List (Row α)}

@[simp] theorem upTo_nil : upTo c ([] : List (Row α)) = [] := rfl

@[simp] theorem after_nil : after c ([] : List (Row α)) = [] := rfl

@[simp] theorem upTo_cons_of_le (h : row.timestamp ≤ c) :
    upTo c (row :: rows) = row :: upTo c rows :=
  List.takeWhile_cons_of_pos (by simpa using h)

@[simp] theorem upTo_cons_of_not_le (h : ¬ row.timestamp ≤ c) : upTo c (row :: rows) = [] :=
  List.takeWhile_cons_of_neg (by simpa using h)

@[simp] theorem after_cons_of_le (h : row.timestamp ≤ c) : after c (row :: rows) = after c rows :=
  List.dropWhile_cons_of_pos (by simpa using h)

@[simp] theorem after_cons_of_not_le (h : ¬ row.timestamp ≤ c) :
    after c (row :: rows) = row :: rows :=
  List.dropWhile_cons_of_neg (by simpa using h)

theorem upTo_append_after (c : Timestamp) (rows : List (Row α)) :
    upTo c rows ++ after c rows = rows :=
  List.takeWhile_append_dropWhile

theorem le_of_mem_upTo (h : row ∈ upTo c rows) : row.timestamp ≤ c := by
  simpa using List.mem_takeWhile_imp h

theorem upTo_subset (c : Timestamp) (rows : List (Row α)) : upTo c rows ⊆ rows :=
  List.takeWhile_subset _

theorem after_subset (c : Timestamp) (rows : List (Row α)) : after c rows ⊆ rows :=
  List.dropWhile_subset _

theorem upTo_of_le (h : p ≤ c) (rows : List (Row α)) :
    upTo c rows = upTo p rows ++ upTo c (after p rows) := by
  conv_lhs => rw [← upTo_append_after p rows]
  apply List.takeWhile_append_of_pos
  intro row hrow
  have := le_of_mem_upTo hrow
  simp only [Timestamp.le_iff, decide_eq_true_eq] at this h ⊢
  omega

theorem after_of_le (h : p ≤ c) (rows : List (Row α)) : after c rows = after c (after p rows) := by
  conv_lhs => rw [← upTo_append_after p rows]
  apply List.dropWhile_append_of_pos
  intro row hrow
  have := le_of_mem_upTo hrow
  simp only [Timestamp.le_iff, decide_eq_true_eq] at this h ⊢
  omega

theorem Ascending.upTo (h : Ascending rows) : Ascending (upTo c rows) :=
  h.sublist (List.takeWhile_sublist _)

theorem Ascending.after (h : Ascending rows) : Ascending (after c rows) :=
  h.sublist (List.dropWhile_sublist _)

theorem Ascending.upTo_eq_filter (h : Ascending rows) :
    Row.upTo c rows = rows.filter (·.timestamp ≤ c) := by
  induction rows with
  | nil => rfl
  | cons first rest ih =>
    obtain ⟨hfirst, hrest⟩ := List.pairwise_cons.1 h
    by_cases hle : first.timestamp ≤ c
    · simp [hle, ih hrest]
    · have hnone : ∀ row ∈ rest, ¬ row.timestamp ≤ c := by
        intro row hrow
        have := hfirst row hrow
        simp only [Timestamp.le_iff, Timestamp.lt_iff] at hle this ⊢
        omega
      simpa [hle] using hnone

theorem after_eq_filter (h : rows.Pairwise fun a b => a.timestamp ≤ b.timestamp) :
    after c rows = rows.filter (c < ·.timestamp) := by
  induction rows with
  | nil => rfl
  | cons first rest ih =>
    obtain ⟨hfirst, hrest⟩ := List.pairwise_cons.1 h
    by_cases hle : first.timestamp ≤ c
    · have hlt : ¬ c < first.timestamp := by
        simp only [Timestamp.le_iff, Timestamp.lt_iff] at hle ⊢
        omega
      simp [hle, hlt, ih hrest]
    · have hall : ∀ row ∈ first :: rest, c < row.timestamp := by
        intro row hrow
        have hfirst' : ∀ row ∈ rest, first.timestamp ≤ row.timestamp := hfirst
        simp only [Timestamp.le_iff, Timestamp.lt_iff] at hle hfirst' ⊢
        rcases List.mem_cons.1 hrow with rfl | hmem
        · omega
        · have := hfirst' row hmem
          omega
      rw [after_cons_of_not_le hle, List.filter_eq_self.2 (by simpa using hall)]

theorem Ascending.after_eq_filter (h : Ascending rows) :
    Row.after c rows = rows.filter (c < ·.timestamp) :=
  Row.after_eq_filter (h.imp fun hlt => Int.le_of_lt hlt)

theorem Ascending.mem_after_iff (h : Ascending rows) :
    row ∈ Row.after c rows ↔ row ∈ rows ∧ c < row.timestamp := by
  rw [h.after_eq_filter, List.mem_filter, decide_eq_true_eq]

end UpTo

end Telemetry.Row
