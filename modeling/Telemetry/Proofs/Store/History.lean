import Mathlib.Data.Finset.Card
import Mathlib.Data.List.Induction
import Telemetry.Proofs.Descriptor
import Telemetry.Proofs.Scan
import Telemetry.Proofs.Store.Basic

/-!
# What a history of writes leaves in a store

A sample is stored under its key: its resource, its instant and its name. After any history of
writes the row of a resource and an instant has been filled with just the samples of the history
that belong there, one after the other. So the reading of a key is the last sample of that key,
and the readings of a row stand in the order in which their names came first.
-/

namespace Telemetry

/-- What a reading is stored under: its resource, its instant and its name. -/
def Reading.key {α : Type} (r : Reading α) : String × Int × String :=
  (r.resource, r.timestamp.nanos, r.name)

namespace Store

variable {store : Store} {samples : List Sample} {resource name : String} {n : Int}

/-! ## Stored samples by their keys -/

/-- The samples of a resource at an instant. -/
def samplesAt (samples : List Sample) (resource : String) (n : Int) : List Sample :=
  samples.filter fun s => s.resource = resource ∧ s.timestamp.nanos = n

theorem samplesAt_concat (samples : List Sample) (s : Sample) (resource : String) (n : Int) :
    samplesAt (samples ++ [s]) resource n =
      if s.resource = resource ∧ s.timestamp.nanos = n then samplesAt samples resource n ++ [s]
      else samplesAt samples resource n := by
  by_cases h : s.resource = resource ∧ s.timestamp.nanos = n <;> simp [samplesAt, h]

/-- The last sample that was stored under a key. -/
def latest (samples : List Sample) (key : String × Int × String) : Option Sample :=
  (samples.filter (·.key = key)).getLast?

theorem insertAll_concat (store : Store) (samples : List Sample) (s : Sample) :
    store.insertAll (samples ++ [s]) = (store.insertAll samples).insert s :=
  List.foldl_concat _ _ _ _

theorem sorted_insertAll_empty (samples : List Sample) : (empty.insertAll samples).Sorted :=
  sorted_empty.insertAll samples

theorem mem_resources_insertAll_empty :
    resource ∈ (empty.insertAll samples).resources ↔ ∃ s ∈ samples, s.resource = resource := by
  induction samples using List.reverseRecOn with
  | nil => simp [insertAll, resources, empty]
  | append_singleton samples s ih =>
    rw [insertAll_concat, mem_resources_insert, ih]
    grind

/-- The row of a resource and an instant was filled with the samples of that resource and that
instant, and the first of them said in which unit the instant is written. -/
theorem row?_insertAll_empty (samples : List Sample) (resource : String) (n : Int) :
    (empty.insertAll samples).row? resource n =
      (samplesAt samples resource n).head?.map fun first =>
        (Row.empty first.timestamp resource).insertAll (samplesAt samples resource n) := by
  induction samples using List.reverseRecOn with
  | nil => rfl
  | append_singleton samples s ih =>
    rw [insertAll_concat, row?_insert (sorted_insertAll_empty samples), ih, samplesAt_concat]
    split
    next hs =>
      cases samplesAt samples resource n with
      | nil => rfl
      | cons first rest => exact congrArg some (Row.insertAll_concat _ (first :: rest) s).symm
    next => simp

theorem exists_row?_iff : (∃ row, (empty.insertAll samples).row? resource n = some row) ↔
    ∃ s ∈ samples, s.resource = resource ∧ s.timestamp.nanos = n := by
  rw [← Option.isSome_iff_exists, row?_insertAll_empty, Option.isSome_map, List.isSome_head?]
  simp [samplesAt]

theorem getLast?_samplesAt (samples : List Sample) (resource : String) (n : Int) (name : String) :
    ((samplesAt samples resource n).filter (·.name = name)).getLast? =
      latest samples (resource, n, name) := by
  rw [samplesAt, List.filter_filter, latest]
  congr 1
  apply List.filter_congr
  intro s _
  simp only [Reading.key, Prod.mk.injEq, ← Bool.decide_and]
  grind

/-- What is stored under a key. -/
def lookup (store : Store) (key : String × Int × String) : Option Sample :=
  (store.row? key.1 key.2.1).bind (·.get? key.2.2)

theorem lookup_insertAll_empty (samples : List Sample) (key : String × Int × String) :
    (empty.insertAll samples).lookup key = latest samples key := by
  obtain ⟨resource, n, name⟩ := key
  rw [lookup, row?_insertAll_empty, ← getLast?_samplesAt]
  cases h : samplesAt samples resource n with
  | nil => rfl
  | cons first rest => exact Row.get?_insertAll_empty _ _ _ _

theorem latest_isSome {key : String × Int × String} :
    (latest samples key).isSome ↔ key ∈ samples.map (·.key) := by
  simp [latest]

/-! ## All keys of a store -/

/-- The keys under which something is stored. -/
def keys (store : Store) : List (String × Int × String) :=
  store.series.flatMap fun x => x.rows.flatMap fun row =>
    row.names.map fun name => (x.resource, row.timestamp.nanos, name)

theorem length_keys (store : Store) : store.keys.length = store.size := by
  obtain ⟨series⟩ := store
  unfold keys size
  rw [← List.sum_eq_foldl]
  induction series with
  | nil => rfl
  | cons x rest ih =>
    simp only [List.flatMap_cons, List.length_append, List.map_append, List.sum_append, ih]
    simp only [List.length_flatMap, List.length_map, Row.names]
    rfl

/-- Keys of different resources differ in the first component, keys of different instants in the
second, and keys of one row in the last. -/
theorem nodup_keys (h : store.Sorted) : store.keys.Nodup := by
  refine List.nodup_flatMap.2 ⟨fun x hx => List.nodup_flatMap.2 ⟨fun row _ => ?_, ?_⟩, ?_⟩
  · refine List.Nodup.map (fun a b hab => ?_) row.nodup
    exact (Prod.mk.inj (Prod.mk.inj hab).2).2
  · refine (h.rows x hx).imp fun {a b} hlt key ha hb => ?_
    obtain ⟨_, -, rfl⟩ := List.mem_map.1 ha
    obtain ⟨_, -, heq⟩ := List.mem_map.1 hb
    exact (Timestamp.lt_iff.1 hlt).ne' (Prod.mk.inj (Prod.mk.inj heq).2).1
  · refine h.resources.imp fun {x y} hlt key hx hy => ?_
    simp only [List.mem_flatMap, List.mem_map] at hx hy
    obtain ⟨_, -, _, -, rfl⟩ := hx
    obtain ⟨_, -, _, -, heq⟩ := hy
    exact hlt.ne' (Prod.mk.inj heq).1

theorem mem_keys (h : store.Sorted) {key : String × Int × String} :
    key ∈ store.keys ↔ (store.lookup key).isSome := by
  obtain ⟨resource, n, name⟩ := key
  have hlookup : (store.lookup (resource, n, name)).isSome ↔
      ∃ row ∈ store.rows resource, row.timestamp.nanos = n ∧ name ∈ row.names := by
    simp only [lookup, row?, Option.isSome_iff_exists, Option.bind_eq_some_iff,
      (h.rows_ascending resource).at?_eq_some_iff, Row.mem_names_iff]
    grind
  simp only [hlookup, h.mem_rows_iff, keys, List.mem_flatMap, List.mem_map, Prod.mk.injEq]
  grind

theorem size_insertAll_empty (samples : List Sample) :
    (empty.insertAll samples).size = (samples.map (·.key)).toFinset.card := by
  have hsorted := sorted_insertAll_empty samples
  have hkeys : (empty.insertAll samples).keys.toFinset = (samples.map (·.key)).toFinset := by
    ext key
    rw [List.mem_toFinset, List.mem_toFinset, mem_keys hsorted, lookup_insertAll_empty,
      latest_isSome]
  rw [← length_keys, ← hkeys, List.toFinset_card_of_nodup (nodup_keys hsorted)]

/-! ## Histories of writes -/

/-- A call that stores one sample, or many at once. -/
inductive Write
  | one (s : Sample)
  | many (samples : List Sample)

/-- The samples that are stored by a call. -/
def Write.stored : Write → List Sample
  | one s => [s]
  | many samples => samples

def write (store : Store) : Write → Store
  | .one s => store.insert s
  | .many samples => store.insertAll samples

/-- What a new store holds after a history of writes. -/
def written (writes : List Write) : Store :=
  writes.foldl write empty

theorem written_eq (writes : List Write) :
    written writes = empty.insertAll (writes.flatMap Write.stored) := by
  have hwrite (store : Store) (w : Write) : store.write w = store.insertAll w.stored := by
    cases w <;> rfl
  rw [written, insertAll, List.foldl_flatMap]
  exact List.foldl_ext _ _ _ fun store w _ => hwrite store w

/-! ## What is selected -/

theorem mem_select {row : Row Value} {start finish : Timestamp} :
    row ∈ store.select resource start finish ↔
      row ∈ store.rows resource ∧ start ≤ row.timestamp ∧ row.timestamp ≤ finish := by
  simp [select]

theorem Sorted.select_ascending (h : store.Sorted) (resource : String)
    (start finish : Timestamp) : Row.Ascending (store.select resource start finish) :=
  (h.rows_ascending resource).filter _

theorem select_inverted {start finish : Timestamp} (h : finish < start) (store : Store)
    (resource : String) : store.select resource start finish = [] := by
  refine List.filter_eq_nil_iff.2 fun row _ => ?_
  simp only [Timestamp.lt_iff, Timestamp.le_iff, Bool.and_eq_true, decide_eq_true_eq] at h ⊢
  omega

/-- A selected row is what the store holds under its instant. -/
theorem Sorted.row?_of_mem_select (h : store.Sorted) {row : Row Value} {start finish : Timestamp}
    (hrow : row ∈ store.select resource start finish) :
    store.row? resource row.timestamp.nanos = some row :=
  (h.rows_ascending resource).at?_nanos (mem_select.1 hrow).1

/-- A row of a store has the readings of its resource and its instant: of each name the last sample
that was stored, in the order in which the names came first. -/
structure Gathers (samples : List Sample) (resource : String) (row : Row Value) : Prop where
  resource_eq : row.resource = resource
  names_eq : row.names =
    ((samplesAt samples resource row.timestamp.nanos).map (·.name)).eraseDups
  latest_eq : ∀ r ∈ row.readings, r.key = (resource, row.timestamp.nanos, r.name) ∧
    latest samples r.key = some r

theorem gathers_of_row? {row : Row Value}
    (h : (empty.insertAll samples).row? resource n = some row) : Gathers samples resource row := by
  have hn : row.timestamp.nanos = n := Row.nanos_of_at? h
  have hrow := h
  rw [row?_insertAll_empty, Option.map_eq_some_iff] at hrow
  obtain ⟨first, -, hfilled⟩ := hrow
  refine ⟨by rw [← hfilled]; exact Row.resource_insertAll, ?_, fun r hr => ?_⟩
  · rw [hn, ← hfilled, Row.names_insertAll_empty]
  · have hlatest : latest samples (resource, n, r.name) = some r := by
      rw [← lookup_insertAll_empty, lookup, h]
      exact Row.get?_name hr
    have hkey : r.key = (resource, n, r.name) := by
      simpa using (List.mem_filter.1 (List.mem_of_getLast? hlatest)).2
    rw [hn, hkey]
    exact ⟨rfl, hlatest⟩

/-- A scan of the resource lets all selected rows through. -/
theorem valid_select (samples : List Sample) (resource : String) (start finish : Timestamp) :
    Feed.Valid resource ((empty.insertAll samples).select resource start finish) := by
  have hsorted := sorted_insertAll_empty samples
  exact ⟨fun row hrow => (gathers_of_row? (hsorted.row?_of_mem_select hrow)).resource_eq,
    hsorted.select_ascending resource start finish⟩

theorem exists_mem_select_iff {start finish : Timestamp} :
    (∃ row ∈ (empty.insertAll samples).select resource start finish, row.timestamp.nanos = n) ↔
      (start.nanos ≤ n ∧ n ≤ finish.nanos) ∧
        ∃ s ∈ samples, s.resource = resource ∧ s.timestamp.nanos = n := by
  have hascending := (sorted_insertAll_empty samples).rows_ascending resource
  simp only [mem_select, ← exists_row?_iff, row?, hascending.at?_eq_some_iff, Timestamp.le_iff]
  grind

/-- What a store shows is what a finite map from keys to samples holds, in which every sample of a
history has replaced the sample before it under its key. The readings of one row never share a
name. -/
structure Reflects (store : Store) (samples : List Sample) : Prop where
  size_eq : store.size = (samples.map (·.key)).toFinset.card
  mem_resources : ∀ resource, resource ∈ store.resources ↔ ∃ s ∈ samples, s.resource = resource
  resources_ascending : store.resources.Pairwise (· < ·)
  select_ascending : ∀ resource start finish, Row.Ascending (store.select resource start finish)
  select_instants : ∀ resource start finish n,
    (∃ row ∈ store.select resource start finish, row.timestamp.nanos = n) ↔
      (start.nanos ≤ n ∧ n ≤ finish.nanos) ∧
        ∃ s ∈ samples, s.resource = resource ∧ s.timestamp.nanos = n
  select_rows : ∀ resource start finish, ∀ row ∈ store.select resource start finish,
    Gathers samples resource row
  select_inverted : ∀ resource (start finish : Timestamp), finish < start →
    store.select resource start finish = []
  scan_eq : ∀ resource start finish,
    (Feed.ofRows (store.select resource start finish)).scan resource =
      Feed.ofRows (store.select resource start finish)

/-- After every history of writes a new store reflects the samples that were written. -/
theorem reflects_written (writes : List Write) :
    (written writes).Reflects (writes.flatMap Write.stored) := by
  rw [written_eq]
  have hsorted := sorted_insertAll_empty (writes.flatMap Write.stored)
  exact
    { size_eq := size_insertAll_empty _
      mem_resources := fun _ => mem_resources_insertAll_empty
      resources_ascending := List.pairwise_map.2 hsorted.resources
      select_ascending := hsorted.select_ascending
      select_instants := fun _ _ _ _ => exists_mem_select_iff
      select_rows := fun _ _ _ _ hrow => gathers_of_row? (hsorted.row?_of_mem_select hrow)
      select_inverted := fun resource _ _ hinverted => select_inverted hinverted _ resource
      scan_eq := fun resource start finish =>
        Feed.scan_ofRows (valid_select _ resource start finish) }

end Store

end Telemetry
