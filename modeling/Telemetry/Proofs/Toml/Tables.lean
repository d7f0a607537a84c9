import Mathlib.Data.List.Basic
import Telemetry.Toml.Basic

/-!
# Tables at the end of a path

While a document is read, its tables are found again from the root. Where a path leads to a table,
the whole is a function of this table, and so a change at the end of the path changes nothing else.
Each new key goes to the end of its table.
-/

namespace Telemetry.TomlNode

variable {path : List String} {key : String} {node : TomlNode} {es whole : Entries}
  {F : Entries → Entries}

/-! ## Keys -/

/-- The keys of a table. -/
def keys {α : Type} (es : List (String × α)) : List String :=
  es.map (·.1)

theorem keys_append {α : Type} (es es' : List (String × α)) :
    keys (es ++ es') = keys es ++ keys es' :=
  List.map_append

theorem lookup_eq_none {α : Type} {es : List (String × α)} (h : key ∉ keys es) :
    es.lookup key = none := by
  refine List.lookup_eq_none_iff.2 fun e he => ?_
  simp only [bne_iff_ne, ne_eq]
  rintro rfl
  exact h (List.mem_map_of_mem he)

theorem lookup_append_last {α : Type} {es : List (String × α)} (h : key ∉ keys es) (a : α) :
    (es ++ [(key, a)]).lookup key = some a := by
  rw [List.lookup_append, lookup_eq_none h, Option.none_or, List.lookup_cons_self]

/-- A new key goes to the end. -/
theorem put_of_not_mem (h : key ∉ keys es) : put key node es = es ++ [(key, node)] := by
  induction es with
  | nil => rfl
  | cons e es ih =>
    simp only [keys, List.map_cons, List.mem_cons, not_or] at h
    rw [put, if_neg fun heq => h.1 heq.symm, ih h.2]
    rfl

theorem put_append_last (h : key ∉ keys es) (old : TomlNode) :
    put key node (es ++ [(key, old)]) = es ++ [(key, node)] := by
  induction es with
  | nil => simp [put]
  | cons e es ih =>
    simp only [keys, List.map_cons, List.mem_cons, not_or] at h
    rw [List.cons_append, put, if_neg fun heq => h.1 heq.symm, ih h.2]
    rfl

theorem fieldsToToml_append (es es' : Entries) :
    fieldsToToml (es ++ es') = fieldsToToml es ++ fieldsToToml es' := by
  induction es with
  | nil => rfl
  | cons e es ih => exact congrArg (_ :: ·) ih

theorem tablesToToml_eq_map (tables : List Entries) :
    tablesToToml tables = tables.map fun es => .table (fieldsToToml es) := by
  induction tables with
  | nil => rfl
  | cons es tables ih => exact congrArg (_ :: ·) ih

/-! ## Places -/

/-- The path leads to the table `es`, and `F` puts a table into its place in the whole. The table
need not be there yet: it is made when something is put into it. -/
def Reaches (path : List String) (whole es : Entries) (F : Entries → Entries) : Prop :=
  ∀ f, change false f path false whole = (f false es).map F

/-- Whatever table `F` puts into the whole, the path leads to it. -/
def Place (path : List String) (F : Entries → Entries) : Prop :=
  ∀ es, Reaches path (F es) es F

theorem place_root : Place [] id := by
  intro es f
  rw [Option.map_id]
  rfl

/-- A change behind one more key is made in the table that the path leads to. -/
theorem change_append (f : Bool → Entries → Option Entries) (path : List String) (key : String)
    (isDotted : Bool) (es : Entries) :
    change false f (path ++ [key]) isDotted es =
      change false (fun isDotted es => change false f [key] isDotted es) path isDotted es := by
  induction path generalizing isDotted es with
  | nil => rfl
  | cons k path ih =>
    rw [List.cons_append, change, change]
    split <;> simp only [ih]

/-- A table that is missing is reached as an empty one. -/
theorem Reaches.missing (h : Reaches path whole es F) (hkey : key ∉ keys es) :
    Reaches (path ++ [key]) whole [] fun inner => F (es ++ [(key, .table true false inner)]) := by
  intro f
  rw [change_append, h, change, lookup_eq_none hkey]
  simp only [change, put_of_not_mem hkey]
  cases f false [] <;> rfl

theorem Place.table (h : Place path F) (hkey : key ∉ keys es) (passed : Bool) :
    Place (path ++ [key]) fun inner => F (es ++ [(key, .table passed false inner)]) := by
  intro inner f
  rw [change_append, h, change, lookup_append_last hkey]
  simp only [Bool.false_and, Bool.false_eq_true, if_false, change, put_append_last hkey]
  cases f false inner <;> rfl

/-- Behind the key of an array of tables stands its last table. -/
theorem Place.tables (h : Place path F) (hkey : key ∉ keys es) (earlier : List Entries) :
    Place (path ++ [key]) fun last => F (es ++ [(key, .tables earlier last)]) := by
  intro last f
  rw [change_append, h, change, lookup_append_last hkey]
  simp only [change, put_append_last hkey]
  cases f false last <;> rfl

/-! ## Headers and pairs -/

theorem Reaches.openTable (h : Reaches path whole es F) (hkey : key ∉ keys es) :
    openTable path key whole = some (F (es ++ [(key, .table false false [])])) := by
  rw [TomlNode.openTable, h]
  simp only [lookup_eq_none hkey, put_of_not_mem hkey, Option.map_some]

theorem Reaches.openItem (h : Reaches path whole es F) (hkey : key ∉ keys es) :
    openItem path key whole = some (F (es ++ [(key, .tables [] [])])) := by
  rw [TomlNode.openItem, h]
  simp only [lookup_eq_none hkey, put_of_not_mem hkey, Option.map_some]

theorem Place.openItem (h : Place path F) (hkey : key ∉ keys es) (earlier : List Entries)
    (last : Entries) : TomlNode.openItem path key (F (es ++ [(key, .tables earlier last)])) =
      some (F (es ++ [(key, .tables (earlier ++ [last]) [])])) := by
  rw [TomlNode.openItem, h]
  simp only [lookup_append_last hkey, put_append_last hkey, Option.map_some]

theorem Reaches.assign (h : Reaches path whole es F) (hkey : key ∉ keys es) (v : Toml) :
    change false (fun _ es => TomlNode.assign [] key v es) path false whole =
      some (F (es ++ [(key, .value v)])) := by
  rw [h]
  simp [TomlNode.assign, change, lookup_eq_none hkey, put_of_not_mem hkey]

end Telemetry.TomlNode
