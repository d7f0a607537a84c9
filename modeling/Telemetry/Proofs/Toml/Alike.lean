import Telemetry.Proofs.Fallible
import Telemetry.Proofs.Toml.Document

/-!
# Documents that hold the same

What is read of a document need not be the tree that was written, but only one that holds the same:
the same texts and numbers, arrays item by item, and under every key the same, in whatever order the
keys stand. A writer and a reader that give such a tree back restore it. The documents of this
library are restored by `parse?`, which finds the pairs of a table before the tables within it.
-/

namespace Telemetry.Toml

open TomlNode

variable {fields : List (String × Toml)} {v : Toml} {n : Nat}

/-- Nobody who asks for texts, numbers, items and fields tells the trees apart. -/
inductive Alike : Toml → Toml → Prop
  | string (s : String) : Alike (.string s) (.string s)
  | integer (n : Int) : Alike (.integer n) (.integer n)
  | float (x : Float) : Alike (.float x) (.float x)
  | bool (b : Bool) : Alike (.bool b) (.bool b)
  | array {items items' : List Toml} (h : List.Forall₂ Alike items items') :
      Alike (.array items) (.array items')
  | table {fields fields' : List (String × Toml)}
      (h : ∀ key, Option.Rel Alike (fields.lookup key) (fields'.lookup key)) :
      Alike (.table fields) (.table fields')

/-- What is read of the document that is written of these fields holds the same. -/
def Restores (write : List (String × Toml) → String)
    (read? : String → Option (List (String × Toml))) (fields : List (String × Toml)) : Prop :=
  ∃ fields', read? (write fields) = some fields' ∧ Alike (.table fields) (.table fields')

/-! ## Documents that are restored -/

theorem IsScalar.alike (h : v.IsScalar) : v.Alike v := by
  cases v with
  | string s => exact .string s
  | integer n => exact .integer n
  | float x => exact .float x
  | bool b => exact .bool b
  | _ => exact h.elim

theorem OnLine.alike (h : v.OnLine) : v.Alike v := by
  cases h with
  | scalar h => exact h.alike
  | array h => exact .array (List.forall₂_same.2 fun item hitem => (h item hitem).alike)

theorem alike_settle_table (hkeys : (keys fields).Nodup) (h : ∀ f ∈ fields, Laid n f.2)
    (ih : ∀ f ∈ fields, f.2.Alike f.2.settle) : Alike (.table fields) (settle (.table fields)) := by
  refine .table fun key => ?_
  have hlookup : (settleFields fields).lookup key = (fields.lookup key).map settle :=
    lookup_settleFields hkeys h key
  rw [settleFields] at hlookup
  rw [hlookup]
  cases hkey : fields.lookup key with
  | none => exact .none
  | some v =>
    have hmem : (key, v) ∈ fields := by
      obtain ⟨before, after, rfl, -⟩ := List.lookup_eq_some_iff.1 hkey
      exact List.mem_append_right _ List.mem_cons_self
    exact .some (ih _ hmem)

/-- The induction runs over the nesting of tables. -/
theorem Laid.alike_settle (h : Laid n v) : v.Alike v.settle := by
  induction h with
  | line h => rw [h.settle]; exact h.alike
  | table hkeys h ih => exact alike_settle_table hkeys h ih
  | @tables n items _ hkeys h ih =>
    rw [settle, settleItems_eq_map, List.map_map]
    refine .array ?_
    rw [List.forall₂_map_left_iff, List.forall₂_map_right_iff]
    exact List.forall₂_same.2 fun fields hfields =>
      alike_settle_table (hkeys fields hfields) (h fields hfields) (ih fields hfields)

theorem restores_document (hkeys : (keys fields).Nodup)
    (h : ∀ f ∈ fields, Laid (depthLimit - 1) f.2) : Restores document parse? fields :=
  ⟨settleFields fields, parse?_document hkeys h,
    alike_settle_table hkeys h fun f hf => (h f hf).alike_settle⟩

end Telemetry.Toml
