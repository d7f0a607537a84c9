import Telemetry.Value
import Telemetry.Attributes
import Telemetry.Time.Timestamp

/-!
# Readings and rows

A reading is what one metric of one resource showed at one instant: a sample carries a typed
value, a measurement a plain number. A row holds the readings of one resource at one instant in
the order in which they came, no two of one name.
-/

namespace Telemetry

/-- What one metric of one resource showed at one instant. -/
structure Reading (α : Type) where
  timestamp : Timestamp
  resource : String
  name : String
  value : α
  attributes : Option Attributes

/-- A raw, typed observation of one metric. -/
abbrev Sample := Reading Value

/-- A derived number under a label; one that is not a number is unknown. -/
abbrev Measurement := Reading Float

/-- What is no number. -/
def unknown : Float := Float.ofBits 0x7FF8000000000000

/-- The measurement of which nothing is known. -/
def Measurement.unknown (timestamp : Timestamp) (resource name : String) : Measurement :=
  { timestamp, resource, name, value := Telemetry.unknown, attributes := none }

/-- The readings of one resource at one instant, each name at most once. -/
structure Row (α : Type) where
  timestamp : Timestamp
  resource : String
  readings : List (Reading α)
  nodup : (readings.map (·.name)).Nodup

namespace Row

variable {α : Type}

def empty (timestamp : Timestamp) (resource : String) : Row α :=
  ⟨timestamp, resource, [], .nil⟩

/-- The reading of a name. -/
def get? (row : Row α) (name : String) : Option (Reading α) :=
  row.readings.find? (·.name = name)

/-- Puts a reading where one of its name stands, or behind all others. -/
def place (r : Reading α) : List (Reading α) → List (Reading α)
  | [] => [r]
  | s :: rest => if s.name = r.name then r :: rest else s :: place r rest

theorem mem_names_place {r : Reading α} {l : List (Reading α)} {n : String}
    (h : n ∈ (place r l).map (·.name)) : n = r.name ∨ n ∈ l.map (·.name) := by
  induction l with
  | nil => simpa [place] using h
  | cons s rest ih =>
    simp only [place] at h
    split at h
    · simp only [List.map_cons, List.mem_cons] at h ⊢
      exact h.imp_right .inr
    · simp only [List.map_cons, List.mem_cons] at h ⊢
      rcases h with h | h
      · exact .inr (.inl h)
      · exact (ih h).imp_right .inr

theorem nodup_place {r : Reading α} {l : List (Reading α)} (h : (l.map (·.name)).Nodup) :
    ((place r l).map (·.name)).Nodup := by
  induction l with
  | nil => simp [place]
  | cons s rest ih =>
    obtain ⟨hs, hrest⟩ := List.nodup_cons.1 h
    simp only [place]
    split
    next heq => exact List.nodup_cons.2 ⟨by simpa only [← heq] using hs, hrest⟩
    next hne =>
      refine List.nodup_cons.2 ⟨fun hmem => ?_, ih hrest⟩
      rcases mem_names_place hmem with h | h
      · exact hne h
      · exact hs h

/-- Adds a reading; it takes the place of one of the same name. -/
def insert (row : Row α) (r : Reading α) : Row α :=
  { row with readings := place r row.readings, nodup := nodup_place row.nodup }

def insertAll (row : Row α) (rs : List (Reading α)) : Row α :=
  rs.foldl insert row

def size (row : Row α) : Nat :=
  row.readings.length

def isEmpty (row : Row α) : Bool :=
  row.readings.isEmpty

@[simp] theorem timestamp_insert (row : Row α) (r : Reading α) :
    (row.insert r).timestamp = row.timestamp := rfl

@[simp] theorem resource_insert (row : Row α) (r : Reading α) :
    (row.insert r).resource = row.resource := rfl

end Row

end Telemetry
