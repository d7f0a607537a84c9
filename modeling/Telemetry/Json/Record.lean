import Telemetry.Json.Basic
import Telemetry.Consolidation
import Telemetry.Feed.Rates

/-!
# Values and readings as JSON

Names and times are strings and numbers; a typed value is an object of its kind and its number; a
reading is an object of its fields. Reading accepts the fields of an object in any order, with
others between them, or all fields in order as an array.
-/

namespace Telemetry

namespace Json

def string? : Json → Option String
  | .string parts => (text? parts).map String.ofList
  | _ => none

def float? : Json → Option Float
  | .number l => l.float?
  | _ => none

def signed? : Json → Option Int
  | .number l => l.signed?
  | _ => none

def word? : Json → Option UInt64
  | .number l => l.word?
  | _ => none

/-- A name: a string, or an object with nothing but `null` under the name. -/
def name? : Json → Option String
  | .string parts => (text? parts).map String.ofList
  | .object [(key, .null)] => (text? key).map String.ofList
  | _ => none

/-- The keys of an object's fields as texts; all have to be. -/
def keyed? (fields : List (List StringPart × Json)) : Option (List (String × Json)) :=
  fields.mapM fun (key, value) => (text? key).map fun k => (String.ofList k, value)

/-- The fields of a record with these names: those of an object, none twice, or the items of an
array in order. -/
def record? (names : List String) : Json → Option (List (String × Json))
  | .object fields => do
    let known := (← keyed? fields).filter (·.1 ∈ names)
    if (known.map (·.1)).Nodup then return known else none
  | .array items => if items.length ≤ names.length then some (names.zip items) else none
  | _ => none

/-- The field of a record. -/
def field? (fields : List (String × Json)) (name : String) : Option Json :=
  fields.lookup name

end Json

open Json

namespace Duration

def toJson (d : Duration) : Json :=
  ofString d.text

def ofJson? (j : Json) : Option Duration := do
  parse? (← j.string?)

end Duration

namespace Timestamp

/-- An instant is written in whole milliseconds. -/
def toJson (t : Timestamp) : Json :=
  ofInt t.millis

def ofJson? (j : Json) : Option Timestamp := do
  return ofTicks (← j.signed?) .milliseconds

end Timestamp

def TimeUnit.toJson (u : TimeUnit) : Json :=
  ofString u.name

def TimeUnit.ofJson? (j : Json) : Option TimeUnit := do
  ofName? (← j.name?)

def MetricKind.toJson (k : MetricKind) : Json :=
  ofString k.name

def MetricKind.ofJson? (j : Json) : Option MetricKind := do
  ofName? (← j.name?)

def Consolidation.toJson (f : Consolidation) : Json :=
  ofString f.name

def Consolidation.ofJson? (j : Json) : Option Consolidation := do
  ofName? (← j.name?)

def CounterWrap.toJson (w : CounterWrap) : Json :=
  ofString w.name

def CounterWrap.ofJson? (j : Json) : Option CounterWrap := do
  ofName? (← j.name?)

namespace Attributes

def toJson (a : Attributes) : Json :=
  ofFields (a.entries.map fun (k, v) => (k, ofString v))

/-- Attributes; of two under one key the later one stands. -/
def ofJson? : Json → Option Attributes
  | .object fields => do
    let entries ← (← keyed? fields).mapM fun (k, v) => v.string?.map (k, ·)
    return ofList entries
  | _ => none

/-- Attributes that may be missing, or `null`. -/
def ofField? : Option Json → Option (Option Attributes)
  | none | some .null => some none
  | some j => (ofJson? j).map some

end Attributes

namespace Value

/-- The number of a value: a word for what counts, as it is stored. -/
def numberJson : Value → Json
  | gauge x => ofFloat x
  | counter w | derive w | absolute w => ofInt w.toNat

def toJson (v : Value) : Json :=
  ofFields [("type", v.kind.toJson), ("value", v.numberJson)]

/-- The value of a kind. -/
def ofKind? (j : Json) : MetricKind → Option Value
  | .gauge => j.float?.map gauge
  | .counter => j.word?.map counter
  | .derive => j.word?.map derive
  | .absolute => j.word?.map absolute

def ofJson? (j : Json) : Option Value := do
  let fields ← record? ["type", "value"] j
  let kind ← MetricKind.ofJson? (← field? fields "type")
  ofKind? (← field? fields "value") kind

end Value

namespace Reading

variable {α : Type}

/-- A reading as an object, its fields in order of their names. -/
def toJson (value : α → Json) (r : Reading α) : Json :=
  let attributes := match r.attributes with
    | none => []
    | some a => [("attributes", a.toJson)]
  ofFields (attributes ++
    [("name", ofString r.name), ("resource", ofString r.resource),
      ("timestamp", r.timestamp.toJson), ("value", value r.value)])

def ofJson? (value? : Json → Option α) (j : Json) : Option (Reading α) := do
  let fields ← record? ["timestamp", "resource", "name", "value", "attributes"] j
  let timestamp ← Timestamp.ofJson? (← field? fields "timestamp")
  let resource ← (← field? fields "resource").string?
  let name ← (← field? fields "name").string?
  let value ← value? (← field? fields "value")
  let attributes ← Attributes.ofField? (field? fields "attributes")
  return { timestamp, resource, name, value, attributes }

end Reading

def Sample.toJson (s : Sample) : Json :=
  Reading.toJson Value.toJson s

def Sample.ofJson? (j : Json) : Option Sample :=
  Reading.ofJson? Value.ofJson? j

def Measurement.toJson (m : Measurement) : Json :=
  Reading.toJson ofFloat m

def Measurement.ofJson? (j : Json) : Option Measurement :=
  Reading.ofJson? Json.float? j

namespace Row

variable {α : Type}

def toJson (value : α → Json) (row : Row α) : Json :=
  ofFields
    [("elements", array (row.readings.map (·.toJson value))),
      ("resource", ofString row.resource), ("timestamp", row.timestamp.toJson)]

/-- Rows in order, as one object. -/
def listToJson (value : α → Json) (rows : List (Row α)) : Json :=
  ofFields [("rows", array (rows.map (·.toJson value)))]

end Row

end Telemetry
