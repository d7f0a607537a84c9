import Telemetry.Descriptor
import Telemetry.Feed.Rates
import Telemetry.Toml.Reader
import Telemetry.Toml.Writer

/-!
# Configuration

A configuration holds defaults, the level of the log, and descriptors under names. It is read from
a document, overridden by variables of the environment, checked, and written as a document again.
-/

namespace Telemetry

/-- A datasource as it is configured. -/
structure DatasourceEntry where
  label : String
  source : String
  function : Consolidation
  heartbeat : Option Duration
  xff : Option Float

/-- A calculation as it is configured. -/
structure ExpressionEntry where
  label : String
  expression : String

/-- A named descriptor. Its datasources come before its expressions. -/
structure DescriptorEntry where
  name : String
  step : Option Duration
  datasources : List DatasourceEntry
  expressions : List ExpressionEntry
  exports : List String

structure Config where
  counterWrap : CounterWrap := .wrap
  heartbeatMultiplier : Int := defaultMultiplier
  xff : Float := defaultXff
  step : Duration := defaultStep
  logLevel : String := "info"
  descriptors : List DescriptorEntry := []

namespace DescriptorEntry

/-- The draft of the descriptor, with the defaults of the configuration. -/
def draft (d : DescriptorEntry) (c : Config) : Draft :=
  let base : Draft :=
    { step := d.step.getD c.step, multiplier := c.heartbeatMultiplier, xff := c.xff }
  let withDatasources := d.datasources.foldl
    (fun draft e => draft.datasource e.label e.source e.function e.heartbeat e.xff) base
  let withExpressions := d.expressions.foldl
    (fun draft e => draft.expression e.label e.expression) withDatasources
  withExpressions.exporting d.exports

end DescriptorEntry

namespace Config

/-- The descriptor of a name. -/
def descriptor (c : Config) (name : String) : Except DescriptorError Descriptor :=
  match c.descriptors.find? (·.name = name) with
  | none => .error (.notFound name)
  | some d => (d.draft c).build

/-! ## Checking -/

/-- What is wrong with a configuration. -/
inductive Fault
  | multiplier
  | xff
  | step
  /-- The descriptor at this place, counted from one, has no name. -/
  | unnamed (place : Nat)
  | duplicate (name : String)
  | descriptor (name : String) (cause : DescriptorError)

def Fault.message : Fault → String
  | multiplier => "Heartbeat multiplier must be >= 1"
  | xff => "Default XFF must be within [0, 1]"
  | step => "Default step must be > 0"
  | unnamed place => "Descriptor #" ++ toString place ++ " has no name"
  | duplicate name => "Duplicate descriptor '" ++ name ++ "'"
  | descriptor name cause => "Descriptor '" ++ name ++ "': " ++ cause.message

/-- Checks descriptors in turn, given the names of those before them. -/
def checkDescriptors (c : Config) : List String → List DescriptorEntry → Except Fault Unit
  | _, [] => .ok ()
  | names, d :: rest =>
    if d.name.isEmpty then .error (.unnamed (names.length + 1))
    else if d.name ∈ names then .error (.duplicate d.name)
    else
      match (d.draft c).build with
      | .error e => .error (.descriptor d.name e)
      | .ok _ => checkDescriptors c (names ++ [d.name]) rest

/-- Checks the defaults, and then every descriptor. -/
def check (c : Config) : Except Fault Unit :=
  if c.heartbeatMultiplier < 1 then .error .multiplier
  else if !(0 ≤ c.xff && c.xff ≤ 1) then .error .xff
  else if c.step.isZero then .error .step
  else c.checkDescriptors [] c.descriptors

/-! ## The environment -/

/-- The variables that override a configuration. -/
structure Environment where
  counterWrap : Option String := none
  heartbeatMultiplier : Option String := none
  xff : Option String := none
  logLevel : Option String := none

/-- Overrides what the environment sets. A setting that cannot be read is passed over. -/
def override (c : Config) (e : Environment) : Config :=
  { c with
    counterWrap := (e.counterWrap.bind fun s => CounterWrap.ofName? s.toLower).getD c.counterWrap
    heartbeatMultiplier :=
      (e.heartbeatMultiplier.bind fun s => readTicks? s.toList).getD c.heartbeatMultiplier
    xff := (e.xff.bind fun s => readFloat? s.toList).getD c.xff
    logLevel := e.logLevel.getD c.logLevel }

end Config

/-! ## Reading a document -/

namespace Toml

def string? : Toml → Option String
  | string s => some s
  | _ => none

def integerValue? : Toml → Option Int
  | integer n => some n
  | _ => none

/-- A number; an integer will do. -/
def number? : Toml → Option Float
  | float x => some x
  | integer n => some (Float.ofInt n)
  | _ => none

def items? : Toml → Option (List Toml)
  | array items => some items
  | _ => none

/-- A name: a string, or a table with nothing but an empty value under the name. -/
def name? : Toml → Option String
  | string s => some s
  | table [(name, table [])] => some name
  | table [(name, array [])] => some name
  | _ => none

def duration? (v : Toml) : Option Duration := do
  Duration.parse? (← v.string?)

/-- The fields of a record with these names: those of a table, or the items of an array in
order. A date or a time is a record that has none of them. -/
def record? (names : List String) : Toml → Option (List (String × Toml))
  | table fields => some fields
  | array items => some (names.zip items)
  | moment _ => some []
  | _ => none

/-- Reads a field that has to be there. -/
def required {α : Type} (fields : List (String × Toml)) (name : String)
    (read : Toml → Option α) : Option α :=
  (fields.lookup name).bind read

/-- Reads a field that may be left out. -/
def withDefault {α : Type} (fields : List (String × Toml)) (name : String)
    (read : Toml → Option α) (default : α) : Option α :=
  match fields.lookup name with
  | none => some default
  | some v => read v

/-- Reads a list of values. -/
def list? {α : Type} (read : Toml → Option α) (v : Toml) : Option (List α) := do
  (← v.items?).mapM read

end Toml

open Toml

def DatasourceEntry.ofToml? (v : Toml) : Option DatasourceEntry := do
  let fields ← record? ["label", "source", "function", "heartbeat", "xff"] v
  return {
    label := ← required fields "label" string?
    source := ← required fields "source" string?
    function := ← withDefault fields "function" (fun v => v.name?.bind Consolidation.ofName?)
      .average
    heartbeat := ← withDefault fields "heartbeat" (fun v => v.duration?.map some) none
    xff := ← withDefault fields "xff" (fun v => v.number?.map some) none }

def ExpressionEntry.ofToml? (v : Toml) : Option ExpressionEntry := do
  let fields ← record? ["label", "expression"] v
  return {
    label := ← required fields "label" string?
    expression := ← required fields "expression" string? }

def DescriptorEntry.ofToml? (v : Toml) : Option DescriptorEntry := do
  let fields ← record? ["name", "step", "datasources", "expressions", "exports"] v
  return {
    name := ← required fields "name" string?
    step := ← withDefault fields "step" (fun v => v.duration?.map some) none
    datasources := ← withDefault fields "datasources" (list? DatasourceEntry.ofToml?) []
    expressions := ← withDefault fields "expressions" (list? ExpressionEntry.ofToml?) []
    exports := ← withDefault fields "exports" (list? string?) [] }

namespace Config

/-- Reads the defaults for descriptors and queries. -/
def withPipeline (c : Config) (v : Toml) : Option Config := do
  let fields ← record? ["counter_wrap", "heartbeat_multiplier", "default_xff", "default_step"] v
  return { c with
    counterWrap := ← withDefault fields "counter_wrap"
      (fun v => v.name?.bind CounterWrap.ofName?) c.counterWrap
    heartbeatMultiplier := ← withDefault fields "heartbeat_multiplier" integerValue?
      c.heartbeatMultiplier
    xff := ← withDefault fields "default_xff" number? c.xff
    step := ← withDefault fields "default_step" duration? c.step }

/-- Reads the settings of the log. -/
def withMonitoring (c : Config) (v : Toml) : Option Config := do
  let fields ← record? ["log_level"] v
  return { c with logLevel := ← withDefault fields "log_level" string? c.logLevel }

/-- Reads a configuration from the fields of a document. What the document leaves out keeps its
default, and keys that mean nothing are passed over. -/
def ofToml? (fields : List (String × Toml)) : Option Config := do
  let c : Config := {}
  let c ← withDefault fields "pipeline" c.withPipeline c
  let c ← withDefault fields "monitoring" c.withMonitoring c
  return { c with
    descriptors := ← withDefault fields "descriptors" (list? DescriptorEntry.ofToml?) [] }

/-- Reads a configuration from the text of a document. -/
def parse? (text : String) : Option Config := do
  ofToml? (← Toml.parse? text)

end Config

/-! ## Writing a document -/

/-- A field, if there is a value for it. -/
def Toml.optionalField (key : String) (value : Option Toml) : List (String × Toml) :=
  match value with
  | some v => [(key, v)]
  | none => []

def Duration.toToml (d : Duration) : Toml :=
  .string d.text

def DatasourceEntry.toToml (e : DatasourceEntry) : Toml :=
  .table ([("label", .string e.label), ("source", .string e.source),
      ("function", .string e.function.name)]
    ++ optionalField "heartbeat" (e.heartbeat.map (·.toToml))
    ++ optionalField "xff" (e.xff.map .float))

def ExpressionEntry.toToml (e : ExpressionEntry) : Toml :=
  .table [("label", .string e.label), ("expression", .string e.expression)]

def DescriptorEntry.toToml (d : DescriptorEntry) : Toml :=
  .table ([("name", .string d.name)] ++ optionalField "step" (d.step.map (·.toToml))
    ++ [("datasources", .array (d.datasources.map (·.toToml))),
      ("expressions", .array (d.expressions.map (·.toToml))),
      ("exports", .array (d.exports.map .string))])

namespace Config

/-- The fields of a configuration's document. -/
def toToml (c : Config) : List (String × Toml) :=
  [("pipeline", .table
      [("counter_wrap", .string c.counterWrap.name),
        ("heartbeat_multiplier", .integer c.heartbeatMultiplier),
        ("default_xff", .float c.xff),
        ("default_step", c.step.toToml)]),
    ("monitoring", .table [("log_level", .string c.logLevel)]),
    ("descriptors", .array (c.descriptors.map (·.toToml)))]

/-- The text of a configuration's document. -/
def text (c : Config) : String :=
  Toml.document c.toToml

/-- Why a configuration cannot be loaded or saved. -/
inductive FileError
  | unreadable (path reason : String)
  /-- The document is not well formed, or it is no configuration. -/
  | malformed (path : String)
  | unwritable (path reason : String)

def FileError.message : FileError → String
  | unreadable path reason => "Failed to read config file " ++ path ++ ": " ++ reason
  | malformed path => "Failed to parse config file " ++ path
  | unwritable path reason => "Failed to write config file " ++ path ++ ": " ++ reason

end Config

end Telemetry
