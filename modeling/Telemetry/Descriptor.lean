import Telemetry.Consolidation
import Telemetry.Error
import Telemetry.Expression.Parser

/-!
# Descriptors

A descriptor says what a query produces: the step of the primary points, the datasources read from
samples, the calculations over other labels, and the labels that are exported. It is built from a
draft, whose definitions are checked in the order in which they were added.
-/

namespace Telemetry

/-- One metric under a label of its own, and how its points are made and consolidated. -/
structure Datasource where
  label : String
  source : String
  /-- The longest gap between samples that still counts as known. -/
  heartbeat : Duration
  /-- The part of a bucket's points that has to be exceeded by the known ones. -/
  xff : Float
  function : Consolidation

/-- What a calculation reads. -/
inductive Operand
  | label (name : String)
  | constant (x : Float)

/-- A number derived from other labels of the same row. -/
structure Calculation where
  label : String
  function : List Float → Float
  operands : List Operand

/-- A checked description of a query's output. -/
structure Descriptor where
  step : Duration
  datasources : List Datasource
  calculations : List Calculation
  exports : List String

namespace Descriptor

/-- The datasource of a label. -/
def datasource? (d : Descriptor) (label : String) : Option Datasource :=
  d.datasources.find? (·.label = label)

/-- The distinct metrics that are read, in order of first use. -/
def sources (d : Descriptor) : List String :=
  (d.datasources.map (·.source)).eraseDups

/-- All labels, those of datasources first. -/
def labels (d : Descriptor) : List String :=
  d.datasources.map (·.label) ++ d.calculations.map (·.label)

end Descriptor

/-! ## Drafts -/

/-- One entry of a draft. What a datasource leaves open is filled in when the draft is built. -/
inductive Definition
  | datasource (label source : String) (function : Consolidation)
      (heartbeat : Option Duration) (xff : Option Float)
  | calculation (label : String) (function : Except String (List Float → Float))
      (args : List String)

def Definition.label : Definition → String
  | datasource label .. => label
  | calculation label .. => label

def defaultStep : Duration := .ofTicks 300000 .milliseconds

def defaultMultiplier : Int := 2

def defaultXff : Float := 0.5

/-- A descriptor in the making. -/
structure Draft where
  step : Duration := defaultStep
  /-- The heartbeat of a datasource without one, in steps. -/
  multiplier : Int := defaultMultiplier
  xff : Float := defaultXff
  definitions : List Definition := []
  exports : List String := []

namespace Draft

def define (d : Draft) (definition : Definition) : Draft :=
  { d with definitions := d.definitions ++ [definition] }

/-- Adds a datasource that leaves open what is not given. -/
def datasource (d : Draft) (label source : String) (function : Consolidation)
    (heartbeat : Option Duration) (xff : Option Float) : Draft :=
  d.define (.datasource label source function heartbeat xff)

/-- Adds a calculation. An argument that is no label but a number is a constant. -/
def calculation (d : Draft) (label : String) (function : List Float → Float)
    (args : List String) : Draft :=
  d.define (.calculation label (.ok function) args)

def unary (d : Draft) (label : String) (function : Float → Float) (arg : String) : Draft :=
  d.calculation label (Calculation.unary function) [arg]

def binary (d : Draft) (label : String) (function : Float → Float → Float)
    (left right : String) : Draft :=
  d.calculation label (Calculation.binary function) [left, right]

/-- Adds the calculation that an expression describes. It reads the labels of the expression. -/
def expression (d : Draft) (label text : String) : Draft :=
  match Expression.parse text with
  | .ok e => d.calculation label e.evaluate e.labels
  | .error reason => d.define (.calculation label (.error reason.message) [])

/-- Adds labels to the exported ones. -/
def exporting (d : Draft) (labels : List String) : Draft :=
  { d with exports := d.exports ++ labels }

/-- What an argument of a calculation means: a label defined before, or else a number. -/
def operand (defined : List String) (referrer arg : String) :
    Except DescriptorError Operand :=
  if arg ∈ defined then .ok (.label arg)
  else
    match readFloat? (trim arg.toList) with
    | some x => .ok (.constant x)
    | none => .error (.unknownLabel arg referrer)

/-- The datasources and calculations that the definitions so far have given, and all labels. -/
structure Progress where
  datasources : List Datasource := []
  calculations : List Calculation := []
  defined : List String := []

/-- A datasource with what it left open filled in, if its heartbeat and xff are admissible. -/
def resolve (d : Draft) (label source : String) (function : Consolidation)
    (heartbeat : Option Duration) (xff : Option Float) : Except DescriptorError Datasource :=
  let heartbeat := heartbeat.getD (d.step.scale d.multiplier)
  let xff := xff.getD d.xff
  if heartbeat < d.step then
    .error (.heartbeatTooShort label heartbeat.text d.step.text)
  else if !(0 ≤ xff && xff ≤ 1) then .error (.invalidXff label xff)
  else .ok { label, source, heartbeat, xff, function }

/-- Checks one definition against those before it and adds what it gives. -/
def check (d : Draft) (p : Progress) (definition : Definition) :
    Except DescriptorError Progress :=
  if definition.label ∈ p.defined then .error (.duplicateLabel definition.label)
  else
    match definition with
    | .datasource label source function heartbeat xff => do
      let datasource ← d.resolve label source function heartbeat xff
      return { p with
        datasources := p.datasources ++ [datasource]
        defined := p.defined ++ [label] }
    | .calculation label function args =>
      match function with
      | .error reason => .error (.invalidExpression label reason)
      | .ok function =>
        if args.isEmpty then .error (.noArguments label)
        else do
          let operands ← args.mapM (operand p.defined label)
          return { p with
            calculations := p.calculations ++ [{ label, function, operands }]
            defined := p.defined ++ [label] }

/-- Checks the draft. What is reported is an empty step, else the first definition at fault, else
the first exported label that nothing defines. -/
def build (d : Draft) : Except DescriptorError Descriptor :=
  if d.step.isZero then .error .zeroStep
  else do
    let p ← d.definitions.foldlM d.check {}
    match d.exports.find? (· ∉ p.defined) with
    | some label => .error (.unknownLabel label "export")
    | none =>
      return { step := d.step
               datasources := p.datasources
               calculations := p.calculations
               exports := d.exports.eraseDups }

end Draft

end Telemetry
