import Telemetry.Feed.Basic
import Telemetry.Descriptor

/-!
# Calculated measurements

The calculations of a descriptor are added to a row one after the other, so that later ones read
the results of earlier ones.
-/

namespace Telemetry

namespace Calculation

/-- The values that the calculation reads in a row. -/
def arguments (c : Calculation) (row : Row Float) : Except QueryError (List Float) :=
  c.operands.mapM fun
    | .constant x => .ok x
    | .label name =>
      match row.get? name with
      | some m => .ok m.value
      | none => .error (.missingMeasurement name c.label row.timestamp)

/-- Adds the calculation's result to a row. -/
def extend (row : Row Float) (c : Calculation) : Except QueryError (Row Float) := do
  let args ← c.arguments row
  return row.insert
    { timestamp := row.timestamp
      resource := row.resource
      name := c.label
      value := c.function args
      attributes := none }

end Calculation

namespace Feed

/-- Every row with the results of the calculations. -/
def calculated (calculations : List Calculation) (feed : Feed Float) : Feed Float :=
  feed.mapRows fun row => calculations.foldlM Calculation.extend row

end Feed

end Telemetry
