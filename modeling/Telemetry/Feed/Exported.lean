import Telemetry.Feed.Basic

/-!
# Exported rows

Every row is brought into one shape: the exported labels, in their order.
-/

namespace Telemetry.Feed

/-- Takes the labels out of the measurements of a row one after the other. A label that is not
there, or not there any more, is unknown. -/
def takeLabels (timestamp : Timestamp) (resource : String) :
    List String → List Measurement → List Measurement
  | [], _ => []
  | label :: rest, ms =>
    (ms.find? (·.name = label)).getD (.unknown timestamp resource label)
      :: takeLabels timestamp resource rest (swapRemove (·.name = label) ms)

/-- The row of the exported labels. A label that is exported twice keeps its first place and
shows what it is taken for last. -/
def exportRow (labels : List String) (row : Row Float) : Row Float :=
  (Row.empty row.timestamp row.resource).insertAll
    (takeLabels row.timestamp row.resource labels row.readings)

/-- Every row in the shape of the exported labels. -/
def exported (labels : List String) (feed : Feed Float) : Feed Float :=
  feed.mapRows fun row => .ok (exportRow labels row)

end Telemetry.Feed
