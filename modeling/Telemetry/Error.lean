import Telemetry.Decimal.Text
import Telemetry.Time.Text

/-!
# What can go wrong

Each error is a cause with the facts it depends on; its wording is in one `message` function.
Times are carried as the text that shows them.
-/

namespace Telemetry

/-- Why a descriptor or a query is rejected, before any row is produced. -/
inductive DescriptorError
  | duplicateLabel (label : String)
  | unknownLabel (label referrer : String)
  | noArguments (label : String)
  | heartbeatTooShort (label heartbeat step : String)
  | invalidXff (label : String) (xff : Float)
  | zeroStep
  | resolutionNotMultiple (resolution step : String)
  | invertedRange (start finish : String)
  | invalidExpression (label reason : String)
  | unknownFunction (name : String)
  | invalidDuration (text : String)
  | notFound (name : String)

namespace DescriptorError

def message : DescriptorError → String
  | duplicateLabel label => "Duplicate label: " ++ label
  | unknownLabel label referrer => "Unknown label '" ++ label ++ "' referenced by " ++ referrer
  | noArguments label => "Calculation '" ++ label ++ "' has no arguments"
  | heartbeatTooShort label heartbeat step =>
    "Heartbeat " ++ heartbeat ++ " of '" ++ label ++ "' is shorter than step " ++ step
  | invalidXff label xff =>
    "XFF " ++ floatText .plain xff ++ " of '" ++ label ++ "' must be within [0, 1]"
  | zeroStep => "Step must be greater than zero"
  | resolutionNotMultiple resolution step =>
    "Resolution " ++ resolution ++ " is not a multiple of step " ++ step
  | invertedRange start finish => "Query end " ++ finish ++ " precedes start " ++ start
  | invalidExpression label reason => "Invalid expression for '" ++ label ++ "': " ++ reason
  | unknownFunction name => "Unknown consolidation function: " ++ name
  | invalidDuration text => "Invalid duration: " ++ text
  | notFound name => "Descriptor not found: " ++ name

end DescriptorError

/-- Why samples cannot be read. -/
inductive SourceError
  | unavailable (reason : String)
  | corrupted (reason : String)
  | io (reason : String)

namespace SourceError

def message : SourceError → String
  | unavailable reason => "Source unavailable: " ++ reason
  | corrupted reason => "Corrupted data: " ++ reason
  | io reason => "IO error: " ++ reason

end SourceError

/-- The classes of errors that a query ends with. -/
inductive QueryErrorKind
  | configuration
  | consistency
  | source
  | internal
deriving DecidableEq

namespace QueryErrorKind

def name : QueryErrorKind → String
  | configuration => "ConfigurationError"
  | consistency => "ConsistencyError"
  | source => "SourceError"
  | internal => "Internal"

end QueryErrorKind

/-- Why a run breaks off without an answer. -/
inductive Abandonment
  /-- A count has left its range. -/
  | overflow
  /-- The run goes on behind the requests that were allowed. -/
  | unfinished
deriving DecidableEq

namespace Abandonment

def message : Abandonment → String
  | overflow => "arithmetic overflow"
  | unfinished => "not finished"

end Abandonment

/-- Why a query fails. -/
inductive QueryError
  /-- The query or its descriptor is rejected. -/
  | rejected (cause : DescriptorError)
  /-- The samples cannot be read. -/
  | unreadable (cause : SourceError)
  /-- A row belongs to another resource than the one queried. -/
  | foreignRow (found expected : String)
  /-- A row is not later than the one before it. -/
  | outOfOrder (current last : Timestamp)
  /-- A row lacks what a calculation reads. -/
  | missingMeasurement (label calculation : String) (time : Timestamp)
  /-- An error in a caller's own words. -/
  | stated (kind : QueryErrorKind) (words : String) (cause : Option DescriptorError)
  /-- The run was abandoned. No caller gets to see this one. -/
  | abandoned (cause : Abandonment)

namespace QueryError

def kind : QueryError → QueryErrorKind
  | rejected _ => .configuration
  | unreadable _ => .source
  | foreignRow .. | outOfOrder .. | missingMeasurement .. => .consistency
  | stated kind _ _ => kind
  | abandoned _ => .internal

def message : QueryError → String
  | rejected cause => cause.message
  | unreadable cause => cause.message
  | foreignRow found expected =>
    "row for resource '" ++ found ++ "' in scan of '" ++ expected ++ "'"
  | outOfOrder current last => "row at " ++ current.text ++ " does not follow row at " ++ last.text
  | missingMeasurement label calculation time =>
    "missing measurement '" ++ label ++ "' for calculation '" ++ calculation ++ "' at " ++ time.text
  | stated _ words _ => words
  | abandoned cause => cause.message

/-- The message of the error behind this one. -/
def causeMessage? : QueryError → Option String
  | rejected cause => some cause.message
  | unreadable cause => some cause.message
  | stated _ _ cause => cause.map (·.message)
  | foreignRow .. | outOfOrder .. | missingMeasurement .. | abandoned _ => none

/-- The kind and the message. -/
def text (e : QueryError) : String :=
  e.kind.name ++ ": " ++ e.message

end QueryError

/-- Everything that a use of the library can fail with. -/
inductive Failure
  | descriptor (cause : DescriptorError)
  | query (cause : QueryError)
  | source (cause : SourceError)
  | configuration (reason : String)
  | io (reason : String)
  | serialization (reason : String)

namespace Failure

def message : Failure → String
  | descriptor cause => "Descriptor error: " ++ cause.message
  | query cause => "Query error: " ++ cause.text
  | source cause => "Source error: " ++ cause.message
  | configuration reason => "Configuration error: " ++ reason
  | io reason => "IO error: " ++ reason
  | serialization reason => "Serialization error: " ++ reason

end Failure

end Telemetry
