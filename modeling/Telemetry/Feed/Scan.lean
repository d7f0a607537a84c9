import Telemetry.Feed.Basic

/-!
# Scanned rows

A scan lets through the rows of one resource that come in ascending order, and answers every other
row with an error. What is not let through does not change what follows.
-/

namespace Telemetry.Feed

variable {α : Type}

/-- What a scan answers to a row, after the row at `last` was let through. -/
def letThrough (resource : String) (last : Option Timestamp) (row : Row α) :
    Except QueryError (Row α) :=
  if row.resource ≠ resource then .error (.foreignRow row.resource resource)
  else
    match last with
    | some t => if row.timestamp ≤ t then .error (.outOfOrder row.timestamp t) else .ok row
    | none => .ok row

def scanFrom (resource : String) : Option Timestamp → Feed α → Feed α
  | _, [] => []
  | last, .error e :: rest => .error e :: scanFrom resource last rest
  | last, .ok row :: rest =>
    match letThrough resource last row with
    | .ok row => .ok row :: scanFrom resource (some row.timestamp) rest
    | .error e => .error e :: scanFrom resource last rest

/-- The rows of one resource in ascending order. -/
def scan (resource : String) (feed : Feed α) : Feed α :=
  scanFrom resource none feed

end Telemetry.Feed
