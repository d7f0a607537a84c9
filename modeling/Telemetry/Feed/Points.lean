import Telemetry.Feed.Basic
import Telemetry.Descriptor
import Telemetry.Time.Lattice

/-!
# Primary points

Samples come at arbitrary instants; primary points are one step apart. The point at `c` holds, for
each datasource, the average over the bucket that ends with `c` and begins one step before it,
weighted by time.

A sample speaks for the time since the sample before it. That time is known if the gap is shorter
than the heartbeat. A bucket of which nothing is known, or no more than is unknown, is unknown
itself.

Where the last sample falls short of the end of the bucket, the next one speaks for the rest. It is
looked for among rows read ahead, no further than one heartbeat behind the last sample, and it is
read again when its own bucket is filled.
-/

namespace Telemetry

/-- What the samples of one datasource have told about the current bucket. The counts are not
bounded here; `creditOverflows` and `averageOverflows` tell where they leave their range. -/
structure Coverage where
  /-- When the last sample was taken. -/
  last : Option Timestamp := none
  knownMillis : Int := 0
  unknownMillis : Int := 0
  /-- The sum of values, each times the milliseconds it speaks for. -/
  weighted : Float := 0
  attributes : Option Attributes := none

namespace Coverage

/-- Whether the time between two samples is known. -/
def isKnown (later earlier : Timestamp) (heartbeat : Duration) : Bool :=
  later.millisSince earlier < heartbeat.millis

/-- Credits a stretch of time to a value. -/
def credit (c : Coverage) (millis : Int) (known : Bool) (x : Float) : Coverage :=
  if known then
    { c with
      knownMillis := c.knownMillis + millis
      weighted := c.weighted + x * Float.ofInt millis }
  else { c with unknownMillis := c.unknownMillis + millis }

/-- Whether a stretch of time, or the sum with it, overflows. -/
def creditOverflows (c : Coverage) (millis : Int) (known : Bool) : Bool :=
  overflows millis || overflows ((if known then c.knownMillis else c.unknownMillis) + millis)

/-- Adds what a sample has attached. -/
def attach (c : Coverage) (s : Sample) : Coverage :=
  { c with attributes := Attributes.merge? c.attributes s.attributes }

/-- Takes into account a sample that is not later than the end of the bucket. The very first one
only marks where coverage begins. -/
def advance (c : Coverage) (floor : Timestamp) (heartbeat : Duration) (s : Sample) : Coverage :=
  match c.last with
  | none => { c with last := some s.timestamp }
  | some last =>
    let lower := last.later floor
    let c :=
      if lower < s.timestamp then
        c.credit (s.timestamp.millisSince lower) (isKnown s.timestamp last heartbeat)
          s.value.number
      else c
    let c := if floor < s.timestamp then c.attach s else c
    { c with last := some s.timestamp }

def advanceOverflows (c : Coverage) (floor : Timestamp) (heartbeat : Duration) (s : Sample) :
    Bool :=
  match c.last with
  | none => false
  | some last =>
    let lower := last.later floor
    lower < s.timestamp && (overflows (s.timestamp.millisSince last) ||
      c.creditOverflows (s.timestamp.millisSince lower) (isKnown s.timestamp last heartbeat))

/-- The average over the known time of the bucket, if more is known than not. -/
def average (c : Coverage) : Float :=
  if c.knownMillis = 0 ∨ c.knownMillis + c.unknownMillis ≤ c.unknownMillis * 2 then unknown
  else c.weighted / Float.ofInt c.knownMillis

def averageOverflows (c : Coverage) : Bool :=
  overflows (c.knownMillis + c.unknownMillis) ||
    (c.knownMillis ≠ 0 && overflows (c.unknownMillis * 2))

/-- The coverage at the start of the next bucket. -/
def reset (c : Coverage) : Coverage :=
  { last := c.last }

end Coverage

/-- A datasource and what is known of its current bucket. -/
structure Track where
  datasource : Datasource
  coverage : Coverage

namespace Track

/-- Takes into account a row that is not later than the end of the bucket. -/
def advance (t : Track) (floor : Timestamp) (row : Row Value) : Track :=
  match row.get? t.datasource.source with
  | some s => { t with coverage := t.coverage.advance floor t.datasource.heartbeat s }
  | none => t

def advanceOverflows (t : Track) (floor : Timestamp) (row : Row Value) : Bool :=
  (row.get? t.datasource.source).any (t.coverage.advanceOverflows floor t.datasource.heartbeat)

/-- The measurement of the bucket that ends with `ceiling`. -/
def measurement (t : Track) (resource : String) (ceiling : Timestamp) : Measurement :=
  { timestamp := ceiling
    resource
    name := t.datasource.label
    value := t.coverage.average
    attributes := t.coverage.attributes }

def reset (t : Track) : Track :=
  { t with coverage := t.coverage.reset }

end Track

/-- The row of the measurements of all tracks. -/
def pointOf (resource : String) (ceiling : Timestamp) (tracks : List Track) : Row Float :=
  (Row.empty ceiling resource).insertAll (tracks.map (·.measurement resource ceiling))

/-- A bucket at its end: the instant, and the tracks that the point is made of. -/
structure Closing where
  ceiling : Timestamp
  tracks : List Track

def Closing.point (resource : String) (cl : Closing) : Row Float :=
  pointOf resource cl.ceiling cl.tracks

/-- What follows the last sample of a datasource within a bucket. -/
inductive CarryOver
  /-- The next sample. -/
  | found (s : Sample)
  /-- No sample, up to a row that lies a heartbeat or more behind the last one. -/
  | stale
  /-- No sample, up to the end of the rows. -/
  | ended

/-- The making of primary points: rows that were read ahead, and rows still to be read. -/
structure Resampling where
  resource : String
  points : Lattice
  tracks : List Track
  lookahead : List (Row Value)
  input : Feed Value

namespace Resampling

/-- The making of points over a range, widened to whole steps. -/
def start (d : Descriptor) (resource : String) (start finish : Timestamp) (input : Feed Value) :
    Resampling :=
  { resource
    points := .ascending (start.floor d.step) (finish.ceil d.step) d.step
    tracks := d.datasources.map (⟨·, {}⟩)
    lookahead := []
    input }

def advanceAll (tracks : List Track) (floor : Timestamp) (row : Row Value) : List Track :=
  tracks.map (·.advance floor row)

/-- Takes the rows read ahead up to `ceiling` into account. -/
def absorbAhead (floor ceiling : Timestamp) :
    List Track → List (Row Value) → List Track × List (Row Value)
  | tracks, [] => (tracks, [])
  | tracks, row :: rest =>
    if row.timestamp ≤ ceiling then absorbAhead floor ceiling (advanceAll tracks floor row) rest
    else (tracks, row :: rest)

/-- Reads rows up to `ceiling` and takes them into account. The first later row is read as well,
and an error ends the reading. -/
def absorbInput (floor ceiling : Timestamp) :
    List Track → Feed Value → List Track × Option QueryError × List (Row Value) × Feed Value
  | tracks, [] => (tracks, none, [], [])
  | tracks, .error e :: rest => (tracks, some e, [], rest)
  | tracks, .ok row :: rest =>
    if row.timestamp ≤ ceiling then absorbInput floor ceiling (advanceAll tracks floor row) rest
    else (tracks, none, [row], rest)

/-- Takes all rows up to `ceiling` into account. -/
def absorb (r : Resampling) (floor ceiling : Timestamp) : Option QueryError × Resampling :=
  match absorbAhead floor ceiling r.tracks r.lookahead with
  | (tracks, row :: rest) => (none, { r with tracks, lookahead := row :: rest })
  | (tracks, []) =>
    let (tracks, failure, lookahead, input) := absorbInput floor ceiling tracks r.input
    (failure, { r with tracks, lookahead, input })

/-- What a row tells about what follows the last sample of a metric. -/
def judge? (metric : String) (horizon : Timestamp) (row : Row Value) : Option CarryOver :=
  match row.get? metric with
  | some s => some (.found s)
  | none => if horizon ≤ row.timestamp then some .stale else none

/-- Reads on until a row tells what follows the last sample. Answers with the rows read. -/
def seekInput (metric : String) (horizon : Timestamp) :
    Feed Value → Except QueryError CarryOver × List (Row Value) × Feed Value
  | [] => (.ok .ended, [], [])
  | .error e :: rest => (.error e, [], rest)
  | .ok row :: rest =>
    match judge? metric horizon row with
    | some c => (.ok c, [row], rest)
    | none =>
      let (answer, rows, input) := seekInput metric horizon rest
      (answer, row :: rows, input)

/-- What follows the last sample of a metric, looked for first among the rows read ahead. -/
def seek (metric : String) (horizon : Timestamp) (lookahead : List (Row Value))
    (input : Feed Value) : Except QueryError CarryOver × List (Row Value) × Feed Value :=
  match lookahead.findSome? (judge? metric horizon) with
  | some c => (.ok c, lookahead, input)
  | none =>
    let (answer, rows, input) := seekInput metric horizon input
    (answer, lookahead ++ rows, input)

/-- Credits the rest of the bucket, from the last sample on, to what follows it. -/
def carry (t : Track) (floor ceiling last : Timestamp) (c : CarryOver) : Track :=
  let millis := ceiling.millisSince (last.later floor)
  match c with
  | .found s =>
    let known := Coverage.isKnown s.timestamp last t.datasource.heartbeat
    { t with coverage := (t.coverage.credit millis known s.value.number).attach s }
  | .stale => { t with coverage := t.coverage.credit millis false unknown }
  | .ended => t

/-- Completes the bucket of every datasource whose last sample falls short of its end. -/
def complete (floor ceiling : Timestamp) :
    List Track → List (Row Value) → Feed Value →
      List Track × Option QueryError × List (Row Value) × Feed Value
  | [], lookahead, input => ([], none, lookahead, input)
  | t :: rest, lookahead, input =>
    match t.coverage.last with
    | none =>
      let (tracks, answer) := complete floor ceiling rest lookahead input
      (t :: tracks, answer)
    | some last =>
      if ceiling ≤ last then
        let (tracks, answer) := complete floor ceiling rest lookahead input
        (t :: tracks, answer)
      else
        match seek t.datasource.source (last + t.datasource.heartbeat) lookahead input with
        | (.error e, lookahead, input) => (t :: rest, some e, lookahead, input)
        | (.ok c, lookahead, input) =>
          let (tracks, answer) := complete floor ceiling rest lookahead input
          (carry t floor ceiling last c :: tracks, answer)

/-- Closes the next bucket, unless an error is met on the way. -/
def close? (r : Resampling) : Option (Except QueryError Closing × Resampling) :=
  r.points.next?.map fun (ceiling, points) =>
    let floor := ceiling - points.interval
    match { r with points }.absorb floor ceiling with
    | (some e, r) => (.error e, r)
    | (none, r) =>
      match complete floor ceiling r.tracks r.lookahead r.input with
      | (tracks, some e, lookahead, input) => (.error e, { r with tracks, lookahead, input })
      | (tracks, none, lookahead, input) =>
        (.ok ⟨ceiling, tracks⟩, { r with tracks := tracks.map Track.reset, lookahead, input })

/-- The next point, or the error that was met on the way. -/
def next? (r : Resampling) : Option (Except QueryError (Row Float) × Resampling) :=
  r.close?.map fun (closed, s) => (closed.map (·.point r.resource), s)

/-! ## Counts that overflow -/

/-- Whether a count overflows while the rows up to `ceiling` are taken into account. -/
def absorbOverflows (floor ceiling : Timestamp) : List Track → Feed Value → Bool
  | _, [] => false
  | _, .error _ :: _ => false
  | tracks, .ok row :: rest =>
    row.timestamp ≤ ceiling && (tracks.any (·.advanceOverflows floor row) ||
      absorbOverflows floor ceiling (advanceAll tracks floor row) rest)

def carryOverflows (t : Track) (floor ceiling last : Timestamp) (c : CarryOver) : Bool :=
  let millis := ceiling.millisSince (last.later floor)
  match c with
  | .found s =>
    overflows (s.timestamp.millisSince last) || t.coverage.creditOverflows millis
      (Coverage.isKnown s.timestamp last t.datasource.heartbeat)
  | .stale => t.coverage.creditOverflows millis false
  | .ended => false

/-- Whether a count overflows while the buckets are completed. The rest of a bucket is measured
before it is known what follows. -/
def completeOverflows (floor ceiling : Timestamp) :
    List Track → List (Row Value) → Feed Value → Bool
  | [], _, _ => false
  | t :: rest, lookahead, input =>
    match t.coverage.last with
    | none => completeOverflows floor ceiling rest lookahead input
    | some last =>
      if ceiling ≤ last then completeOverflows floor ceiling rest lookahead input
      else
        overflows (ceiling.millisSince (last.later floor)) ||
          match seek t.datasource.source (last + t.datasource.heartbeat) lookahead input with
          | (.error _, _, _) => false
          | (.ok c, lookahead, input) =>
            carryOverflows t floor ceiling last c ||
              completeOverflows floor ceiling rest lookahead input

/-- Whether a count overflows on the way to the next point. -/
def requestOverflows (r : Resampling) : Bool :=
  match r.points.next? with
  | none => false
  | some (ceiling, points) =>
    let floor := ceiling - points.interval
    absorbOverflows floor ceiling r.tracks (.ofRows r.lookahead ++ r.input) ||
      match { r with points }.absorb floor ceiling with
      | (some _, _) => false
      | (none, r) =>
        completeOverflows floor ceiling r.tracks r.lookahead r.input ||
          match complete floor ceiling r.tracks r.lookahead r.input with
          | (_, some _, _, _) => false
          | (tracks, none, _, _) => tracks.any (·.coverage.averageOverflows)

/-- The next point as it is computed: where a count overflows, the run is abandoned. -/
def attempt? (r : Resampling) : Option (Except QueryError (Row Float) × Resampling) :=
  r.next?.map fun (item, s) =>
    (if r.requestOverflows then .error (.abandoned .overflow) else item, s)

end Resampling

namespace Feed

/-- The primary points over a range, widened to whole steps. The walk is followed for as many
instants as fit into the range. -/
def points (d : Descriptor) (resource : String) (start finish : Timestamp) (input : Feed Value) :
    Feed Float :=
  let r := Resampling.start d resource start finish input
  unfold Resampling.next? r.points.count r

/-- The primary points as they are computed, on at most `n` requests. -/
def checkedPoints (n : Nat) (d : Descriptor) (resource : String) (start finish : Timestamp)
    (input : Feed Value) : Feed Float :=
  run Resampling.attempt? n (.start d resource start finish input)

end Feed

end Telemetry
