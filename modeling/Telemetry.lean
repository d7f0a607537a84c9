import Telemetry.Config
import Telemetry.Json.Record
import Telemetry.Query
import Telemetry.Proofs.Points.Refinement
import Telemetry.Proofs.Query.SingleStep
import Telemetry.Proofs.Expression.Parsing
import Telemetry.Proofs.Expression.Calculated
import Telemetry.Proofs.Query.Stored
import Telemetry.Proofs.Query.Isolation
import Telemetry.Proofs.Query.Failing
import Telemetry.Proofs.Query.Room
import Telemetry.Proofs.Expression.Names
import Telemetry.Proofs.Query.Attributes
import Telemetry.Proofs.Buckets.Consolidated
import Telemetry.Proofs.Points.Dense
import Telemetry.Proofs.Points.Heartbeat
import Telemetry.Proofs.Points.Units
import Telemetry.Proofs.Rates.Wraps
import Telemetry.Proofs.Time.Text
import Telemetry.Proofs.Lattice.Pulls
import Telemetry.Proofs.Decimal
import Telemetry.Proofs.Json.Number
import Telemetry.Proofs.Json.Record
import Telemetry.Proofs.Lattice.Ending
import Telemetry.Proofs.Lattice.Remaining
import Telemetry.Proofs.Time.Rounding
import Telemetry.Proofs.Time.Arithmetic
import Telemetry.Proofs.Expression.Levels
import Telemetry.Proofs.Expression.Nesting
import Telemetry.Proofs.Number.Unknown
import Telemetry.Proofs.Expression.Unknown
import Telemetry.Proofs.Consolidation
import Telemetry.Proofs.Buckets.Known
import Telemetry.Proofs.Exported
import Telemetry.Proofs.Points.Tiling
import Telemetry.Proofs.Buckets.Abandoned
import Telemetry.Proofs.Composed
import Telemetry.Proofs.Config
import Telemetry.Proofs.Points.Lookahead
