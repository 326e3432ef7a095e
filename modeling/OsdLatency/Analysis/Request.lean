import OsdLatency.Selection
import OsdLatency.TimeUnit
import OsdLatency.Trace.Field

/-!
# Requests for a report

What a user asks of a trace file. A request is checked before the file is touched: first the name of
the field, then the sign of the threshold.

## Main definitions

* `Mode` — which report is written
* `Request` — the wishes of one run
* `Request.mode`, `Request.validate` — the report, the field and the records that are asked for
-/

namespace OsdLatency

/-- Which report is written. -/
inductive Mode
  /-- The figures of a field. -/
  | statistics
  /-- The records in the order of a field. -/
  | dump
  /-- The shares of the components. -/
  | shares
deriving DecidableEq, Repr

/-- The name a report is called by when it is done. -/
def Mode.name : Mode → String
  | statistics => "Statistics"
  | dump => "Sort"
  | shares => "Infer"

/-- The wishes of one run. -/
structure Request where
  /-- The trace file. -/
  path : String
  /-- The only OSD to look at. -/
  osd : Option UInt32
  /-- Whether latencies are shown in milliseconds. -/
  millis : Bool
  /-- Whether the records are dumped. -/
  sort : Bool
  /-- Whether shares are reported. -/
  infer : Bool
  /-- Whether the report is a JSON document. A dump has no such form. -/
  json : Bool
  /-- The name of the field. -/
  field : String
  /-- The least final latency in microseconds. -/
  threshold : Option Int64
deriving DecidableEq

namespace Request

/-- The wishes of a run that only names its trace file. -/
def ofPath (path : String) : Request where
  path := path
  osd := none
  millis := false
  sort := false
  infer := false
  json := false
  field := LatencyField.name default
  threshold := none

/-- The report that is asked for. A dump is preferred to shares. -/
def mode (request : Request) : Mode :=
  if request.sort then .dump else if request.infer then .shares else .statistics

/-- The unit that is asked for. -/
def unit (request : Request) : TimeUnit := .ofMillis request.millis

/-- A threshold that is not negative. -/
def checkThreshold : Option Int64 → Except Failure (Option UInt64)
  | none => .ok none
  | some threshold =>
    if threshold < 0 then .error (.negativeThreshold threshold) else .ok (some threshold.toUInt64)

/-- The field and the records that are asked for. The wish for shares lowers no threshold that is
given, and it counts for a dump too. -/
def validate (request : Request) : Except Failure (LatencyField × Selection) := do
  let field ← LatencyField.ofName request.field
  let threshold ← checkThreshold request.threshold
  return (field, .ofRequest request.osd threshold request.infer)

end Request

end OsdLatency
