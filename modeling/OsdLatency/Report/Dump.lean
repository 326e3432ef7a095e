import OsdLatency.Report.Amount
import OsdLatency.Trace.Record

/-!
# The dump of records

Records are written out again, one a line, in ascending order of a field. Latencies are in the
unit of the report; the round trips to replicas and the details that are no latencies stay as they
were traced.

## Main definitions

* `Dump.line` — the line of a record
* `Dump.sorted` — the records in the order of a field
* `Dump.lines` — the lines of the dump
-/

namespace OsdLatency.Dump

/-- Whether the detail with a name is a latency. The names of unknown details tell by their end. -/
def isLatencyDetail (name : String) : Bool :=
  match Substage.ofName? name with
  | some stage => stage.isLatency
  | none => "lat".toList.isSuffixOf name.toList

/-- One detail with its name. -/
def detail (unit : TimeUnit) (name : String) (value : UInt64) : String :=
  name ++ " " ++ if isLatencyDetail name then unit.rounded value else toString value

/-- One replica with its round trip in microseconds. -/
def peer (p : Peer) : String := s!"({p.osd}, {p.latency})"

/-- A label and its value. -/
def labelled (label value : String) : String := label ++ " " ++ value

/-- The line of a record. -/
def line (unit : TimeUnit) (r : Record) : String :=
  " ".intercalate [
    labelled "osd" (toString r.osd),
    labelled "pg" r.pg,
    labelled "op" r.kind.name,
    labelled "size" (toString r.size),
    labelled "client" (toString r.client),
    labelled "tid" (toString r.tid),
    labelled "throttle_lat" (unit.rounded r.throttle),
    labelled "recv_lat" (unit.rounded r.recv),
    labelled "dispatch_lat" (unit.rounded r.dispatch),
    labelled "queue_lat" (unit.rounded r.queue),
    labelled "osd_lat" (unit.rounded r.osdLatency),
    labelled "peers" ("[" ++ ", ".intercalate (r.peers.map peer) ++ "]"),
    labelled "bluestore_lat" (unit.rounded r.bluestore),
    "(" ++ " ".intercalate (r.details.toList.map fun entry => detail unit entry.1 entry.2) ++ ")",
    labelled "lat_type" r.finalKind.name,
    labelled "lat" (unit.rounded r.final)]

/-- Whether a value may stand before another: a missing one before all others. -/
def mayPrecede : Option UInt64 → Option UInt64 → Bool
  | none, _ => true
  | some _, none => false
  | some a, some b => decide (a ≤ b)

/-- The records in ascending order of a field, equal ones in their given order. -/
def sorted (field : LatencyField) (records : List Record) : List Record :=
  records.mergeSort fun a b => mayPrecede (a.latency? field) (b.latency? field)

/-- The lines of the dump. -/
def lines (field : LatencyField) (unit : TimeUnit) (records : List Record) : List String :=
  (sorted field records).map (line unit)

end OsdLatency.Dump
