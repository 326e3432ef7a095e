import OsdLatency.Table
import OsdLatency.Trace.Field
import OsdLatency.Trace.OpKind

/-!
# Trace records

What one trace line says about one operation. All latencies are in microseconds.
-/

namespace OsdLatency

/-- The round trip to one replica of a write. -/
structure Peer where
  osd : UInt32
  latency : UInt64
deriving DecidableEq

/-- One traced operation. -/
structure Record where
  osd : UInt32
  pg : String
  kind : OpKind
  size : UInt64
  client : UInt64
  tid : UInt64
  throttle : UInt64
  recv : UInt64
  dispatch : UInt64
  queue : UInt64
  osdLatency : UInt64
  peers : List Peer
  bluestore : UInt64
  /-- The details of the store by name, in the order of the line. -/
  details : Table String UInt64
  finalKind : FinalKind
  final : UInt64
deriving DecidableEq

namespace Record

/-- The value of a component. -/
def component (r : Record) : Component → UInt64
  | .throttle => r.throttle
  | .recv => r.recv
  | .dispatch => r.dispatch
  | .queue => r.queue
  | .osd => r.osdLatency
  | .bluestore => r.bluestore

/-- The value of a field. Only a detail may be missing. -/
def latency? (r : Record) : LatencyField → Option UInt64
  | .component c => some (r.component c)
  | .final => some r.final
  | .substage stage => r.details.get? stage.name

end Record

end OsdLatency
