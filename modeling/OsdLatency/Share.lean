import OsdLatency.Binary64.Rounding
import OsdLatency.Binary64.TotalOrder
import OsdLatency.OsdMap
import OsdLatency.Trace.Record

/-!
# Shares of the final latency

How much of the final latency each component takes, as a mean over the operations of an OSD and a
kind. Components overlap in time, so one of them can exceed the final latency; its share is then cut
to just below a hundred percent. Operations without a final latency have no shares. The shares are
added up in one pass over the operations, and divided by their number at the end.

## Main definitions

* `share` — the share of one operation in percent
* `PooledShare`, `FieldPool`, `SharePool` — what one pass over the operations adds up
* `OsdShares`, `sharesOf` — all mean shares of a trace, the largest first
-/

namespace OsdLatency

/-- What is reported instead of a hundred percent or more. -/
def shareCap : Float := 99.99

/-- The share of `value` in `total` in percent. -/
def share (value total : UInt64) : Float :=
  let percent := value.toFloat / total.toFloat * 100.0
  if 100.0 ≤ percent then shareCap else percent

/-! ### Adding up -/

/-- The sum of some shares and their number. -/
structure PooledShare where
  sum : Float
  count : Nat

namespace PooledShare

/-- No shares. -/
def zero : PooledShare := { sum := 0.0, count := 0 }

/-- Add a share. -/
def add (pooled : PooledShare) (percent : Float) : PooledShare where
  sum := pooled.sum + percent
  count := pooled.count + 1

/-- The mean of the shares. -/
def mean (pooled : PooledShare) : Float := pooled.sum / Binary64.ofNat pooled.count

end PooledShare

/-- The shares of some operations, field by field. -/
abbrev FieldPool := Table LatencyField PooledShare

/-- Add the shares of an operation, one for each component. -/
def FieldPool.add (fields : FieldPool) (r : Record) : FieldPool :=
  LatencyField.components.foldl (fun fields field =>
    match r.latency? field with
    | some value => fields.modify field .zero (·.add (share value r.final))
    | none => fields) fields

/-- Whether a record has a final latency that shares can be taken of. -/
def Record.hasShares (r : Record) : Bool := r.final != 0

/-- The shares of some operations by ascending OSD, and by kind in the order of the first
operations. -/
structure SharePool where
  osds : OsdMap (Table OpKind FieldPool)
  /-- The number of operations without shares. -/
  skipped : Nat

namespace SharePool

/-- No operations. -/
def empty : SharePool := { osds := .empty, skipped := 0 }

/-- Add an operation. -/
def add (pool : SharePool) (r : Record) : SharePool :=
  if r.hasShares then
    { pool with osds := pool.osds.modify r.osd .empty (·.modify r.kind .empty (·.add r)) }
  else { pool with skipped := pool.skipped + 1 }

/-- Add up the shares of all operations of a trace. -/
def ofRecords (records : List Record) : SharePool := records.foldl add empty

end SharePool

/-! ### Reporting -/

/-- The mean share of one field. -/
structure FieldShare where
  field : LatencyField
  percent : Float

/-- The mean shares of the operations of one kind. -/
structure KindShares where
  kind : OpKind
  shares : List FieldShare

/-- The mean shares of the operations of one OSD. -/
structure OsdShares where
  osd : UInt32
  kinds : List KindShares

/-- Mean shares in descending order. Equal shares keep their order. -/
def largestFirst (shares : List FieldShare) : List FieldShare :=
  shares.mergeSort fun a b => decide (Binary64.key b.percent ≤ Binary64.key a.percent)

/-- The mean shares that have been added up, the largest first. -/
def FieldPool.shares (fields : FieldPool) : List FieldShare :=
  largestFirst (fields.toList.map fun (field, pooled) => { field, percent := pooled.mean })

/-- The mean shares by ascending OSD, and by kind in the order of their first operations. -/
def sharesOf (records : List Record) : List OsdShares :=
  (SharePool.ofRecords records).osds.toList.map fun (osd, kinds) =>
    { osd, kinds := kinds.toList.map fun (kind, fields) => { kind, shares := fields.shares } }

/-- The number of operations without shares. -/
def withoutShares (records : List Record) : Nat := (SharePool.ofRecords records).skipped

end OsdLatency
