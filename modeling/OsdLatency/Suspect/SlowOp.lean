import OsdLatency.Text.Column
import OsdLatency.Text.Decimal
import OsdLatency.Text.Line
import OsdLatency.Text.Scanner

/-!
# Slow client operations

Each line of a client log is one operation. Its ninth column is the latency in microseconds and its
sixth names the OSDs that acted on it. Lines with fewer columns or without a number as the latency,
such as headings, are no operations.

## Main definitions

* `SlowOp` — the OSDs of one slow operation
* `SlowOp.ofLine?` — the slow operation of a line
* `SlowOp.ofText` — the slow operations of a log
-/

namespace OsdLatency

/-- The OSDs that acted on a slow operation, as often and in the order they are named. -/
abbrev SlowOp := List UInt32

namespace SlowOp

/-- The column of the acting OSDs, counted from zero. -/
def actingColumn : Nat := 5

/-- The column of the latency, counted from zero. -/
def latencyColumn : Nat := 8

/-- The threshold of a scan that is given none: 100 milliseconds. -/
def defaultThreshold : UInt64 := 100000

/-- The OSDs of a column: its runs of digits, of which those that are no number of an OSD are left
out. -/
def actingOsds (column : List Char) : SlowOp :=
  (Text.Scanner.findAll Text.Scanner.digits column).filterMap Text.uint32?

/-- The latency and the OSDs of the operation of a line. -/
def operation? (line : List Char) : Option (UInt64 × SlowOp) := do
  let columns := Text.columns line
  let latency ← (columns[latencyColumn]?).bind fun column => Text.uint64? (Text.dropPlus column)
  let acting ← columns[actingColumn]?
  return (latency, actingOsds acting)

/-- The OSDs of the operation of a line, if it is at least as slow as the threshold. -/
def ofLine? (threshold : UInt64) (line : List Char) : Option SlowOp :=
  (operation? line).bind fun (latency, osds) => if threshold ≤ latency then some osds else none

/-- The slow operations of a log, line by line. -/
def ofText (threshold : UInt64) (text : List Char) : List SlowOp :=
  (Text.lines text).filterMap (ofLine? threshold)

end SlowOp

end OsdLatency
