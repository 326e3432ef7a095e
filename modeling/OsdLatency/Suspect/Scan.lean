import OsdLatency.Report.Suspects
import OsdLatency.Run.Reading

/-!
# The scan for suspects

The run that looks for the OSDs behind slow operations. What is scanned is written down before the
files are read, the log first and then the tree.
-/

namespace OsdLatency

/-- What a scan looks at. -/
structure Scan where
  /-- The client log. -/
  log : String
  /-- The tree of the cluster. -/
  tree : String
  /-- The least latency of a slow operation in microseconds. -/
  threshold : UInt64
deriving DecidableEq

namespace Scan

/-- The slow operations of the log. -/
def readLog (scan : Scan) (files : FileReader) : Run (List SlowOp) := do
  let ops := SlowOp.ofText scan.threshold (← Run.readText files scan.log)
  Run.note (.slowOps ops.length scan.threshold scan.log)
  return ops

/-- The hosts of the tree. -/
def readTree (scan : Scan) (files : FileReader) : Run HostMap := do
  let hosts := HostMap.ofText (← Run.readText files scan.tree)
  Run.note (.hosts hosts.size scan.tree)
  return hosts

/-- Carry out a scan. -/
def run (scan : Scan) (files : FileReader) : Run Unit := do
  Run.writeLines (SuspectReport.header scan.log scan.tree scan.threshold)
  let ops ← scan.readLog files
  let hosts ← scan.readTree files
  Run.writeLines (SuspectReport.lines (suspects ops hosts) ops.length)

end Scan

end OsdLatency
