import OsdLatency.Analysis.Request

/-!
# Notices

What a run tells about its progress. Notices are for the one who watches the run, and are no part of
its output.
-/

namespace OsdLatency

/-- A remark about the progress of a run. -/
inductive Notice
  /-- A file has bytes that are not well formed, which have been replaced. -/
  | replaced (path : String)
  /-- The records of a trace file have been read. -/
  | parsed (records skipped : Nat) (path : String)
  /-- How many of the records change data and how many do not. -/
  | counted (reads writes : Nat)
  /-- Lines have been skipped for a number that does not fit. -/
  | overflowed (lines : Nat)
  /-- The records that the report is about. -/
  | selected (records : Nat) (selection : Selection)
  /-- Records without a final latency have no shares. -/
  | withoutShares (records : Nat)
  /-- The report has been written. -/
  | done (mode : Mode)
  /-- The slow operations of a log have been read. -/
  | slowOps (count : Nat) (threshold : UInt64) (path : String)
  /-- The hosts of a tree have been read. -/
  | hosts (count : Nat) (path : String)
deriving DecidableEq

namespace Notice

/-- The text of a notice. Some notices tell how long a step took: `elapsed` is that time in
milliseconds. -/
def text (elapsed : String) : Notice → String
  | replaced path => s!"{path}: invalid UTF-8 replaced"
  | parsed records skipped path =>
    s!"Parsed {records} osdtrace records ({skipped} skipped lines) from {path}, time: {elapsed} ms"
  | counted reads writes => s!"  reads: {reads}, writes: {writes}"
  | overflowed lines => s!"  {lines} lines dropped for out of range numbers"
  | selected records selection =>
    let osd := selection.osd.elim "all" toString
    s!"{records} ops selected (osd: {osd}, min lat: {selection.minLatency} us)"
  | withoutShares records => s!"Skipped {records} ops with zero final latency"
  | done mode => s!"{mode.name} report done, total time: {elapsed} ms"
  | slowOps count threshold path =>
    s!"Found {count} operations at or above {threshold} us in {path}"
  | hosts count path => s!"Mapped {count} OSDs to hosts from {path}"

end Notice

end OsdLatency
