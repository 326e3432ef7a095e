import OsdLatency.Files.Fault

/-!
# Failures of a run

The causes that end a run early, each with the text it is reported with and the exit status of the
program. A bad request ends with status 1, trouble with a file or with the output with status 2.
-/

namespace OsdLatency

open Files (Fault)

/-- Why a run ends without its report. -/
inductive Failure
  /-- The field is no detail of a write and its name does not end in `lat`. -/
  | notLatencyField (name : String)
  /-- The name of the field ends in `lat`, but no trace line has such a field. -/
  | unknownLatencyField (name : String)
  /-- The latency threshold lies below zero. -/
  | negativeThreshold (threshold : Int64)
  /-- A file cannot be read. -/
  | unreadable (path : String) (fault : Fault)
  /-- The report cannot be written. -/
  | unwritable
deriving DecidableEq

namespace Failure

/-- The text a failure is reported with. -/
def message : Failure → String
  | notLatencyField name => s!"{name} does not seem like a latency field, exiting..."
  | unknownLatencyField name => s!"{name} is not a latency field reported by osdtrace, exiting..."
  | negativeThreshold threshold =>
    s!"latency threshold must be a non-negative number of microseconds, got {threshold}"
  | unreadable path fault => s!"failed to read {path}: {fault.message}"
  | unwritable => "failed to write report"

/-- The exit status of a program that ends with the failure. -/
def exitStatus : Failure → UInt8
  | notLatencyField _ => 1
  | unknownLatencyField _ => 1
  | negativeThreshold _ => 1
  | unreadable _ _ => 2
  | unwritable => 2

end Failure

end OsdLatency
