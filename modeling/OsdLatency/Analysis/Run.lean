import OsdLatency.Analysis.Request
import OsdLatency.Report.Dump
import OsdLatency.Report.Shares
import OsdLatency.Report.Statistics
import OsdLatency.Run.Reading

/-!
# Analysis of a trace file

The run that answers a request: the request is checked, the trace is read, records are selected, and
the report about them is written.
-/

namespace OsdLatency

/-- Write a JSON document and a line end. -/
def Run.writeDocument (document : Json) : Run Unit := write (document.render ++ "\n")

/-- Tell how many records have no shares, if there are any. -/
def Run.noteWithoutShares (records : List Record) : Run Unit :=
  if 0 < withoutShares records then note (.withoutShares (withoutShares records))
  else done ()

namespace Request

/-- Write the report about the selected records. -/
def writeReport (request : Request) (field : LatencyField) (records : List Record) : Run Unit :=
  match request.mode with
  | .dump => .writeLines (Dump.lines field request.unit records)
  | .shares => do
    Run.noteWithoutShares records
    if request.json then Run.writeDocument (ShareReport.json (sharesOf records))
    else Run.writeLines (ShareReport.lines (sharesOf records))
  | .statistics =>
    let groups := LatencyGroups.ofRecords field records
    if request.json then .writeDocument (StatisticsReport.json groups request.unit)
    else .writeLines (StatisticsReport.lines groups request.unit)

/-- Answer a request. -/
def run (request : Request) (files : FileReader) : Run Unit := do
  -- A request that is refused leaves the file alone.
  let (field, selection) ← Run.ofExcept request.validate
  let trace ← Run.readTrace files request.path
  let records := selection.select trace.records
  Run.note (.selected records.length selection)
  request.writeReport field records
  Run.note (.done request.mode)

end Request

end OsdLatency
