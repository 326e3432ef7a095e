import OsdLatency.Binary64.FixedPlaces
import OsdLatency.Suspect.Ranking
import OsdLatency.Text.Padding
import OsdLatency.TimeUnit

/-!
# The report on suspects

What has been scanned, the suspect of each round, and a table of them all.

## Main definitions

* `SuspectReport.header` — what is scanned
* `SuspectReport.lines` — the suspects, or that there is no slow operation
-/

namespace OsdLatency.SuspectReport

/-- The lines that say what is scanned. -/
def header (log tree : String) (threshold : UInt64) : List String :=
  let millis := Binary64.fixedPlaces 1 (TimeUnit.millis.scale threshold.toFloat)
  [s!"Analyzing log file: {log}",
   s!"OSD tree file: {tree}",
   s!"Latency threshold: {threshold} microseconds ({millis} ms)"]

/-- The width of the report. -/
def width : Nat := 70

/-- A thick rule. -/
def rule : String := String.ofList (List.replicate width '=')

/-- A thin rule. -/
def thinRule : String := String.ofList (List.replicate width '-')

/-- A row of the table. Its columns start at fixed places, and the last one is filled up too. -/
def row (rank osd count host round : String) : String :=
  " ".intercalate [
    Text.alignLeft 6 rank, Text.alignLeft 10 osd, Text.alignLeft 8 count, Text.alignLeft 20 host,
    Text.alignLeft 10 round]

/-- The row of a suspect. -/
def suspectRow (rank : Nat) (s : Suspect) : String :=
  row (toString rank) s!"osd.{s.osd}" (toString s.count) s.host (toString s.round)

/-- The line about the round that found a suspect. -/
def roundLine (s : Suspect) : String :=
  s!"[Iteration {s.round}] Top OSD: osd.{s.osd} ({s.count} occurrences on {s.host})"

/-- The table of all suspects. -/
def summary (suspects : List Suspect) (operations : Nat) : List String :=
  ["", rule, "=== SUMMARY: Problematic OSDs Identified ===", rule,
   row "Rank" "OSD" "Count" "Host" "Iteration", thinRule]
  ++ suspects.mapIdx (fun index s => suspectRow (index + 1) s)
  ++ [thinRule,
      s!"Total problematic OSDs identified: {suspects.length}",
      s!"Total high-latency operations analyzed: {operations}",
      rule]

/-- The lines about the suspects among a number of slow operations. -/
def lines (suspects : List Suspect) (operations : Nat) : List String :=
  if suspects.isEmpty then ["No matching entries found with the given criteria."]
  else
    ["", rule, "Starting iterative analysis to identify problematic OSDs...", rule]
    ++ suspects.map roundLine
    ++ ["", s!"[Iteration {suspects.length + 1}] No more high-latency operations found."]
    ++ summary suspects operations

end OsdLatency.SuspectReport
