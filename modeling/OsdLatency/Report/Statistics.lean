import OsdLatency.Grouping
import OsdLatency.Report.Amount
import OsdLatency.Report.Json
import OsdLatency.Report.PercentileTable
import OsdLatency.Summary

/-!
# The report on statistics

The figures of one field for every OSD and kind of operation, as text or as a JSON document. The
text names every OSD that has a record, also one without a value of the field.

## Main definitions

* `StatisticsReport.lines` — the text
* `StatisticsReport.sections` — the figures with what they are about
* `StatisticsReport.json` — the document
-/

namespace OsdLatency.StatisticsReport

open Binary64 (fixedPlaces)

/-- The line that opens an OSD. -/
def osdLine (osd : UInt32) : String := s!"osd.{osd}:"

/-- The line with the figures of a group. -/
def figuresLine (field : LatencyField) (unit : TimeUnit) (kind : OpKind) (summary : Summary) :
    String :=
  s!"  {kind.name} {field.name} ({unit.label}): min={unit.exact summary.min}, " ++
    s!"max={unit.exact summary.max}, avg={fixedPlaces 2 summary.mean}, " ++
    s!"stdev={fixedPlaces 2 summary.deviation}, samples={summary.count}"

/-- The lines about a group: its figures, its percentiles and an empty line. -/
def summaryLines (field : LatencyField) (unit : TimeUnit) (kind : OpKind) (summary : Summary) :
    List String :=
  figuresLine field unit kind summary :: s!"  {field.name} percentiles ({unit.label}):" ::
    (PercentileTable.lines Percentile.thresholds summary.percentiles ++ [""])

/-- The lines of the report. -/
def lines (groups : LatencyGroups) (unit : TimeUnit) : List String :=
  groups.osdIds.flatMap fun osd =>
    osdLine osd :: (groups.kindsOf osd).flatMap fun (kind, samples) =>
      match Summary.ofSamples? unit samples with
      | none => []
      | some summary => summaryLines groups.field unit kind summary

/-- The figures of a group with what they are about. -/
structure Section where
  osd : UInt32
  kind : OpKind
  field : LatencyField
  unit : TimeUnit
  summary : Summary

/-- The figures of all groups, by ascending OSD and in the order of the kinds. -/
def sections (groups : LatencyGroups) (unit : TimeUnit) : List Section :=
  groups.osdIds.flatMap fun osd =>
    (groups.kindsOf osd).filterMap fun (kind, samples) =>
      (Summary.ofSamples? unit samples).map fun summary =>
        { osd, kind, field := groups.field, unit, summary }

/-- The percentiles of a group as a list of objects. -/
def percentilesJson (values : List Float) : Json :=
  .list (List.zipWith (fun threshold value =>
    .object [("percentile", .double threshold), ("value", .double value)])
    Percentile.thresholds values)

/-- The figures of a group as an object. -/
def Section.json (s : Section) : Json :=
  .object [
    ("osd", .count s.osd.toNat),
    ("op", .text s.kind.name),
    ("field", .text s.field.name),
    ("unit", .text s.unit.label),
    ("min", .double (s.unit.scale s.summary.min.toFloat)),
    ("max", .double (s.unit.scale s.summary.max.toFloat)),
    ("avg", .double s.summary.mean),
    ("stdev", .double s.summary.deviation),
    ("samples", .count s.summary.count),
    ("percentiles", percentilesJson s.summary.percentiles)]

/-- The report as a document. -/
def json (groups : LatencyGroups) (unit : TimeUnit) : Json :=
  .list ((sections groups unit).map Section.json)

end OsdLatency.StatisticsReport
