import OsdLatency.Binary64.FixedPlaces
import OsdLatency.Report.Json
import OsdLatency.Report.PercentileTable
import OsdLatency.Share

/-!
# The report on shares

The mean shares of the components for every OSD and kind of operation, as text or as a JSON
document. The percentages of a kind are aligned at the right.
-/

namespace OsdLatency.ShareReport

open Binary64 (fixedPlaces)
open PercentileTable (widest)

/-- The lines about the operations of one kind. -/
def kindLines (k : KindShares) : List String :=
  let percents := k.shares.map fun s => fixedPlaces 2 s.percent
  s!"  {k.kind.name}:" :: List.zipWith (fun percent s =>
    s!"    {Text.alignRight (widest percents) percent}% from {s.field.name}") percents k.shares

/-- The lines about an OSD. -/
def osdLines (o : OsdShares) : List String :=
  s!"osd.{o.osd}:" :: (o.kinds.flatMap kindLines ++ [""])

/-- The lines of the report. -/
def lines (shares : List OsdShares) : List String := shares.flatMap osdLines

/-- A share as an object. -/
def fieldJson (s : FieldShare) : Json :=
  .object [("field", .text s.field.name), ("percent", .double s.percent)]

/-- The shares of a kind as an object. -/
def kindJson (k : KindShares) : Json :=
  .object [("op", .text k.kind.name), ("contributions", .list (k.shares.map fieldJson))]

/-- The shares of an OSD as an object. -/
def osdJson (o : OsdShares) : Json :=
  .object [("osd", .count o.osd.toNat), ("ops", .list (o.kinds.map kindJson))]

/-- The report as a document. -/
def json (shares : List OsdShares) : Json := .list (shares.map osdJson)

end OsdLatency.ShareReport
