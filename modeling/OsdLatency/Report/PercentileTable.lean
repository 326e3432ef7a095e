import OsdLatency.Binary64.FixedPlaces
import OsdLatency.Text.Padding

/-!
# Percentile tables

Percentiles are shown three a line, each with its threshold. Thresholds and values have two places
and are aligned at the right. A comma follows every entry but the last.
-/

namespace OsdLatency.PercentileTable

open Binary64 (fixedPlaces)

/-- The width of the widest text. -/
def widest (texts : List String) : Nat := (texts.map String.length).foldl max 0

/-- Cut a list into rows of three. -/
def rows : List α → List (List α)
  | a :: b :: c :: rest => [a, b, c] :: rows rest
  | [] => []
  | rest => [rest]

/-- The entries, each label and each value brought to its width. -/
def entries (thresholds values : List Float) : List String :=
  let labels := thresholds.map (fixedPlaces 2)
  let values := values.map (fixedPlaces 2)
  List.zipWith (fun label value =>
    " " ++ Text.alignRight (widest labels) label ++ "th=["
      ++ Text.alignRight (widest values) value ++ "]") labels values

/-- One line of the table, without the comma behind it. -/
def line (row : List String) : String := "  | " ++ ",".intercalate row

/-- Put a comma behind every line but the last. -/
def joinLines : List String → List String
  | [] => []
  | [last] => [last]
  | line :: next :: others => (line ++ ",") :: joinLines (next :: others)

/-- The lines of the table. What has no threshold or no value is left out. -/
def lines (thresholds values : List Float) : List String :=
  joinLines ((rows (entries thresholds values)).map line)

end OsdLatency.PercentileTable
