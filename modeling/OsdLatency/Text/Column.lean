import OsdLatency.Text.Blank

/-!
# Columns

The columns of a line are its maximal runs of characters that are not white space.
-/

namespace OsdLatency.Text

/-- Put a run in front of the columns after it. An empty run is no column. -/
def consRun (run : List Char) (columns : List (List Char)) : List (List Char) :=
  if run.isEmpty then columns else run :: columns

/-- The run that a line starts with, which may be empty, and the columns after it. -/
def leadingRun (line : List Char) : List Char × List (List Char) :=
  line.foldr (fun c (run, columns) =>
    if isBlank c then ([], consRun run columns) else (c :: run, columns)) ([], [])

/-- The columns of a line. -/
def columns (line : List Char) : List (List Char) :=
  consRun (leadingRun line).1 (leadingRun line).2

theorem leadingRun_nil : leadingRun [] = ([], []) := rfl

theorem leadingRun_cons (c : Char) (line : List Char) :
    leadingRun (c :: line) =
      if isBlank c then ([], columns line) else (c :: (leadingRun line).1, (leadingRun line).2) :=
  rfl

/-- White space in front of a line changes no column. -/
theorem columns_cons_of_isBlank {c : Char} (h : isBlank c = true) (line : List Char) :
    columns (c :: line) = columns line := by
  simp [columns, leadingRun_cons, h, consRun]

end OsdLatency.Text
