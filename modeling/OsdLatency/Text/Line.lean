/-!
# Lines

A text is cut at its line feeds. A carriage return directly before a line feed belongs to the line
end, and a text that ends in a line feed has no empty last line.

## Main definitions

* `pieces` — the texts between the line feeds, at least one
* `lines` — the lines
-/

namespace OsdLatency.Text

/-- The pieces between the separators of a text: the first one, and those after each separator. -/
def cut (isSeparator : α → Bool) (text : List α) : List α × List (List α) :=
  text.foldr (fun c (first, others) =>
    if isSeparator c then ([], first :: others) else (c :: first, others)) ([], [])

/-- The texts between the line feeds of a text. There is one more of them than line feeds. -/
def pieces (text : List Char) : List (List Char) :=
  let (first, others) := cut (· == '\n') text
  first :: others

/-- A line without a carriage return at its end. -/
def dropReturn (line : List Char) : List Char :=
  if line.getLast? = some '\r' then line.dropLast else line

/-- The lines of a text: what stands before each line feed, and then what is left after the last one
unless it is empty. Only a line that is closed by a line feed gives up a carriage return. -/
def lines (text : List Char) : List (List Char) :=
  (pieces text).dropLast.map dropReturn ++ (pieces text).getLast?.toList.filter (!·.isEmpty)

@[simp] theorem cut_nil (p : α → Bool) : cut p [] = ([], []) := rfl

theorem cut_cons (p : α → Bool) (c : α) (text : List α) :
    cut p (c :: text) =
      if p c then ([], (cut p text).1 :: (cut p text).2)
      else (c :: (cut p text).1, (cut p text).2) :=
  rfl

@[simp] theorem pieces_nil : pieces [] = [[]] := rfl

@[simp] theorem lines_nil : lines [] = [] := rfl

end OsdLatency.Text
