import OsdLatency.Proofs.Text.Columns
import OsdLatency.Proofs.Text.Pieces

/-!
# Line ends

A line feed ends a line, with or without a carriage return in front of it. Only one carriage return
belongs to the line end, and a last line without a line feed keeps its own. So a line may still end
in white space, and what is read of a text depends on its line feeds alone if white space at the end
of a line makes no difference to the reader.

## Main definitions

* `withReturns` — the text with a carriage return in front of every line feed
* `IgnoresEnd` — white space at the end of a line makes no difference to a reader

## Main results

* `filterMap_lines_append` — what is read of two texts with a line feed between them
* `foldl_lines_eq_foldl_pieces` — reading line by line may go over the pieces instead
* `map_lines_withReturns` — carriage returns in front of line feeds make no difference
* `columns_concat`, `occursIn_concat` — columns and ASCII words ignore the end of a line
-/

namespace OsdLatency.Text

variable {β : Type*} {read : List Char → β} {c : Char} {line text front back : List Char}

/-- The text with a carriage return in front of every line feed. -/
def withReturns (text : List Char) : List Char :=
  text.flatMap fun c => if c = '\n' then ['\r', '\n'] else [c]

/-- White space at the end of a line makes no difference to a reader of lines. -/
def IgnoresEnd (read : List Char → β) : Prop :=
  ∀ line c, isBlank c = true → read (line ++ [c]) = read line

/-! ### Carriage returns in front of line feeds -/

theorem withReturns_append (front back : List Char) :
    withReturns (front ++ back) = withReturns front ++ withReturns back :=
  List.flatMap_append

theorem withReturns_append_newline (front back : List Char) :
    withReturns (front ++ '\n' :: back) =
      (withReturns front ++ ['\r']) ++ '\n' :: withReturns back := by
  have hfeed : withReturns ('\n' :: back) = ['\r', '\n'] ++ withReturns back := List.flatMap_cons
  rw [withReturns_append, hfeed]
  simp

theorem withReturns_of_not_mem (h : '\n' ∉ text) : withReturns text = text := by
  induction text with
  | nil => rfl
  | cons c text ih =>
    have hc : c ≠ '\n' := fun heq => h (heq ▸ List.mem_cons_self)
    have hcons : withReturns (c :: text) = [c] ++ withReturns text := by
      rw [withReturns, List.flatMap_cons, if_neg hc]
      rfl
    rw [hcons, ih fun hmem => h (List.mem_cons_of_mem c hmem)]
    rfl

/-! ### Lines of joined texts -/

theorem pieces_of_not_mem (h : '\n' ∉ text) : pieces text = [text] := by
  rw [pieces_eq_splitOn, List.splitOn_eq_singleton h]

theorem pieces_append_newline (front back : List Char) :
    pieces (front ++ '\n' :: back) = pieces front ++ pieces back := by
  rw [pieces_eq_splitOn, pieces_eq_splitOn, pieces_eq_splitOn, List.splitOn_append_cons_self]

theorem pieces_ne_nil (text : List Char) : pieces text ≠ [] := by
  rw [pieces_eq_splitOn]
  exact List.splitOn_ne_nil _ _

/-- The first of two joined texts is closed: all of its pieces are lines, the empty ones too. -/
theorem lines_append_newline (front back : List Char) :
    lines (front ++ '\n' :: back) = (pieces front).map dropReturn ++ lines back := by
  unfold lines
  rw [pieces_append_newline, List.dropLast_append_of_ne_nil (pieces_ne_nil back), List.map_append,
    List.getLast?_append_of_ne_nil _ (pieces_ne_nil back), List.append_assoc]

/-! ### Readers of lines -/

theorem IgnoresEnd.dropReturn_eq (h : IgnoresEnd read) (line : List Char) :
    read (dropReturn line) = read line := by
  unfold dropReturn
  split_ifs with hreturn
  · obtain ⟨front, rfl⟩ := List.getLast?_eq_some_iff.mp hreturn
    rw [List.dropLast_concat, h front '\r' isBlank_carriageReturn]
  · rfl

theorem IgnoresEnd.map_dropReturn (h : IgnoresEnd read) (pieces : List (List Char)) :
    (pieces.map dropReturn).map read = pieces.map read := by
  rw [List.map_map]
  exact List.map_congr_left fun piece _ => h.dropReturn_eq piece

/-- All pieces of a text but the last one are lines, and the last one is unless it is empty. -/
theorem exists_lines_eq (text : List Char) : ∃ closed last, pieces text = closed ++ [last] ∧
    lines text = closed.map dropReturn ++ [last].filter (!·.isEmpty) := by
  obtain ⟨closed, last, hpieces⟩ : ∃ closed last, pieces text = closed ++ [last] :=
    ⟨_, _, (List.dropLast_append_getLast (pieces_ne_nil text)).symm⟩
  refine ⟨closed, last, hpieces, ?_⟩
  rw [lines, hpieces, List.dropLast_concat, List.getLast?_concat]
  rfl

/-- A reader that finds nothing in an empty line finds in two joined texts what it finds in each of
them. -/
theorem filterMap_lines_append {read : List Char → Option β} (h : IgnoresEnd read)
    (hempty : read [] = none) (front back : List Char) :
    (lines (front ++ '\n' :: back)).filterMap read =
      (lines front).filterMap read ++ (lines back).filterMap read := by
  have hdrop : ∀ pieces : List (List Char),
      (pieces.map dropReturn).filterMap read = pieces.filterMap read := fun pieces => by
    rw [List.filterMap_map]
    exact List.filterMap_congr fun piece _ => h.dropReturn_eq piece
  obtain ⟨closed, last, hpieces, hlines⟩ := exists_lines_eq front
  -- The last piece of the first text is a line of its own only if it is not empty.
  have hlast : ([last].filter (!·.isEmpty)).filterMap read = [last].filterMap read := by
    cases last with
    | nil => simp [hempty]
    | cons c last => rfl
  rw [lines_append_newline, hlines, hpieces, List.filterMap_append, hdrop, List.filterMap_append,
    List.filterMap_append, hdrop, hlast]

/-- Closed lines hold the same with a carriage return at the end of each. -/
theorem map_pieces_withReturns (h : IgnoresEnd read) (text : List Char) :
    (pieces (withReturns text ++ ['\r'])).map read = (pieces text).map read := by
  induction text using separatorInduction '\n' with
  | piece text hfeed =>
    have hclosed : '\n' ∉ text ++ ['\r'] := by simpa using hfeed
    rw [withReturns_of_not_mem hfeed, pieces_of_not_mem hfeed, pieces_of_not_mem hclosed,
      List.map_singleton, List.map_singleton, h text '\r' isBlank_carriageReturn]
  | join front back ihfront ihback =>
    rw [withReturns_append_newline, List.append_assoc, List.cons_append, pieces_append_newline,
      pieces_append_newline, List.map_append, List.map_append, ihfront, ihback]

/-- Carriage returns in front of line feeds make no difference. -/
theorem map_lines_withReturns (h : IgnoresEnd read) (text : List Char) :
    (lines (withReturns text)).map read = (lines text).map read := by
  induction text using separatorInduction '\n' with
  | piece text hfeed => rw [withReturns_of_not_mem hfeed]
  | join front back _ ihback =>
    rw [withReturns_append_newline, lines_append_newline, lines_append_newline, List.map_append,
      List.map_append, h.map_dropReturn, h.map_dropReturn, map_pieces_withReturns h, ihback]

theorem filterMap_lines_withReturns {read : List Char → Option β} (h : IgnoresEnd read)
    (text : List Char) :
    (lines (withReturns text)).filterMap read = (lines text).filterMap read := by
  have hmap := map_lines_withReturns h text
  have := congrArg (List.filterMap id) hmap
  rwa [List.filterMap_map, List.filterMap_map] at this

/-- Lines that a reader takes for the same are read alike. -/
theorem foldl_eq_of_map_eq {α γ : Type*} {step : α → γ → α} {lines lines' : List γ}
    (h : lines.map (fun line state => step state line) =
      lines'.map fun line state => step state line) (start : α) :
    lines.foldl step start = lines'.foldl step start := by
  have hfold : ∀ lines : List γ, lines.foldl step start =
      (lines.map fun line state => step state line).foldl (fun state next => next state) start :=
    fun lines => by rw [List.foldl_map]
  rw [hfold, hfold, h]

theorem foldl_lines_withReturns {α : Type*} {step : α → List Char → α}
    (h : IgnoresEnd fun line state => step state line) (start : α) (text : List Char) :
    (lines (withReturns text)).foldl step start = (lines text).foldl step start :=
  foldl_eq_of_map_eq (map_lines_withReturns h text) start

/-- A reader that stays as it is at an empty line may read the pieces of a text for its lines. -/
theorem foldl_lines_eq_foldl_pieces {α : Type*} {step : α → List Char → α}
    (h : IgnoresEnd fun line state => step state line) (hempty : ∀ state, step state [] = state)
    (start : α) (text : List Char) :
    (lines text).foldl step start = (pieces text).foldl step start := by
  obtain ⟨closed, last, hpieces, hlines⟩ := exists_lines_eq text
  have hdrop : ∀ state line, step state (dropReturn line) = step state line :=
    fun state line => congrFun (h.dropReturn_eq line) state
  rw [hpieces, hlines, List.foldl_append, List.foldl_append, List.foldl_map]
  simp only [hdrop]
  cases last with
  | nil => exact (hempty _).symm
  | cons c last => rfl

/-! ### Parts of lines -/

theorem columns_concat (hc : isBlank c = true) (line : List Char) :
    columns (line ++ [c]) = columns line := by
  rw [columns_append_blank hc, columns_nil, List.append_nil]

/-- A line begins with a word exactly if it does without the white space at its end. -/
theorem isPrefixOf_concat {word : List Char} (hc : c ∉ word) (line : List Char) :
    word.isPrefixOf (line ++ [c]) = word.isPrefixOf line := by
  rw [Bool.eq_iff_iff, List.isPrefixOf_iff_prefix, List.isPrefixOf_iff_prefix,
    List.prefix_concat_iff]
  refine or_iff_right ?_
  rintro rfl
  exact hc (List.mem_append_right line List.mem_cons_self)

theorem occursIn_iff {word : String} : occursIn word line = true ↔ word.toList <:+: line := by
  rw [occursIn, Option.isSome_iff_exists]
  constructor
  · rintro ⟨⟨⟩, h⟩
    obtain ⟨before, input, rest, rfl, hword, -⟩ := Scanner.findFirst_eq_some_iff.mp h
    obtain rfl := Scanner.literal_eq_some_iff.mp hword
    exact ⟨before, rest, List.append_assoc _ _ _⟩
  · rintro ⟨before, rest, rfl⟩
    rw [← Option.isSome_iff_exists, ← Option.ne_none_iff_isSome]
    intro hnone
    have hrefused := Scanner.findFirst_eq_none_iff.mp hnone before (word.toList ++ rest) (by simp)
    exact absurd (hrefused.symm.trans (Scanner.literal_append word rest)) nofun

/-- A word stands in a line exactly if it does without the white space at its end. -/
theorem occursIn_concat {word : String} (hc : c ∉ word.toList) (line : List Char) :
    occursIn word (line ++ [c]) = occursIn word line := by
  rw [Bool.eq_iff_iff, occursIn_iff, occursIn_iff, List.infix_concat_iff]
  refine ⟨fun h => h.elim (fun hsuffix => ?_) id, Or.inr⟩
  -- A word that ends where the line does would end in the white space.
  cases List.suffix_concat_iff.mp hsuffix with
  | inl hnil =>
    rw [hnil]
    exact List.nil_infix
  | inr hword =>
    obtain ⟨word', hword', -⟩ := hword
    exact absurd (hword' ▸ List.mem_append_right word' List.mem_cons_self) hc

end OsdLatency.Text
