import Mathlib.Data.List.Forall2
import OsdLatency.Proofs.Text.Numerals
import OsdLatency.Report.PercentileTable

/-!
# What a table of percentiles shows

A table shows every percentile once, three a line. Labels and values are moved to the right by
spaces, as far as the widest of them reaches, so that all entries are as long as one another. A
comma follows every entry but the last one, wherever the rows end.

## Main definitions

* `PercentileTable.IsWidest`, `PercentileTable.IsAligned` — the width of a column, a text in it
* `PercentileTable.IsEntry` — an entry of a table
* `PercentileTable.IsTable` — how the lines of a table are made up

## Main results

* `PercentileTable.lines_eq_map` — the commas may be put before the entries are cut into rows
* `PercentileTable.splitOn_lines` — the entries are read back from the lines
* `PercentileTable.isTable_lines` — the lines of thresholds and values are a table of them
-/

namespace OsdLatency.PercentileTable

open Binary64 (fixedPlaces)
open Text

/-! ### Widths -/

/-- The width of the widest text. -/
structure IsWidest (width : ℕ) (texts : List String) : Prop where
  le : ∀ text ∈ texts, text.length ≤ width
  exists_eq : texts ≠ [] → ∃ text ∈ texts, text.length = width

theorem isWidest_widest (texts : List String) : IsWidest (widest texts) texts := by
  have hwidest : widest texts = (texts.map String.length).max?.getD 0 := by
    rw [widest, List.foldl_max, Nat.zero_max]
  cases hmax : (texts.map String.length).max? with
  | none =>
    obtain rfl : texts = [] := by simpa using hmax
    exact ⟨by simp, by simp⟩
  | some width =>
    obtain ⟨hmem, hle⟩ := List.max?_eq_some_iff.mp hmax
    rw [hwidest, hmax, Option.getD_some]
    exact ⟨fun text htext => hle _ (List.mem_map_of_mem htext),
      fun _ => List.mem_map.mp hmem⟩

/-- A text with spaces in front, up to a width. -/
def IsAligned (width : ℕ) (text aligned : String) : Prop :=
  ∃ spaces, aligned.toList = List.replicate spaces ' ' ++ text.toList ∧
    spaces + text.length = width

theorem isAligned_alignRight {width : ℕ} {text : String} (h : text.length ≤ width) :
    IsAligned width text (alignRight width text) :=
  ⟨width - text.length, by rw [toList_alignRight, List.leftpad, String.length_toList],
    Nat.sub_add_cancel h⟩

theorem IsAligned.length_eq {width : ℕ} {text aligned : String}
    (h : IsAligned width text aligned) : aligned.length = width := by
  obtain ⟨spaces, htext, hwidth⟩ := h
  rw [← String.length_toList, htext, List.length_append, List.length_replicate,
    String.length_toList, hwidth]

/-! ### Rows -/

section Rows

variable {α : Type*} {l : List α}

@[simp] theorem rows_eq_nil_iff : rows l = [] ↔ l = [] := by
  fun_cases rows l <;> simp_all

theorem flatten_rows (l : List α) : (rows l).flatten = l := by
  fun_induction rows l with
  | case1 a b c rest ih => simp [ih]
  | case2 => rfl
  | case3 rest => simp

/-- A row is added for every three elements that are begun. -/
theorem length_rows : ∀ l : List α, (rows l).length = (l.length + 2) / 3
  | [] | [_] | [_, _] => by simp [rows]
  | a :: b :: c :: rest => by
    have ih := length_rows rest
    simp only [rows, List.length_cons]
    omega

/-- All rows but the last have three elements, and the last has at most as many. -/
theorem length_of_rows : ∀ l : List α, (∀ row ∈ (rows l).dropLast, row.length = 3) ∧
    ∀ row ∈ (rows l).getLast?, 1 ≤ row.length ∧ row.length ≤ 3
  | [] => by simp [rows]
  | [_] => by simp [rows]
  | [_, _] => by simp [rows]
  | a :: b :: c :: rest => by
    obtain ⟨hothers, hlast⟩ := length_of_rows rest
    rw [rows]
    rcases eq_or_ne (rows rest) [] with hnil | hne
    · simp [hnil]
    · rw [List.dropLast_cons_of_ne_nil hne, List.getLast?_cons_of_ne_nil hne]
      exact ⟨List.forall_mem_cons.mpr ⟨rfl, hothers⟩, hlast⟩

end Rows

/-! ### Commas -/

section Commas

variable {texts : List String} {text : String}

theorem joinLines_cons_of_ne_nil (h : texts ≠ []) :
    joinLines (text :: texts) = (text ++ ",") :: joinLines texts := by
  obtain ⟨next, others, rfl⟩ := List.exists_cons_of_ne_nil h
  rfl

/-- Every text but the last has a comma behind it. -/
theorem joinLines_eq_mapIdx : ∀ texts : List String,
    joinLines texts = texts.mapIdx fun i text => if i + 1 < texts.length then text ++ "," else text
  | [] => rfl
  | [_] => by simp [joinLines]
  | text :: next :: others => by
    rw [joinLines, joinLines_eq_mapIdx, List.mapIdx_cons (l := next :: others)]
    simp

/-- The commas may be put before the entries are cut into rows. -/
theorem joinLines_map_line : ∀ texts : List String,
    joinLines ((rows texts).map line) =
      (rows (joinLines texts)).map fun row => "  | " ++ String.join row
  | [] => rfl
  | [a] => by simp [rows, joinLines, line]
  | [a, b] => by simp [rows, joinLines, line]
  | a :: b :: c :: rest => by
    have ih := joinLines_map_line rest
    rcases eq_or_ne rest [] with rfl | hne
    · simp [rows, joinLines, line]
    · have hrows : (rows rest).map line ≠ [] := by simpa using hne
      rw [rows, List.map_cons, joinLines_cons_of_ne_nil hrows, ih, joinLines, joinLines,
        joinLines_cons_of_ne_nil hne, rows, List.map_cons, line]
      simp [String.append_assoc]

theorem join_joinLines : ∀ texts : List String,
    (String.join (joinLines texts)).toList = [','].intercalate (texts.map String.toList)
  | [] => rfl
  | [text] => by simp [joinLines]
  | text :: next :: others => by
    rw [joinLines, String.join_cons, String.toList_append, join_joinLines, List.map_cons,
      List.map_cons, List.map_cons, List.intercalate_cons_cons]
    simp

end Commas

/-! ### Entries -/

/-- An entry of a table: a threshold and a percentile with two places, each in its column. -/
def IsEntry (labelWidth valueWidth : ℕ) (threshold value : Float) (entry : String) : Prop :=
  ∃ label shown, IsAligned labelWidth (fixedPlaces 2 threshold) label ∧
    IsAligned valueWidth (fixedPlaces 2 value) shown ∧
    entry = " " ++ label ++ "th=[" ++ shown ++ "]"

theorem IsEntry.length_eq {labelWidth valueWidth : ℕ} {threshold value : Float} {entry : String}
    (h : IsEntry labelWidth valueWidth threshold value entry) :
    entry.length = labelWidth + valueWidth + 6 := by
  obtain ⟨label, shown, hlabel, hshown, rfl⟩ := h
  simp only [String.length_append, hlabel.length_eq, hshown.length_eq]
  have : " ".length = 1 := rfl
  have : "th=[".length = 4 := rfl
  have : "]".length = 1 := rfl
  omega

theorem not_mem_fixedPlaces (places : ℕ) (x : Float) : ',' ∉ (fixedPlaces places x).toList := by
  have hdigits (n : ℕ) : ',' ∉ Nat.toDigits 10 n := (isDigits_numeral n).not_mem (by decide)
  have hsign (sign) : ',' ∉ Binary64.signText sign := by cases sign <;> decide
  have hpoint (units : ℕ) : ',' ∉ Binary64.withPoint places units := by
    unfold Binary64.withPoint
    split_ifs
    · exact hdigits _
    · simp [hdigits, List.leftpad]
  unfold fixedPlaces
  split
  · decide
  · simp [hsign]
  · simp [hsign, hpoint]
  · simp [hsign, hpoint]

theorem IsAligned.not_mem {width : ℕ} {text aligned : String} {c : Char}
    (h : IsAligned width text aligned) (hc : c ≠ ' ') (htext : c ∉ text.toList) :
    c ∉ aligned.toList := by
  obtain ⟨spaces, haligned, -⟩ := h
  rw [haligned]
  simp [hc, htext]

theorem IsEntry.not_mem {labelWidth valueWidth : ℕ} {threshold value : Float} {entry : String}
    (h : IsEntry labelWidth valueWidth threshold value entry) : ',' ∉ entry.toList := by
  obtain ⟨label, shown, hlabel, hshown, rfl⟩ := h
  have hlabel := hlabel.not_mem (by decide) (not_mem_fixedPlaces _ _)
  have hshown := hshown.not_mem (by decide) (not_mem_fixedPlaces _ _)
  simp [hlabel, hshown]

/-- An entry for each threshold and its value, in the order of the thresholds. -/
theorem isEntry_entries (thresholds values : List Float) :
    List.Forall₂ (fun pair => IsEntry (widest (thresholds.map (fixedPlaces 2)))
        (widest (values.map (fixedPlaces 2))) pair.1 pair.2)
      (thresholds.zip values) (entries thresholds values) := by
  rw [entries, List.zipWith_map, ← List.map_uncurry_zip_eq_zipWith, List.forall₂_map_right_iff,
    List.forall₂_same]
  rintro ⟨threshold, value⟩ hpair
  obtain ⟨hthreshold, hvalue⟩ := List.of_mem_zip hpair
  exact ⟨_, _, isAligned_alignRight ((isWidest_widest _).le _ (List.mem_map_of_mem hthreshold)),
    isAligned_alignRight ((isWidest_widest _).le _ (List.mem_map_of_mem hvalue)), rfl⟩

/-- What holds of every entry of its kind holds of the entries of a table. -/
theorem forall_entries {thresholds values : List Float} {p : String → Prop}
    (h : ∀ (pair : Float × Float) (entry : String),
      IsEntry (widest (thresholds.map (fixedPlaces 2))) (widest (values.map (fixedPlaces 2)))
        pair.1 pair.2 entry → p entry) :
    ∀ entry ∈ entries thresholds values, p entry :=
  have hboth := (isEntry_entries thresholds values).imp fun pair entry hentry =>
    And.intro (h pair entry hentry) hentry
  ((List.forall₂_and_left _ _).mp hboth.flip).1

/-! ### Tables -/

theorem length_joinLines (texts : List String) : (joinLines texts).length = texts.length := by
  rw [joinLines_eq_mapIdx, List.length_mapIdx]

/-- The lines are rows of entries that already have their commas. -/
theorem lines_eq_map (thresholds values : List Float) : lines thresholds values =
    (rows (joinLines (entries thresholds values))).map fun row => "  | " ++ String.join row :=
  joinLines_map_line _

/-- The lines without what stands in front of them are the entries with commas between them. -/
theorem flatMap_lines (thresholds values : List Float) :
    ((lines thresholds values).flatMap fun line => line.toList.drop 4) =
      [','].intercalate ((entries thresholds values).map String.toList) := by
  have hfront (row : List String) :
      ("  | " ++ String.join row).toList.drop 4 = row.flatMap String.toList := by
    simp [String.toList_join]
  calc ((lines thresholds values).flatMap fun line => line.toList.drop 4)
      = (rows (joinLines (entries thresholds values))).flatMap fun row =>
          row.flatMap String.toList := by
        rw [lines_eq_map, List.flatMap_map]
        simp only [hfront]
    _ = (joinLines (entries thresholds values)).flatMap String.toList := by
        rw [← List.flatMap_assoc, List.flatMap_id', flatten_rows]
    _ = [','].intercalate ((entries thresholds values).map String.toList) := by
        rw [← join_joinLines, String.toList_join]

/-- The entries are read back from the lines. -/
theorem splitOn_lines {thresholds values : List Float} (h : entries thresholds values ≠ []) :
    ((lines thresholds values).flatMap fun line => line.toList.drop 4).splitOn ',' =
      (entries thresholds values).map String.toList := by
  rw [flatMap_lines]
  refine List.splitOn_intercalate _ (fun text htext => ?_) (by simpa using h)
  obtain ⟨entry, hentry, rfl⟩ := List.mem_map.mp htext
  exact forall_entries (fun _ _ h => h.not_mem) entry hentry

/-- How the lines of a table are made up of rows of entries. -/
structure IsTable (thresholds values : List Float) (entries : List String)
    (rows : List (List String)) (lines : List String) : Prop where
  /-- Each threshold and its value have an entry, with columns as wide as their widest texts. -/
  entry : ∃ labelWidth valueWidth, IsWidest labelWidth (thresholds.map (fixedPlaces 2)) ∧
    IsWidest valueWidth (values.map (fixedPlaces 2)) ∧
    List.Forall₂ (fun pair => IsEntry labelWidth valueWidth pair.1 pair.2)
      (thresholds.zip values) entries
  length_eq : ∀ entry ∈ entries, ∀ other ∈ entries, entry.length = other.length
  comma : rows.flatten =
    entries.mapIdx fun i entry => if i + 1 < entries.length then entry ++ "," else entry
  three : ∀ row ∈ rows.dropLast, row.length = 3
  rest : ∀ row ∈ rows.getLast?, 1 ≤ row.length ∧ row.length ≤ 3
  line : lines = rows.map fun row => "  | " ++ String.join row
  /-- Without what stands in front of the lines, the commas separate the entries. -/
  read : entries ≠ [] →
    (lines.flatMap fun line => line.toList.drop 4).splitOn ',' = entries.map String.toList

/-- The lines for thresholds and as many values are a table with an entry for each of them. -/
theorem isTable_lines {thresholds values : List Float} (h : thresholds.length = values.length) :
    (lines thresholds values).length = (thresholds.length + 2) / 3 ∧
      ∃ entries rows, entries.length = thresholds.length ∧
        IsTable thresholds values entries rows (lines thresholds values) := by
  have hentries := isEntry_entries thresholds values
  have hlength : (entries thresholds values).length = thresholds.length := by
    rw [← hentries.length_eq, List.length_zip, ← h, min_self]
  have hwidth : ∀ entry ∈ entries thresholds values, entry.length = _ :=
    forall_entries fun _ _ h => h.length_eq
  obtain ⟨hthree, hrest⟩ := length_of_rows (joinLines (entries thresholds values))
  refine ⟨?_, entries thresholds values, rows (joinLines (entries thresholds values)), hlength, ?_⟩
  · rw [lines_eq_map, List.length_map, length_rows, length_joinLines, hlength]
  · exact {
      entry := ⟨_, _, isWidest_widest _, isWidest_widest _, hentries⟩
      length_eq := fun entry hentry other hother =>
        (hwidth entry hentry).trans (hwidth other hother).symm
      comma := by rw [flatten_rows, joinLines_eq_mapIdx]
      three := hthree
      rest := hrest
      line := lines_eq_map thresholds values
      read := splitOn_lines }

/-- Thresholds of four percentiles. -/
def fewThresholds : List Float := [1, 50, 90, 99.9]

/-- Four percentiles, the widest being the third. -/
def fewValues : List Float := [5, 120.5, 9120, 877.25]

/-- The table of four percentiles has two lines. -/
theorem isTable_lines_few :
    fewThresholds.length = fewValues.length ∧
      lines fewThresholds fewValues =
        ["  |   1.00th=[   5.00], 50.00th=[ 120.50], 90.00th=[9120.00],",
          "  |  99.90th=[ 877.25]"] ∧
      (lines fewThresholds fewValues).length = (fewThresholds.length + 2) / 3 ∧
      ∃ entries rows, entries.length = fewThresholds.length ∧
        IsTable fewThresholds fewValues entries rows (lines fewThresholds fewValues) := by
  have hlength : fewThresholds.length = fewValues.length := by simp [fewThresholds, fewValues]
  exact ⟨hlength, by decide +kernel, isTable_lines hlength⟩

end OsdLatency.PercentileTable
