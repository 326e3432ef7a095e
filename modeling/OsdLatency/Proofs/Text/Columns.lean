import OsdLatency.Proofs.Text.Runs
import OsdLatency.Text.Column

/-!
# The columns of a text and of its parts

White space between two texts keeps their columns apart. A text that goes on can only add to its
last column or add further ones.

## Main results

* `hasRuns_isSolid_iff` — the columns are the runs without white space, in their order
* `columns_append_blank` — the columns of two texts with white space between them
* `columns_eq_cons_iff`, `columns_eq_cons_cons_iff` — where the first columns of a text stand
* `length_columns_le` — a text has no fewer columns than its front
-/

namespace OsdLatency.Text

/-- Whether a character belongs to a column. -/
def isSolid (c : Char) : Bool := !isBlank c

@[simp] theorem isSolid_eq_false {c : Char} : isSolid c = false ↔ isBlank c = true := by
  simp [isSolid]

@[simp] theorem isSolid_eq_true {c : Char} : isSolid c = true ↔ isBlank c = false := by
  simp [isSolid]

theorem columns_nil : columns [] = [] := rfl

theorem columns_append_of_isPad {pad : List Char} (hpad : IsPad pad) (text : List Char) :
    columns (pad ++ text) = columns text := by
  induction pad with
  | nil => rfl
  | cons c pad ih =>
    rw [List.cons_append, columns_cons_of_isBlank (hpad c List.mem_cons_self)]
    exact ih fun d hd => hpad d (List.mem_cons_of_mem c hd)

theorem columns_of_isPad {pad : List Char} (hpad : IsPad pad) : columns pad = [] := by
  have := columns_append_of_isPad hpad []
  rwa [List.append_nil] at this

/-- The run that a text starts with stands in front of the columns of what follows it. -/
theorem leadingRun_append {run rest : List Char} (hrun : ∀ c ∈ run, isSolid c = true)
    (hrest : Boundary isSolid rest) : leadingRun (run ++ rest) = (run, columns rest) := by
  induction run with
  | nil =>
    cases rest with
    | nil => rfl
    | cons c rest =>
      have hc : isBlank c = true := by simpa using hrest
      simp [leadingRun_cons, hc, columns_cons_of_isBlank hc]
  | cons c run ih =>
    have hc : isBlank c = false := by simpa using hrun c List.mem_cons_self
    rw [List.cons_append, leadingRun_cons, ih fun d hd => hrun d (List.mem_cons_of_mem c hd)]
    simp [hc]

/-- A run that ends is the first column. -/
theorem columns_run_append {run rest : List Char} (hrun : IsRun isSolid run)
    (hrest : Boundary isSolid rest) : columns (run ++ rest) = run :: columns rest := by
  rw [columns, leadingRun_append hrun.2 hrest, consRun, if_neg]
  simpa using hrun.1

/-- The columns of a text are its runs without white space, in their order. -/
theorem hasRuns_isSolid_iff {text : List Char} {found : List (List Char)} :
    HasRuns isSolid text found ↔ columns text = found := by
  have heq : ∀ {found}, HasRuns isSolid text found → columns text = found := fun h => by
    induction h with
    | nil hgap => exact columns_of_isPad fun c hc => isSolid_eq_false.mp (hgap c hc)
    | cons _ hgap hrun hrest _ ih =>
      rw [columns_append_of_isPad fun c hc => isSolid_eq_false.mp (hgap c hc),
        columns_run_append hrun hrest, ih]
  refine ⟨heq, ?_⟩
  rintro rfl
  obtain ⟨found, h⟩ := exists_hasRuns isSolid text
  rwa [heq h]

/-- A character that is not white space begins the first column. -/
theorem columns_cons_of_isSolid {c : Char} (hc : isSolid c = true) (text : List Char) :
    columns (c :: text) = (c :: (leadingRun text).1) :: (leadingRun text).2 := by
  have hblank : isBlank c = false := isSolid_eq_true.mp hc
  simp [columns, leadingRun_cons, hblank, consRun]

theorem consRun_append (run : List Char) (first second : List (List Char)) :
    consRun run (first ++ second) = consRun run first ++ second := by
  unfold consRun
  split <;> rfl

/-- White space between two texts keeps their columns apart. -/
theorem columns_append_blank {c : Char} (hc : isBlank c = true) (first second : List Char) :
    columns (first ++ c :: second) = columns first ++ columns second := by
  -- The induction is about the open run: only it sees where the white space ends a column.
  have key : leadingRun (first ++ c :: second) =
      ((leadingRun first).1, (leadingRun first).2 ++ columns second) := by
    induction first with
    | nil => simp [leadingRun_cons, hc, leadingRun_nil]
    | cons d first ih =>
      rw [List.cons_append, leadingRun_cons, leadingRun_cons]
      split
      · rw [columns, ih, consRun_append]
        rfl
      · rw [ih]
  rw [columns, key, consRun_append]
  rfl

/-- Where the first column of a text stands. -/
theorem columns_eq_cons_iff {text column : List Char} {others : List (List Char)} :
    columns text = column :: others ↔
      ∃ pad rest, text = pad ++ (column ++ rest) ∧ IsPad pad ∧ IsRun isSolid column ∧
        Boundary isSolid rest ∧ columns rest = others := by
  constructor
  · intro h
    -- The column is what stands between the white space in front and the next one.
    have hsplit : text = text.takeWhile isBlank ++ text.dropWhile isBlank :=
      (List.takeWhile_append_dropWhile).symm
    have hpad : IsPad (text.takeWhile isBlank) := fun c hc => List.mem_takeWhile_imp hc
    rw [hsplit, columns_append_of_isPad hpad] at h
    generalize hstart : text.dropWhile isBlank = start at h hsplit
    have hrun : IsRun isSolid (start.takeWhile isSolid) := by
      refine ⟨?_, fun c hc => List.mem_takeWhile_imp hc⟩
      cases start with
      | nil => simp [columns_nil] at h
      | cons c start =>
        have hc : isBlank c = false := by
          have := boundary_dropWhile (p := isBlank) text
          rw [hstart] at this
          simpa using this
        simp [isSolid, hc]
    have hrest : Boundary isSolid (start.dropWhile isSolid) := boundary_dropWhile start
    have hcolumns := columns_run_append hrun hrest
    rw [List.takeWhile_append_dropWhile, h] at hcolumns
    obtain ⟨rfl, rfl⟩ := List.cons.inj hcolumns
    exact ⟨_, _, by rw [List.takeWhile_append_dropWhile]; exact hsplit, hpad, hrun, hrest, rfl⟩
  · rintro ⟨pad, rest, rfl, hpad, hcolumn, hrest, rfl⟩
    rw [columns_append_of_isPad hpad, columns_run_append hcolumn hrest]

/-- The second column of a text begins behind white space. -/
theorem columns_eq_cons_cons_iff {text first second : List Char} {others : List (List Char)} :
    columns text = first :: second :: others ↔
      ∃ pad gap rest, text = pad ++ (first ++ (gap ++ (second ++ rest))) ∧ IsPad pad ∧
        IsRun isSolid first ∧ IsRun isBlank gap ∧ IsRun isSolid second ∧ Boundary isSolid rest ∧
        columns rest = others := by
  constructor
  · intro h
    obtain ⟨pad, left, rfl, hpad, hfirst, hleft, hothers⟩ := columns_eq_cons_iff.mp h
    obtain ⟨gap, rest, rfl, hgap, hsecond, hrest, hcolumns⟩ := columns_eq_cons_iff.mp hothers
    refine ⟨pad, gap, rest, rfl, hpad, hfirst, ⟨?_, hgap⟩, hsecond, hrest, hcolumns⟩
    -- The first column ends in front of the white space.
    rintro rfl
    obtain ⟨c, more, rfl, hc⟩ := hsecond.exists_cons
    simp [hc] at hleft
  · rintro ⟨pad, gap, rest, rfl, hpad, hfirst, hgap, hsecond, hrest, rfl⟩
    have hboundary : Boundary isSolid (gap ++ (second ++ rest)) :=
      hgap.boundary_append fun _ => isSolid_eq_false.mpr
    rw [columns_append_of_isPad hpad, columns_run_append hfirst hboundary,
      columns_append_of_isPad hgap.isPad, columns_run_append hsecond hrest]

theorem length_consRun (run : List Char) (columns : List (List Char)) :
    (consRun run columns).length = columns.length + if run = [] then 0 else 1 := by
  cases run <;> simp [consRun]

/-- A text has no fewer columns than what remains of it. -/
theorem length_columns_le_append (front rest : List Char) :
    (columns rest).length ≤ (columns (front ++ rest)).length := by
  induction front with
  | nil => exact le_rfl
  | cons c front ih =>
    rw [List.cons_append]
    by_cases hc : isBlank c = true
    · rwa [columns_cons_of_isBlank hc]
    -- The character joins the first column or begins one: neither takes a column away.
    · apply ih.trans
      rw [columns_cons_of_isSolid (by simpa using hc), columns, length_consRun, List.length_cons]
      split
      · omega
      · omega

/-- A text has no fewer columns than its front. -/
theorem length_columns_le (front rest : List Char) :
    (columns front).length ≤ (columns (front ++ rest)).length := by
  -- A character in front can close the open run, so the induction counts the columns with and
  -- without it, and a run that is not open in the longer text is not open in the front.
  have key : (leadingRun front).2.length ≤ (leadingRun (front ++ rest)).2.length ∧
      (columns front).length ≤ (columns (front ++ rest)).length ∧
      ((leadingRun (front ++ rest)).1 = [] → (leadingRun front).1 = []) := by
    induction front with
    | nil => simp [leadingRun_nil, columns_nil]
    | cons c front ih =>
      obtain ⟨hothers, hcolumns, -⟩ := ih
      rw [List.cons_append]
      by_cases hc : isBlank c = true
      · simp only [columns_cons_of_isBlank hc, leadingRun_cons, hc, if_true]
        exact ⟨hcolumns, hcolumns, fun _ => trivial⟩
      · simp only [columns, leadingRun_cons, hc, Bool.false_eq_true, if_false, length_consRun]
        exact ⟨hothers, by simpa using hothers, by simp⟩
  exact key.2.1

end OsdLatency.Text
