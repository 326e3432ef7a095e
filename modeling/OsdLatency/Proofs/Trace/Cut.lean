import OsdLatency.Proofs.Trace.RoundTrip

/-!
# Parts that are cut off

A part of a line that is cut off and followed by another line is refused, since the other line
begins with a label that the part does not go on with. Only the lists are an exception: they hold
any text, and so they go on into the other line.

## Main definitions

* `Capture.BeginsLine` — a text that begins like a line
* `Capture.Store.OpensDetails`, `Capture.OpensPeers` — a line is cut off within a list
* `Capture.Store.CutOff`, `Capture.CutOff` — what is found of parts that are cut off

## Main results

* `Capture.finalScanner_ne_none_iff` — a final latency stands in the first two columns
* `Capture.finalScanner_cut`, `Capture.Final.Spells.cut` — a final latency that is cut off
* `Capture.storeScanner_cut`, `Capture.peersScanner_cut` — the parts behind it that are cut off
-/

namespace OsdLatency.Capture

open Text Text.Scanner

variable {t text rest input B pad gap value : List Char} {others : List (List Char)}

/-- A text that begins with the label of the first part of a line. -/
def BeginsLine (B : List Char) : Prop := ∃ rest, B = "osd".toList ++ rest ∧ Boundary isSolid rest

/-- The label of the next line is a column behind the columns of what has been cut off. -/
theorem BeginsLine.exists_columns (hB : BeginsLine B) :
    ∃ others, ∀ t, columns (t ++ ' ' :: B) = columns t ++ "osd".toList :: others := by
  obtain ⟨rest, rfl, hrest⟩ := hB
  refine ⟨columns rest, fun t => ?_⟩
  rw [columns_append_blank (by decide), columns_run_append (by decide) hrest]

theorem columns_append_of_solid {c : Char} (hc : isSolid c = true) (text : List Char) :
    ∃ more others, columns (c :: text) = (c :: more) :: others :=
  ⟨_, _, columns_cons_of_isSolid hc text⟩

/-! ### The final latency -/

/-- A final latency is there exactly if its label is the first column and the second one begins with
a digit. -/
theorem finalScanner_ne_none_iff :
    finalScanner input ≠ none ↔
      ∃ (kind : FinalKind) (value : List Char) (others : List (List Char)),
        columns input = kind.name.toList :: value :: others ∧ ¬ Boundary isDigit value := by
  constructor
  · intro h
    obtain ⟨⟨final, rest⟩, hfound⟩ := Option.ne_none_iff_exists'.mp h
    obtain ⟨text, htext, rfl, -⟩ := finalScanner_sound hfound
    obtain @⟨kind, pad, gap, latency, hpad, hgap, hlatency⟩ := htext
    obtain ⟨d, digits, rfl, hd⟩ := hlatency.exists_cons
    obtain ⟨more, others, hcolumns⟩ :=
      columns_append_of_solid (isSolid_of_isDigit hd) (digits ++ rest)
    have hboundary : Boundary isSolid (gap ++ (d :: (digits ++ rest))) :=
      hgap.boundary_append fun _ => isSolid_of_isBlank
    refine ⟨kind, d :: more, others, ?_, by simp [hd]⟩
    simp only [List.append_assoc, List.cons_append]
    rw [columns_append_of_isPad hpad, columns_run_append (isSolid_finalName kind) hboundary,
      columns_append_of_isPad hgap.isPad, hcolumns]
  · rintro ⟨kind, value, others, hcolumns, hvalue⟩
    obtain ⟨pad, gap, rest, rfl, hpad, -, hgap, -, -, -⟩ := columns_eq_cons_cons_iff.mp hcolumns
    cases value with
    | nil => simp at hvalue
    | cons d value =>
      have hd : isDigit d = true := by simpa using hvalue
      -- The first digit alone spells a final latency, and the scanner only takes more of them.
      have hspells : Final.Spells ⟨kind, [d]⟩ (pad ++ (kind.name.toList ++ (gap ++ [d]))) :=
        .intro hpad hgap ⟨by simp, by simpa using hd⟩
      obtain ⟨more, left, -, hfound⟩ := finalScanner_append_more hspells (value ++ rest)
      have heq : pad ++ (kind.name.toList ++ (gap ++ (d :: value ++ rest))) =
          pad ++ (kind.name.toList ++ (gap ++ [d])) ++ (value ++ rest) := by simp
      rw [heq, hfound]
      simp

theorem finalScanner_eq_none_of_length (h : (columns input).length < 2) :
    finalScanner input = none := by
  by_contra hne
  obtain ⟨kind, value, others, hcolumns, -⟩ := finalScanner_ne_none_iff.mp hne
  simp only [hcolumns, List.length_cons] at h
  omega

/-- Where no final latency stands, none is completed by the next line. -/
theorem finalScanner_cut (hB : BeginsLine B) (h : finalScanner t = none) :
    finalScanner (t ++ ' ' :: B) = none := by
  by_contra hne
  obtain ⟨others, hB⟩ := hB.exists_columns
  obtain ⟨kind, value, others', hcolumns, hvalue⟩ := finalScanner_ne_none_iff.mp hne
  rw [hB] at hcolumns
  -- The next line adds a column that is neither a label nor a number, so the first two columns of
  -- `t` have to be enough.
  match hfront : columns t with
  | [] =>
    rw [hfront] at hcolumns
    have := (List.cons.inj hcolumns).1
    cases kind <;> simp [FinalKind.name] at this
  | [first] =>
    rw [hfront] at hcolumns
    obtain ⟨-, rfl, -⟩ : first = kind.name.toList ∧ "osd".toList = value ∧ others = others' := by
      simpa using hcolumns
    exact hvalue (by decide)
  | first :: second :: more =>
    rw [hfront] at hcolumns
    obtain ⟨rfl, rfl, -⟩ : first = kind.name.toList ∧ second = value ∧
        more ++ "osd".toList :: others = others' := by simpa using hcolumns
    exact finalScanner_ne_none_iff.mpr ⟨kind, second, more, hfront, hvalue⟩ h

/-- Where no final latency stands, none stands in less of the text. -/
theorem finalScanner_eq_none_of_append (h : finalScanner (t ++ rest) = none) :
    finalScanner t = none := by
  by_contra hne
  obtain ⟨⟨final, left⟩, hfound⟩ := Option.ne_none_iff_exists'.mp hne
  obtain ⟨text, htext, rfl, -⟩ := finalScanner_sound hfound
  obtain ⟨more, left', -, hmore⟩ := finalScanner_append_more htext (left ++ rest)
  rw [List.append_assoc, hmore] at h
  simp at h

/-- A final latency that is cut off lacks its number, or it has a shorter one. -/
theorem Final.Spells.cut {final : Final} (h : final.Spells text) (ht : t <+: text) :
    finalScanner t = none ∨
      ∃ latency, latency ≠ [] ∧ latency <+: final.latency ∧
        (⟨final.kind, latency⟩ : Final).Spells t := by
  obtain @⟨kind, pad, gap, latency, hpad, hgap, hlatency⟩ := h
  have hsplit : pad ++ (kind.name.toList ++ (gap ++ latency)) =
      (pad ++ (kind.name.toList ++ gap)) ++ latency := by simp
  rw [hsplit] at ht
  -- What is left ends in front of the number or within its digits.
  rcases prefix_append_cases ht with ⟨left, hleft⟩ | ⟨latency', rfl, hne, hlatency'⟩
  · refine Or.inl (finalScanner_eq_none_of_length ?_)
    have hle := length_columns_le t left
    have hboundary : Boundary isSolid gap := hgap.boundary fun _ => isSolid_of_isBlank
    rw [hleft, columns_append_of_isPad hpad, columns_run_append (isSolid_finalName kind) hboundary,
      columns_of_isPad hgap.isPad] at hle
    simp at hle
    omega
  · refine Or.inr ⟨latency', hne, hlatency', ?_⟩
    simp only [List.append_assoc]
    exact .intro hpad hgap (hlatency.of_prefix hne hlatency')

/-! ### The details of the store -/

/-- The details of a line, with what stands before and behind their parentheses. -/
structure Store.DetailsAt (store : Store) (line list before after : List Char) : Prop where
  details : store.details = some list
  final : store.final.Spells after
  line : line = before ++ '(' :: (list ++ ')' :: after)

/-- The front `t` of a line goes on behind the opening parenthesis of its details with `inner`. -/
def Store.OpensDetails (store : Store) (line t inner : List Char) : Prop :=
  ∃ list before after, store.DetailsAt line list before after ∧ t = before ++ '(' :: inner

/-- The line consists of `inner` up to the closing parenthesis of its details. -/
def Store.ClosesDetails (store : Store) (line inner : List Char) : Prop :=
  ∃ list before after, store.DetailsAt line list before after ∧ inner = before ++ '(' :: list

/-- The last place of a character is in front of a text without it. -/
theorem append_cons_inj_of_not_mem {c : Char} {x x' y y' : List Char} (hy : c ∉ y) (hy' : c ∉ y')
    (h : x ++ c :: y = x' ++ c :: y') : x = x' ∧ y = y' := by
  -- If one front were longer, the character would stand behind its last place.
  rcases List.append_eq_append_iff.mp h with ⟨more, rfl, hmore⟩ | ⟨more, rfl, hmore⟩
  · cases more with
    | nil => simpa using hmore
    | cons d more =>
      obtain ⟨-, rfl⟩ := List.cons.inj hmore
      simp at hy
  · cases more with
    | nil =>
      obtain rfl : y' = y := by simpa using hmore
      simp
    | cons d more =>
      obtain ⟨-, rfl⟩ := List.cons.inj hmore
      simp at hy'

theorem Final.Spells.not_mem {final : Final} (h : final.Spells text) {c : Char}
    (hblank : isBlank c = false) (hdigit : isDigit c = false)
    (hlabel : ∀ kind : FinalKind, c ∉ kind.name.toList) : c ∉ text := by
  obtain ⟨hpad, hgap, hlatency⟩ := h
  simp only [List.mem_append, not_or]
  exact ⟨hpad.not_mem hblank, hlabel _, hgap.not_mem hblank, hlatency.not_mem hdigit⟩

theorem not_mem_finalName {c : Char} (h : c ∉ "subop_lat".toList) (kind : FinalKind) :
    c ∉ kind.name.toList := by
  cases kind with
  | op => exact fun hmem => h (List.mem_of_mem_drop (i := 3) hmem)
  | subop => exact h

theorem Final.Spells.not_mem_paren {final : Final} (h : final.Spells text) : ')' ∉ text :=
  h.not_mem (by decide) (by decide) (not_mem_finalName (by decide))

/-- There is only one place where the details of a line stand. -/
theorem Store.DetailsAt.unique {store : Store}
    {line list before after list' before' after' : List Char}
    (h : store.DetailsAt line list before after) (h' : store.DetailsAt line list' before' after') :
    list = list' ∧ before = before' ∧ after = after' := by
  obtain ⟨hlist, hafter, rfl⟩ := h
  obtain ⟨hlist', hafter', hline⟩ := h'
  obtain rfl : list = list' := Option.some.inj (hlist.symm.trans hlist')
  have hsplit : (before ++ '(' :: list) ++ ')' :: after =
      (before' ++ '(' :: list) ++ ')' :: after' := by simpa using hline
  obtain ⟨hfront, rfl⟩ :=
    append_cons_inj_of_not_mem hafter.not_mem_paren hafter'.not_mem_paren hsplit
  exact ⟨rfl, List.append_cancel_right hfront, rfl⟩

/-- What is left of a text that begins with a character begins with it too. -/
theorem exists_cons_of_prefix {c : Char} {more : List Char} (hne : more ≠ [])
    (h : more <+: c :: text) : ∃ inner, more = c :: inner ∧ inner <+: text := by
  cases more with
  | nil => exact absurd rfl hne
  | cons d inner =>
    obtain ⟨rfl, hinner⟩ := List.cons_prefix_cons.mp h
    exact ⟨inner, rfl, hinner⟩

/-- What is left of the parts from the latency of the store on begins with their label. -/
theorem Store.Spells.eq_cons_of_prefix {store : Store} (h : store.Spells text) (ht : t <+: text)
    (hne : t ≠ []) : ∃ more, t = 'b' :: more := by
  obtain ⟨behind, rfl⟩ := h.exists_label
  obtain ⟨more, rfl, -⟩ := exists_cons_of_prefix hne ht
  exact ⟨more, rfl⟩

/-- What stands in front of a text stands in front of its details. -/
theorem Store.DetailsAt.append {store : Store} {front list before after : List Char}
    (h : store.DetailsAt text list before after) :
    store.DetailsAt (front ++ text) list (front ++ before) after where
  details := h.details
  final := h.final
  line := by rw [h.line, List.append_assoc]

/-- The details of a line that is cut off in front of its last number do not end. -/
theorem DetailList.passes_cut {list after inner : List Char} {items : List (List Char × List Char)}
    {final : Final} (hlist : DetailList items list) (hB : BeginsLine B) (hlistline : '\n' ∉ list)
    (hline : '\n' ∉ inner) (hafter : final.Spells after) (hinner : inner <+: list ++ ')' :: after)
    (hcut : ∀ t, t <+: after → inner = list ++ ')' :: t → finalScanner t = none) :
    Passes ')' finalScanner inner (' ' :: B) := by
  refine ⟨hline, ?_⟩
  rintro x y rfl
  apply finalScanner_cut hB
  rcases prefix_append_cases hinner with ⟨more, hmore⟩ | ⟨more, hmore, hne, hprefix⟩
  · -- The parenthesis stands within the list.
    have hnone := (hlist.passes hlistline []).2 x (y ++ more) (by simp [← hmore])
    rw [List.append_assoc] at hnone
    exact finalScanner_eq_none_of_append hnone
  · obtain ⟨t, rfl, ht⟩ := exists_cons_of_prefix hne hprefix
    rcases List.append_eq_append_iff.mp hmore with ⟨m, rfl, hm⟩ | ⟨m, rfl, hm⟩
    · cases m with
      | nil =>
        obtain rfl : y = t := by simpa using hm
        exact hcut y ht (by simp)
      | cons c m =>
        obtain ⟨rfl, rfl⟩ := List.cons.inj hm
        have hnone := (hlist.passes hlistline t).2 x m rfl
        simpa using hnone
    · cases m with
      | nil =>
        obtain rfl : t = y := by simpa using hm
        exact hcut t ht (by simp)
      | cons c m =>
        -- Behind the list there is no other parenthesis.
        obtain ⟨-, rfl⟩ := List.cons.inj hm
        exact absurd (ht.subset (by simp)) hafter.not_mem_paren

/-! ### From the latency of the store on -/

/-- The parts with fewer digits of the final latency. -/
def Store.shorten (store : Store) (latency : List Char) : Store :=
  { store with final := ⟨store.final.kind, latency⟩ }

/-- A label without its number is refused. -/
theorem number_cut {label : String} (hB : BeginsLine B) (hlabel : IsRun isSolid label.toList)
    (hne : label.toList ≠ "osd".toList) (h : (columns t).length ≤ 1) :
    number label (t ++ ' ' :: B) = none := by
  rw [Option.eq_none_iff_forall_ne_some]
  rintro ⟨value, rest⟩ hfound
  obtain ⟨others, hB⟩ := hB.exists_columns
  obtain ⟨gap, heq, hgap, hvalue, -⟩ := number_eq_some_iff.mp hfound
  obtain ⟨d, digits, rfl, hd⟩ := hvalue.exists_cons
  obtain ⟨more, others', hcolumns⟩ :=
    columns_append_of_solid (isSolid_of_isDigit hd) (digits ++ rest)
  have hboundary : Boundary isSolid (gap ++ (d :: (digits ++ rest))) :=
    hgap.boundary_append fun _ => isSolid_of_isBlank
  -- The label and the number would be the first two columns, but at least one of them is of the
  -- next line.
  have htwo := hB t
  rw [heq, List.cons_append, columns_run_append hlabel hboundary,
    columns_append_of_isPad hgap.isPad, hcolumns] at htwo
  match hfront : columns t with
  | [] =>
    rw [hfront] at htwo
    exact hne (List.cons.inj htwo).1
  | [first] =>
    rw [hfront] at htwo
    obtain ⟨-, ⟨rfl, -⟩, -⟩ : label.toList = first ∧ (d = 'o' ∧ more = ['s', 'd']) ∧
        others' = others := by simpa using htwo
    exact absurd hd (by decide)
  | first :: second :: more =>
    rw [hfront] at h
    simp at h

/-- Behind white space, the next line is neither details nor a final latency. -/
theorem detailsScanner_cut (hB : BeginsLine B) (hpad : IsPad pad) :
    detailsScanner (pad ++ ' ' :: B) = none := by
  have hfinal := finalScanner_cut hB (t := pad) (finalScanner_eq_none_of_length
    (by simp [columns_of_isPad hpad]))
  obtain ⟨rest, rfl, -⟩ := hB
  have hpad' : IsPad (pad ++ [' ']) := hpad.append isPad_blank
  -- The blank between the lines belongs to the white space in front of the details.
  have heq : pad ++ ' ' :: ("osd".toList ++ rest) = (pad ++ [' ']) ++ ("osd".toList ++ rest) := by
    simp
  have hsolid : Boundary isBlank ("osd".toList ++ rest) := boundary_cons.mpr (by decide)
  rw [heq] at hfinal ⊢
  rw [detailsScanner_plain hpad' hsolid (by simp), hfinal]
  rfl

/-- In front of the details and the final latency nothing is complete. -/
theorem storeScanner_front_cut {latency : List Char} (hB : BeginsLine B) (hgap : IsRun isBlank gap)
    (hlatency : IsRun isDigit latency) (hpad : IsPad pad)
    (ht : t <+: "bluestore_lat".toList ++ (gap ++ (latency ++ pad))) :
    storeScanner (t ++ ' ' :: B) = none := by
  rw [← List.append_assoc] at ht
  -- The line is cut off in front of the latency of the store, or at its digits or behind them.
  rcases prefix_append_cases ht with ⟨left, hleft⟩ | ⟨more, rfl, hne, hmore⟩
  · refine bind_of_eq_none (number_cut hB (by decide) (by decide) ?_)
    have hboundary : Boundary isSolid gap := hgap.boundary fun _ => isSolid_of_isBlank
    have hle := length_columns_le t left
    rwa [hleft, columns_run_append (by decide) hboundary, columns_of_isPad hgap.isPad] at hle
  · obtain ⟨digits, pad', rfl, hdigits, hpad'⟩ : ∃ digits pad', more = digits ++ pad' ∧
        IsRun isDigit digits ∧ IsPad pad' := by
      rcases prefix_append_cases hmore with h | ⟨pad', rfl, -, hpad'⟩
      · exact ⟨more, [], by simp, hlatency.of_prefix hne h, isPad_nil⟩
      · exact ⟨latency, pad', rfl, hlatency, hpad.of_prefix hpad'⟩
    have hboundary : Boundary isDigit (pad' ++ ' ' :: B) :=
      hpad'.boundary_append (fun _ => not_isDigit_of_isBlank) (boundary_cons.mpr (by decide))
    simp only [List.append_assoc]
    rw [storeScanner_append hgap hdigits hboundary, detailsScanner_cut hB hpad']
    rfl

/-- A final latency that is cut off in front of its number is not completed by the next line. -/
theorem detailsScanner_final_cut {final : Final} (hB : BeginsLine B) (h : final.Spells text)
    (ht : t <+: text) (hnone : finalScanner t = none) : detailsScanner (t ++ ' ' :: B) = none := by
  have hfinal := finalScanner_cut hB hnone
  obtain @⟨kind, pad, gap, latency, hpad, -, -⟩ := h
  -- The line is cut off within the white space in front of the label, or within the label or behind
  -- it.
  rcases prefix_append_cases ht with hle | ⟨more, rfl, hne, hmore⟩
  · exact detailsScanner_cut hB (hpad.of_prefix hle)
  · obtain ⟨c, more, rfl⟩ := List.exists_cons_of_ne_nil hne
    obtain ⟨d, others, hname, hd⟩ := finalName_eq_cons kind
    rw [hname] at hmore
    obtain rfl : c = d := (List.cons_prefix_cons.mp hmore).1
    have hblank : isBlank c = false := by rcases hd with rfl | rfl <;> decide
    have hparen : c ≠ '(' := by rcases hd with rfl | rfl <;> decide
    rw [List.append_assoc, List.cons_append] at hfinal ⊢
    rw [detailsScanner_plain hpad (boundary_cons.mpr hblank) (by simpa using hparen), hfinal]
    rfl

/-- Where the details of a line are missing, the parts from the latency of the store on are refused
that are cut off. -/
theorem storeScanner_plain_cut {latency : List Char} {final : Final} (hB : BeginsLine B)
    (hgap : IsRun isBlank gap) (hlatency : IsRun isDigit latency) (hfinal : final.Spells text)
    (ht : t <+: "bluestore_lat".toList ++ (gap ++ (latency ++ text)))
    (hcut : ∀ latency', latency' ≠ [] → latency' <+: final.latency →
      ¬ (Store.shorten ⟨latency, none, final⟩ latency').Spells t) :
    storeScanner (t ++ ' ' :: B) = none := by
  have hsplit : "bluestore_lat".toList ++ (gap ++ (latency ++ text)) =
      ("bluestore_lat".toList ++ (gap ++ latency)) ++ text := by simp
  rw [hsplit] at ht
  rcases prefix_append_cases ht with hle | ⟨more, rfl, hne, hmore⟩
  · exact storeScanner_front_cut hB hgap hlatency isPad_nil (by simpa using hle)
  -- A number that is left of the final latency would make the rest of the line complete.
  · have hnone : finalScanner more = none := by
      apply (hfinal.cut hmore).resolve_right
      rintro ⟨latency', hne', hle', hspells⟩
      apply hcut latency' hne' hle'
      simp only [List.append_assoc]
      exact .intro hgap hlatency (.plain hspells)
    have hboundary : Boundary isDigit (more ++ ' ' :: B) := by
      obtain ⟨left, rfl⟩ := hmore
      obtain ⟨c, more, rfl⟩ := List.exists_cons_of_ne_nil hne
      have hfirst : Boundary isDigit (c :: more ++ left ++ []) := hfinal.boundary_append
      simpa using hfirst
    simp only [List.append_assoc]
    rw [storeScanner_append hgap hlatency hboundary,
      detailsScanner_final_cut hB hfinal hmore hnone]
    rfl

/-- Details that have been opened and that nothing in the cut line ends go on into the next line. -/
theorem storeScanner_open {latency inner : List Char} (hgap : IsRun isBlank gap)
    (hlatency : IsRun isDigit latency) (hpad : IsPad pad)
    (hpass : Passes ')' finalScanner inner rest) :
    storeScanner ("bluestore_lat".toList ++ (gap ++ (latency ++ (pad ++ '(' :: (inner ++ rest))))) =
      (upTo ')' finalScanner rest).map fun found =>
        (⟨latency, some (inner ++ found.1.1), found.1.2⟩, found.2) := by
  have hboundary : Boundary isDigit (pad ++ '(' :: (inner ++ rest)) :=
    hpad.boundary_append (fun _ => not_isDigit_of_isBlank) (boundary_cons.mpr (by decide))
  rw [storeScanner_append hgap hlatency hboundary, detailsScanner_paren hpad, upTo_append hpass]
  cases upTo ')' finalScanner rest <;> rfl

/-- What is found of the parts of `store`, which are written as `text`, if they are cut off to `t`
and followed by `B`. -/
inductive Store.CutOff (store : Store) (text t B : List Char) :
    Option (Store × List Char) → Prop
  /-- Details that `t` has opened are ended in `B`. -/
  | goesOn {inner : List Char} {found : (List Char × Final) × List Char} :
      store.OpensDetails text t inner → upTo ')' finalScanner (' ' :: B) = some found →
      CutOff store text t B (some (⟨store.latency, some (inner ++ found.1.1), found.1.2⟩, found.2))
  /-- No details that `t` has opened are ended in `B`. -/
  | refused :
      (∀ inner, store.OpensDetails text t inner → upTo ')' finalScanner (' ' :: B) = none) →
      CutOff store text t B none

/-- The parts from the latency of the store on that are cut off go on into the next line if they
have opened the details and those of the next line end them. Otherwise they are refused. -/
theorem storeScanner_cut {store : Store} {details : List (List Char × List Char)}
    (hB : BeginsLine B) (h : store.Spells text) (hpart : DetailsPart details store.details)
    (hline : '\n' ∉ text) (ht : t <+: text)
    (hcut : ∀ latency, latency ≠ [] → latency <+: store.final.latency →
      ¬ (store.shorten latency).Spells t) :
    store.CutOff text t B (storeScanner (t ++ ' ' :: B)) := by
  obtain @⟨latency, gap, behind, part, final, hgap, hlatency, hending⟩ := h
  cases hending with
  | plain hfinal =>
    rw [storeScanner_plain_cut hB hgap hlatency hfinal ht hcut]
    refine .refused ?_
    rintro inner ⟨list, before, after, hat, -⟩
    exact absurd hat.details (by simp)
  | @details list pad after _ hpad hlistline hafter =>
    have hsplit :
        "bluestore_lat".toList ++ (gap ++ (latency ++ (pad ++ '(' :: (list ++ ')' :: after)))) =
          ("bluestore_lat".toList ++ (gap ++ (latency ++ pad))) ++
            '(' :: (list ++ ')' :: after) := by
      simp
    have hat : Store.DetailsAt ⟨latency, some list, final⟩
        ("bluestore_lat".toList ++ (gap ++ (latency ++ (pad ++ '(' :: (list ++ ')' :: after)))))
        list ("bluestore_lat".toList ++ (gap ++ (latency ++ pad))) after :=
      ⟨rfl, hafter, hsplit⟩
    rw [hsplit] at ht
    -- The line is cut off in front of the parenthesis of its details or behind it.
    rcases prefix_append_cases ht with hle | ⟨more, rfl, hne, hmore⟩
    · rw [storeScanner_front_cut hB hgap hlatency hpad hle]
      refine .refused ?_
      rintro inner ⟨list', before', after', hat', rfl⟩
      obtain ⟨-, rfl, -⟩ := hat.unique hat'
      have := hle.length_le
      simp at this
    · obtain ⟨inner, rfl, hinner⟩ := exists_cons_of_prefix hne hmore
      obtain _ | hlist := hpart
      have hinnerline : '\n' ∉ inner := by
        intro hmem
        apply hline
        rw [hsplit]
        exact List.mem_append_right _ (List.mem_cons_of_mem _ (hinner.subset hmem))
      -- A parenthesis in the cut line ends the details only with a number behind it.
      have hpass : Passes ')' finalScanner inner (' ' :: B) := by
        apply hlist.passes_cut hB hlistline hinnerline hafter hinner
        rintro fin hfin rfl
        apply (hafter.cut hfin).resolve_right
        rintro ⟨latency', hne', hle', hspells⟩
        apply hcut latency' hne' hle'
        simp only [List.append_assoc]
        exact .intro hgap hlatency (.details hpad hlistline hspells)
      simp only [List.append_assoc, List.cons_append]
      rw [storeScanner_open hgap hlatency hpad hpass]
      cases hfound : upTo ')' finalScanner (' ' :: B) with
      | some found => exact .goesOn ⟨list, _, after, hat, by simp⟩ hfound
      | none => exact .refused fun _ _ => hfound

/-! ### The replicas -/

theorem DetailList.not_mem {items : List (List Char × List Char)} (h : DetailList items text)
    {c : Char} (hword : isWord c = false) (hblank : isBlank c = false) (hdigit : isDigit c = false)
    (hc : c ∉ ['(', ')']) : c ∉ text := by
  induction h with
  | nil hpad => exact hpad.not_mem hblank
  | cons hpad hitem _ _ _ ih =>
    simp only [List.mem_append, not_or]
    refine ⟨hpad.not_mem hblank, ?_, ih⟩
    cases hitem with
    | plain htaken => exact htaken.not_mem hword hblank hdigit
    | nested hpad' htaken hpad'' =>
      simp only [List.mem_cons, List.mem_append, not_or] at hc ⊢
      exact ⟨hc.1, hpad'.not_mem hblank, htaken.not_mem hword hblank hdigit,
        hpad''.not_mem hblank, hc.2⟩

theorem Store.Spells.not_mem_bracket {store : Store} {details : List (List Char × List Char)}
    (h : store.Spells text) (hpart : DetailsPart details store.details) : ']' ∉ text := by
  obtain ⟨hgap, hlatency, hending⟩ := h
  have hfinal {final : Final} {text : List Char} (h : final.Spells text) : ']' ∉ text :=
    h.not_mem (by decide) (by decide) (not_mem_finalName (by decide))
  simp only [List.mem_append, not_or]
  refine ⟨by decide, hgap.not_mem (by decide), hlatency.not_mem (by decide), ?_⟩
  cases hending with
  | plain hspells => exact hfinal hspells
  | details hpad hline hspells =>
    obtain _ | hlist := hpart
    simp only [List.mem_append, List.mem_cons, not_or]
    exact ⟨hpad.not_mem (by decide), by decide,
      hlist.not_mem (by decide +kernel) (by decide) (by decide) (by decide), by decide,
      hfinal hspells⟩

/-- The replicas of a line, with what stands before and behind their brackets. -/
structure PeersAt (c : Capture) (line list before after : List Char) : Prop where
  peers : c.peers = some ('[' :: list ++ [']'])
  store : ∃ gap text, after = gap ++ text ∧ IsRun isBlank gap ∧ c.store.Spells text
  line : line = before ++ '[' :: (list ++ ']' :: after)

/-- The front `t` of a line goes on behind the opening bracket of its replicas with `inner`. -/
def OpensPeers (c : Capture) (line t inner : List Char) : Prop :=
  ∃ list before after, c.PeersAt line list before after ∧ t = before ++ '[' :: inner

/-- The line consists of `inner` up to the closing bracket of its replicas. -/
def ClosesPeers (c : Capture) (line inner : List Char) : Prop :=
  ∃ list before after, c.PeersAt line list before after ∧ inner = before ++ '[' :: list

/-- There is only one place where the replicas of a line stand. -/
theorem PeersAt.unique {c : Capture} {line list before after list' before' after' : List Char}
    {details : List (List Char × List Char)} (hpart : DetailsPart details c.store.details)
    (h : c.PeersAt line list before after) (h' : c.PeersAt line list' before' after') :
    list = list' ∧ before = before' ∧ after = after' := by
  -- The bracket is the last one of the line, since the parts behind it have none.
  have hbracket {after : List Char}
      (h : ∃ gap text, after = gap ++ text ∧ IsRun isBlank gap ∧ c.store.Spells text) :
      ']' ∉ after := by
    obtain ⟨gap, text, rfl, hgap, htext⟩ := h
    simp only [List.mem_append, not_or]
    exact ⟨hgap.not_mem (by decide), htext.not_mem_bracket hpart⟩
  obtain ⟨hlist, hafter, rfl⟩ := h
  obtain ⟨hlist', hafter', hline⟩ := h'
  obtain rfl : list = list' := by
    rw [hlist'] at hlist
    simpa using hlist.symm
  have hsplit : (before ++ '[' :: list) ++ ']' :: after =
      (before' ++ '[' :: list) ++ ']' :: after' := by simpa using hline
  obtain ⟨hfront, rfl⟩ :=
    append_cons_inj_of_not_mem (hbracket hafter) (hbracket hafter') hsplit
  exact ⟨rfl, List.append_cancel_right hfront, rfl⟩

theorem Store.Spells.exists_detailsAt {store : Store} {list : List Char} (h : store.Spells text)
    (hlist : store.details = some list) :
    ∃ before after, store.DetailsAt text list before after := by
  obtain @⟨latency, gap, behind, part, final, hgap, hlatency, hending⟩ := h
  cases hending with
  | plain => simp at hlist
  | @details list' pad after _ hpad hlistline hafter =>
    obtain rfl : list' = list := by simpa using hlist
    exact ⟨"bluestore_lat".toList ++ (gap ++ (latency ++ pad)), after, rfl, hafter, by simp⟩

theorem Store.Spells.exists_detailsAt_append {store : Store} {front list : List Char}
    (h : store.Spells text) (hlist : store.details = some list) :
    ∃ before after, store.DetailsAt (front ++ text) list before after := by
  obtain ⟨before, after, hat⟩ := h.exists_detailsAt hlist
  exact ⟨front ++ before, after, hat.append⟩

theorem Back.exists_detailsAt {peers : Option (List Char)} {store : Store} {list : List Char}
    (h : Back peers store text) (hlist : store.details = some list) :
    ∃ before after, store.DetailsAt text list before after := by
  cases h with
  | plain hstore => exact hstore.exists_detailsAt hlist
  | @peers list' gap gap' text _ _ _ _ hstore =>
    obtain ⟨before, after, hat⟩ := hstore.exists_detailsAt hlist
    have hfront : "peers".toList ++ (gap ++ '[' :: (list' ++ ']' :: (gap' ++ text))) =
        ("peers".toList ++ (gap ++ '[' :: (list' ++ ']' :: gap'))) ++ text := by simp
    exact ⟨_, after, hfront ▸ hat.append⟩

/-- Only what reaches into the part of a line with the details opens them. -/
theorem Store.OpensDetails.of_append {store : Store} {front inner : List Char}
    (h : store.OpensDetails (front ++ text) t inner)
    (htext : ∀ list, store.details = some list →
      ∃ before after, store.DetailsAt text list before after) :
    ∃ t', t = front ++ t' ∧ t' ≠ [] ∧ store.OpensDetails text t' inner := by
  obtain ⟨list, before, after, hat, rfl⟩ := h
  obtain ⟨before', after', hat'⟩ := htext list hat.details
  obtain ⟨-, rfl, -⟩ := hat.unique hat'.append
  exact ⟨before' ++ '(' :: inner, by simp, by simp, list, before', after', hat', rfl⟩

theorem Store.OpensDetails.append {store : Store} {front inner : List Char}
    (h : store.OpensDetails text t inner) :
    store.OpensDetails (front ++ text) (front ++ t) inner := by
  obtain ⟨list, before, after, hat, rfl⟩ := h
  exact ⟨list, front ++ before, after, hat.append, by simp⟩

/-- Only what reaches into the part of a line with the replicas opens them. -/
theorem OpensPeers.of_append {c : Capture} {front inner : List Char}
    {details : List (List Char × List Char)} (h : c.OpensPeers (front ++ text) t inner)
    (htext : Back c.peers c.store text) (hdetails : DetailsPart details c.store.details) :
    ∃ t', t = front ++ t' ∧ t' ≠ [] ∧ c.OpensPeers text t' inner := by
  obtain ⟨list, before, after, hat, rfl⟩ := h
  obtain ⟨head, peers, store⟩ := c
  cases htext with
  | plain => exact absurd hat.peers (by simp)
  | @peers list' gap gap' text _ _ _ hgap' hstore =>
    have hback : PeersAt ⟨head, some ('[' :: list' ++ [']']), store⟩
        ("peers".toList ++ (gap ++ '[' :: (list' ++ ']' :: (gap' ++ text)))) list'
        ("peers".toList ++ gap) (gap' ++ text) :=
      ⟨rfl, ⟨gap', text, rfl, hgap', hstore⟩, by simp⟩
    have hfront : PeersAt ⟨head, some ('[' :: list' ++ [']']), store⟩
        (front ++ ("peers".toList ++ (gap ++ '[' :: (list' ++ ']' :: (gap' ++ text))))) list'
        (front ++ ("peers".toList ++ gap)) (gap' ++ text) :=
      ⟨rfl, hback.store, by simp⟩
    obtain ⟨-, rfl, -⟩ := hat.unique hdetails hfront
    exact ⟨("peers".toList ++ gap) ++ '[' :: inner, by simp, by simp, list', _, _, hback, rfl⟩

theorem OpensPeers.append {c : Capture} {front inner : List Char} (h : c.OpensPeers text t inner) :
    c.OpensPeers (front ++ text) (front ++ t) inner := by
  obtain ⟨list, before, after, hat, rfl⟩ := h
  refine ⟨list, front ++ before, after, ⟨hat.peers, hat.store, ?_⟩, by simp⟩
  rw [hat.line, List.append_assoc]

/-- The label of the replicas without their opening bracket is refused. -/
theorem peersScanner_front_cut (hB : BeginsLine B) (hgap : IsRun isBlank gap)
    (ht : t <+: "peers".toList ++ gap) : peersScanner (t ++ ' ' :: B) = none := by
  have hlength : (columns t).length ≤ 1 := by
    obtain ⟨left, hleft⟩ := ht
    have hboundary : Boundary isSolid gap := hgap.boundary fun _ => isSolid_of_isBlank
    have hle := length_columns_le t left
    rwa [hleft, columns_run_append (by decide) hboundary, columns_of_isPad hgap.isPad] at hle
  by_cases hlabel : "peers".toList <+: t ++ ' ' :: B
  · by_contra hne
    obtain ⟨behind, hbehind⟩ := hlabel
    rw [← hbehind] at hne
    obtain ⟨gap', inner, hgap', rfl⟩ := peersScanner_of_label hne
    obtain ⟨others, hB⟩ := hB.exists_columns
    obtain ⟨more, others', hcolumns⟩ := columns_append_of_solid (c := '[') (by decide) inner
    have hboundary : Boundary isSolid (gap' ++ '[' :: inner) :=
      hgap'.boundary_append fun _ => isSolid_of_isBlank
    -- The bracket would be in the second column, which is the label of the next line.
    have htwo := hB t
    rw [← hbehind, columns_run_append (by decide) hboundary,
      columns_append_of_isPad hgap'.isPad, hcolumns] at htwo
    match hfront : columns t with
    | [] => simp [hfront] at htwo
    | [first] => simp [hfront] at htwo
    | first :: second :: more => simp [hfront] at hlength
  · have hnone : storeScanner (t ++ ' ' :: B) = none :=
      bind_of_eq_none (number_cut hB (by decide) (by decide) hlength)
    rw [peersScanner_plain hlabel, hnone]
    rfl

/-- The next line does not begin with the latency of the store. -/
theorem storeScanner_beginsLine (hB : BeginsLine B) (hpad : IsPad pad) :
    (blanks >>= fun _ => storeScanner) (pad ++ ' ' :: B) = none := by
  obtain ⟨rest, rfl, -⟩ := hB
  have hgap : IsRun isBlank (pad ++ [' ']) := ⟨by simp, hpad.append isPad_blank⟩
  have hsolid : Boundary isBlank ("osd".toList ++ rest) := boundary_cons.mpr (by decide)
  have heq : pad ++ ' ' :: ("osd".toList ++ rest) = (pad ++ [' ']) ++ ("osd".toList ++ rest) := by
    simp
  rw [heq, bind_of_eq_some (blanks_append hgap hsolid)]
  exact storeScanner_eq_none (by simp)

/-- What is found does not depend on what stands in front. -/
theorem Store.CutOff.append {store : Store} {front : List Char}
    {result : Option (Store × List Char)} (h : store.CutOff text t B result)
    (htext : ∀ list, store.details = some list →
      ∃ before after, store.DetailsAt text list before after) :
    store.CutOff (front ++ text) (front ++ t) B result := by
  cases h with
  | goesOn hopens hfound => exact .goesOn hopens.append hfound
  | refused hcloses =>
    refine .refused fun inner hopens => ?_
    obtain ⟨t', heq, -, hopens'⟩ := hopens.of_append htext
    obtain rfl : t = t' := List.append_cancel_left heq
    exact hcloses inner hopens'

/-- The same with white space in front. -/
theorem blanks_storeScanner_cut {store : Store} {details : List (List Char × List Char)}
    (hB : BeginsLine B) (hgap : IsRun isBlank gap) (h : store.Spells text)
    (hpart : DetailsPart details store.details) (hline : '\n' ∉ text) (ht : t <+: gap ++ text)
    (hcut : ∀ t' latency, t = gap ++ t' → latency ≠ [] → latency <+: store.final.latency →
      ¬ (store.shorten latency).Spells t') :
    store.CutOff (gap ++ text) t B ((blanks >>= fun _ => storeScanner) (t ++ ' ' :: B)) := by
  -- The line is cut off within the white space or behind it.
  rcases prefix_append_cases ht with hle | ⟨t', rfl, hne, ht'⟩
  · rw [storeScanner_beginsLine hB (hgap.isPad.of_prefix hle)]
    refine .refused fun inner hopens => ?_
    obtain ⟨t', rfl, hne, -⟩ := hopens.of_append fun _ => h.exists_detailsAt
    have hlength := hle.length_le
    simp [hne] at hlength
  · have hboundary : Boundary isBlank (t' ++ ' ' :: B) := by
      obtain ⟨more, rfl⟩ := h.eq_cons_of_prefix ht' hne
      exact boundary_cons.mpr (by decide)
    rw [List.append_assoc, bind_of_eq_some (blanks_append hgap hboundary)]
    exact (storeScanner_cut hB h hpart hline ht' fun latency => hcut t' latency rfl).append
      fun _ => h.exists_detailsAt

/-- Brackets that are not followed by the latency of the store do not end the replicas. -/
theorem passes_bracket_cut {list after inner : List Char} {next : Scanner Store}
    (hlist : ']' ∉ list) (hafter : ']' ∉ after) (hline : '\n' ∉ inner)
    (hinner : inner <+: list ++ ']' :: after)
    (hnext : ∀ t, inner = list ++ ']' :: t → next (t ++ rest) = none) :
    Passes ']' next inner rest := by
  rcases prefix_append_cases hinner with hle | ⟨more, rfl, hne, hmore⟩
  · exact passes_of_not_mem hline fun hmem => hlist (hle.subset hmem)
  · obtain ⟨t, rfl, ht⟩ := exists_cons_of_prefix hne hmore
    simp only [List.mem_append, List.mem_cons, not_or] at hline
    refine (passes_of_not_mem hline.1 hlist).append (passes_cons (by decide) ?_ ?_)
    · exact fun _ => hnext t rfl
    · exact passes_of_not_mem hline.2.2 fun hmem => hafter (ht.subset hmem)

/-- What is found of the parts behind the head, which are written as `text`, if they are cut off to
`t` and followed by `B`. -/
inductive CutOff (c : Capture) (text t B : List Char) :
    Option ((Option (List Char) × Store) × List Char) → Prop
  /-- Details that `t` has opened are ended in `B`. -/
  | details {inner : List Char} {found : (List Char × Final) × List Char} :
      c.store.OpensDetails text t inner → upTo ')' finalScanner (' ' :: B) = some found →
      CutOff c text t B
        (some ((c.peers, ⟨c.store.latency, some (inner ++ found.1.1), found.1.2⟩), found.2))
  /-- Replicas that `t` has opened go on into `B`. -/
  | peers {inner : List Char} :
      (∀ inner, c.store.OpensDetails text t inner → upTo ')' finalScanner (' ' :: B) = none) →
      c.OpensPeers text t inner →
      CutOff c text t B
        ((upTo ']' (blanks >>= fun _ => storeScanner) (' ' :: B)).map fun found =>
          ((some ('[' :: (inner ++ found.1.1) ++ [']']), found.1.2), found.2))
  /-- Neither is the case. -/
  | refused :
      (∀ inner, c.store.OpensDetails text t inner → upTo ')' finalScanner (' ' :: B) = none) →
      (∀ inner, ¬ c.OpensPeers text t inner) → CutOff c text t B none

/-- Where the replicas of a line are missing, all depends on its details. -/
theorem peersScanner_plain_cut {head : Head} {store : Store}
    {details : List (List Char × List Char)} (hB : BeginsLine B) (h : store.Spells text)
    (hdetails : DetailsPart details store.details) (hline : '\n' ∉ text) (ht : t <+: text)
    (hne : t ≠ [])
    (hcut : ∀ latency, latency ≠ [] → latency <+: store.final.latency →
      ¬ (store.shorten latency).Spells t) :
    CutOff ⟨head, none, store⟩ text t B (peersScanner (t ++ ' ' :: B)) := by
  have hlabel : ¬ "peers".toList <+: t ++ ' ' :: B := by
    obtain ⟨more, rfl⟩ := h.eq_cons_of_prefix ht hne
    rintro ⟨left, hleft⟩
    exact absurd (List.cons.inj hleft).1 (by decide)
  rw [peersScanner_plain hlabel]
  have hstore := storeScanner_cut hB h hdetails hline ht hcut
  generalize storeScanner (t ++ ' ' :: B) = result at hstore
  cases hstore with
  | goesOn hopens hfound => exact .details hopens hfound
  | refused hcloses =>
    refine .refused hcloses ?_
    rintro inner ⟨list, before, after, hat, -⟩
    exact absurd hat.peers (by simp)

/-- Behind their opening bracket, the replicas end in the cut line only where the parts behind them
go on into the next line. -/
theorem peersScanner_open_cut {head : Head} {store : Store} {list gap' inner : List Char}
    {details : List (List Char × List Char)} (hgap : IsRun isBlank gap) (hlistline : '\n' ∉ list)
    (hbracket : ']' ∉ list) (hgap' : IsRun isBlank gap') (hstore : store.Spells text)
    (hdetails : DetailsPart details store.details) (hinnerline : '\n' ∉ inner)
    (hinner : inner <+: list ++ ']' :: (gap' ++ text))
    (hbehind : ∀ t, inner = list ++ ']' :: t →
      store.CutOff (gap' ++ text) t B ((blanks >>= fun _ => storeScanner) (t ++ ' ' :: B))) :
    CutOff ⟨head, some ('[' :: list ++ [']']), store⟩
      (("peers".toList ++ gap) ++ '[' :: (list ++ ']' :: (gap' ++ text)))
      (("peers".toList ++ gap) ++ '[' :: inner) B
      (peersScanner (("peers".toList ++ gap) ++ '[' :: inner ++ ' ' :: B)) := by
  have hfront (t : List Char) : ("peers".toList ++ gap) ++ '[' :: (list ++ ']' :: t) =
      ("peers".toList ++ (gap ++ '[' :: (list ++ [']']))) ++ t := by simp
  have hscan : peersScanner (("peers".toList ++ gap) ++ '[' :: inner ++ ' ' :: B) =
      (upTo ']' (blanks >>= fun _ => storeScanner) (inner ++ ' ' :: B)).map fun found =>
        ((some ('[' :: found.1.1 ++ [']']), found.1.2), found.2) := by
    simp only [List.append_assoc, List.cons_append]
    exact peersScanner_bracket hgap (inner ++ ' ' :: B)
  by_cases hend : ∃ t result, inner = list ++ ']' :: t ∧
      (blanks >>= fun _ => storeScanner) (t ++ ' ' :: B) = some result
  · -- The replicas end in the cut line, and its details go on into the next one.
    obtain ⟨t, result, rfl, hnext⟩ := hend
    have hcutoff := hbehind t rfl
    rw [hnext] at hcutoff
    have hlistEnd : upTo ']' (blanks >>= fun _ => storeScanner) (list ++ ']' :: t ++ ' ' :: B) =
        some ((list, result.1), result.2) := by
      rw [List.append_assoc, upTo_append (passes_of_not_mem hlistline hbracket),
        List.cons_append, upTo_close hnext]
      simp
    rw [hscan, hlistEnd, hfront, hfront]
    cases hcutoff with
    | goesOn hopens hfound => exact .details hopens.append hfound
  · -- No bracket of the cut line ends the replicas.
    have hnone {t : List Char} (heq : inner = list ++ ']' :: t) :
        (blanks >>= fun _ => storeScanner) (t ++ ' ' :: B) = none := by
      by_contra hne
      obtain ⟨result, hnext⟩ := Option.ne_none_iff_exists'.mp hne
      exact hend ⟨t, result, heq, hnext⟩
    have hpass : Passes ']' (blanks >>= fun _ => storeScanner) inner (' ' :: B) := by
      refine passes_bracket_cut hbracket ?_ hinnerline hinner fun t heq => hnone heq
      simp only [List.mem_append, not_or]
      exact ⟨hgap'.not_mem (by decide), hstore.not_mem_bracket hdetails⟩
    rw [hscan, upTo_append hpass, Option.map_map]
    refine .peers (fun inner' hopens => ?_)
      ⟨list, _, _, ⟨rfl, ⟨gap', text, rfl, hgap', hstore⟩, rfl⟩, rfl⟩
    rw [hfront] at hopens
    obtain ⟨t, heq, -, hopens'⟩ := hopens.of_append fun _ => hstore.exists_detailsAt_append
    have hinner' : inner = list ++ ']' :: t := by simpa using heq
    have hcutoff := hbehind t hinner'
    rw [hnone hinner'] at hcutoff
    cases hcutoff with
    | refused hcloses => exact hcloses inner' hopens'

/-- The parts behind the head that are cut off go on into the next line if they have opened the
details and those of the next line end them, or else if they have opened the replicas. Otherwise
they are refused. -/
theorem peersScanner_cut {c : Capture} {peers details : List (List Char × List Char)}
    (hB : BeginsLine B) (h : Back c.peers c.store text) (hpeers : PeersPart peers c.peers)
    (hdetails : DetailsPart details c.store.details) (hline : '\n' ∉ text) (ht : t <+: text)
    (hne : t ≠ [])
    (hcut : ∀ latency, latency ≠ [] → latency <+: c.store.final.latency →
      ¬ Back c.peers (c.store.shorten latency) t) :
    c.CutOff text t B (peersScanner (t ++ ' ' :: B)) := by
  obtain ⟨head, part, store⟩ := c
  cases h with
  | plain hstore =>
    exact peersScanner_plain_cut hB hstore hdetails hline ht hne
      fun latency hlatency hle hspells => hcut latency hlatency hle (.plain hspells)
  | @peers list gap gap' text _ hgap hlistline hgap' hstore =>
    have hsplit : "peers".toList ++ (gap ++ '[' :: (list ++ ']' :: (gap' ++ text))) =
        ("peers".toList ++ gap) ++ '[' :: (list ++ ']' :: (gap' ++ text)) := by simp
    rw [hsplit] at ht hline ⊢
    -- The line is cut off in front of the bracket of its replicas or behind it.
    rcases prefix_append_cases ht with hle | ⟨more, rfl, hne', hmore⟩
    · rw [peersScanner_front_cut hB hgap hle]
      have hlength := hle.length_le
      have hbrackets : '[' :: (list ++ ']' :: (gap' ++ text)) =
          ('[' :: (list ++ ']' :: gap')) ++ text := by simp
      refine .refused (fun inner hopens => ?_) ?_
      · obtain ⟨t', rfl, hne', -⟩ := hopens.of_append fun _ hdetails =>
          hbrackets ▸ hstore.exists_detailsAt_append hdetails
        simp [hne'] at hlength
      · rintro inner ⟨list', before', after', hat', rfl⟩
        obtain ⟨-, rfl, -⟩ := PeersAt.unique (c := ⟨head, some ('[' :: list ++ [']']), store⟩)
          hdetails ⟨rfl, ⟨gap', text, rfl, hgap', hstore⟩, rfl⟩ hat'
        simp at hlength
    · obtain ⟨inner, rfl, hinner⟩ := exists_cons_of_prefix hne' hmore
      have hbracket : ']' ∉ list := hpeers.peerList.not_mem (by decide) (by decide) (by decide)
      simp only [List.mem_append, List.mem_cons, not_or] at hline
      refine peersScanner_open_cut hgap hlistline hbracket hgap' hstore hdetails
        (fun hmem => ?_) hinner fun t heq => ?_
      · have hmem' := hinner.subset hmem
        simp [hline] at hmem'
      · -- What follows the closing bracket, if that has not been cut off.
        refine blanks_storeScanner_cut hB hgap' hstore hdetails hline.2.2.2.2.2
          (List.cons_prefix_cons.mp ((List.prefix_append_right_inj list).mp (heq ▸ hinner))).2 ?_
        intro t' latency ht' hlatency hle hspells
        apply hcut latency hlatency hle
        rw [heq, ht']
        simpa using Back.peers hgap hlistline hgap' hspells

end OsdLatency.Capture
