import OsdLatency.Proofs.Trace.Grammar

/-!
# What the scanners of the parts take

Each scanner takes exactly the texts that the grammar allows, as far as the next part or the end of
a run. For the lists in brackets and parentheses it is a search for the shortest text, so the
scanner is described by that search.

## Main results

* `Capture.headScanner_append`, `Capture.headScanner_sound` — the parts up to the replicas
* `Capture.finalScanner_append`, `Capture.finalScanner_sound` — the final latency
* `Capture.detailsScanner_paren`, `Capture.detailsScanner_plain` — the details, if there are any
* `Capture.peersScanner_bracket`, `Capture.peersScanner_plain` — the replicas, if there are any
-/

namespace OsdLatency.Capture

open Text Text.Scanner

variable {α : Type} {label : String} {value gap pad text input rest : List Char}
  {tokens : List (List Char)}

theorem isSolid_of_isDigit {c : Char} (h : isDigit c = true) : isSolid c = true :=
  isSolid_eq_true.mpr (not_isBlank_of_isDigit h)

theorem isBlank_of_isSolid {c : Char} (h : isSolid c = true) : isBlank c = false :=
  isSolid_eq_true.mp h

theorem isSolid_of_isBlank {c : Char} (h : isBlank c = true) : isSolid c = false :=
  isSolid_eq_false.mpr h

/-! ### Numbers -/

theorem number_append (hgap : IsRun isBlank gap) (hvalue : IsRun isDigit value)
    (hrest : Boundary isDigit rest) :
    number label (label.toList ++ (gap ++ (value ++ rest))) = some (value, rest) := by
  have hboundary : Boundary isBlank (value ++ rest) :=
    hvalue.boundary_append fun _ => not_isBlank_of_isDigit
  rw [number, bind_of_eq_some (literal_append _ _), bind_of_eq_some (blanks_append hgap hboundary)]
  exact run_append hvalue hrest

theorem number_eq_some_iff :
    number label input = some (value, rest) ↔
      ∃ gap, input = label.toList ++ (gap ++ (value ++ rest)) ∧ IsRun isBlank gap ∧
        IsRun isDigit value ∧ Boundary isDigit rest := by
  constructor
  · intro h
    obtain ⟨_, _, hlabel, hbehind⟩ := bind_eq_some_iff.mp h
    obtain rfl := literal_eq_some_iff.mp hlabel
    obtain ⟨_, _, hblanks, hdigits⟩ := bind_eq_some_iff.mp hbehind
    obtain ⟨gap, rfl, hgap, -⟩ := blanks_eq_some_iff.mp hblanks
    obtain ⟨rfl, hvalue, hrest⟩ := run_eq_some_iff.mp hdigits
    exact ⟨gap, rfl, hgap, hvalue, hrest⟩
  · rintro ⟨gap, rfl, hgap, hvalue, hrest⟩
    exact number_append hgap hvalue hrest

theorem number_eq_none (h : ¬ label.toList <+: input) : number label input = none :=
  bind_of_eq_none (literal_eq_none h)

/-! ### Tokens with white space behind them

One step of the scanner of the parts up to the replicas takes a label or a value and the white space
behind it, or a label, white space, its value and the white space behind that. -/

section Tokens

variable {next : α → Scanner β} {result : β × List Char}

/-- A scanner that takes a token takes it with the white space behind it. -/
theorem blanks_step {scanner : Scanner α} {found : α} {token : List Char}
    (h : Spaced (token :: tokens) text) (hrest : Boundary isBlank rest)
    (hscan : ∀ left, Boundary isSolid left → scanner (token ++ left) = some (found, left)) :
    ∃ text', Spaced tokens text' ∧
      (scanner >>= fun a => blanks >>= fun _ => next a) (text ++ rest) =
        next found (text' ++ rest) := by
  obtain ⟨gap, text', htoken, hgap, htext', rfl⟩ := spaced_cons_iff.mp h
  refine ⟨text', htext', ?_⟩
  have hboundary : Boundary isSolid (gap ++ (text' ++ rest)) :=
    hgap.boundary_append fun _ => isSolid_of_isBlank
  rw [List.append_assoc, List.append_assoc, bind_of_eq_some (hscan _ hboundary),
    bind_of_eq_some (blanks_append hgap (htext'.boundary_append hrest))]

/-- A scanner that leaves white space is followed by the white space it leaves. -/
theorem of_blanks_step {scanner : Scanner α}
    (h : (scanner >>= fun a => blanks >>= fun _ => next a) input = some result) :
    ∃ found gap left, scanner input = some (found, gap ++ left) ∧ IsRun isBlank gap ∧
      Boundary isBlank left ∧ next found left = some result := by
  obtain ⟨found, left, hscan, hbehind⟩ := bind_eq_some_iff.mp h
  obtain ⟨_, left', hblanks, hnext⟩ := bind_eq_some_iff.mp hbehind
  obtain ⟨gap, rfl, hgap, hleft⟩ := blanks_eq_some_iff.mp hblanks
  exact ⟨found, gap, left', hscan, hgap, hleft, hnext⟩

theorem number_step {next : List Char → Scanner β} (hvalue : IsRun isDigit value)
    (h : Spaced (label.toList :: value :: tokens) text) (hrest : Boundary isBlank rest) :
    ∃ text', Spaced tokens text' ∧
      (number label >>= fun a => blanks >>= fun _ => next a) (text ++ rest) =
        next value (text' ++ rest) := by
  obtain ⟨gap, text₁, hlabel, hgap, htext₁, rfl⟩ := spaced_cons_iff.mp h
  obtain ⟨gap', text₂, -, hgap', htext₂, rfl⟩ := spaced_cons_iff.mp htext₁
  refine ⟨text₂, htext₂, ?_⟩
  have hboundary : Boundary isDigit (gap' ++ (text₂ ++ rest)) :=
    hgap'.boundary_append fun _ => not_isDigit_of_isBlank
  simp only [List.append_assoc]
  rw [bind_of_eq_some (number_append hgap hvalue hboundary),
    bind_of_eq_some (blanks_append hgap' (htext₂.boundary_append hrest))]

theorem of_number_step {next : List Char → Scanner β} (hlabel : IsRun isSolid label.toList)
    (h : (number label >>= fun a => blanks >>= fun _ => next a) input = some result) :
    ∃ value text left, IsRun isDigit value ∧ Spaced [label.toList, value] text ∧
      input = text ++ left ∧ Boundary isBlank left ∧ next value left = some result := by
  obtain ⟨value, gap', left, hscan, hgap', hleft, hnext⟩ := of_blanks_step h
  obtain ⟨gap, rfl, hgap, hvalue, -⟩ := number_eq_some_iff.mp hscan
  refine ⟨value, label.toList ++ (gap ++ (value ++ (gap' ++ []))), left, hvalue, ?_, by simp,
    hleft, hnext⟩
  exact .cons hlabel hgap (.cons (hvalue.imp fun _ => isSolid_of_isDigit) hgap' .nil)

theorem literal_step {next : Unit → Scanner β} (h : Spaced (label.toList :: tokens) text)
    (hrest : Boundary isBlank rest) :
    ∃ text', Spaced tokens text' ∧
      (literal label >>= fun a => blanks >>= fun _ => next a) (text ++ rest) =
        next () (text' ++ rest) :=
  blanks_step h hrest fun left _ => literal_append label left

theorem of_literal_step {next : Unit → Scanner β} (hlabel : IsRun isSolid label.toList)
    (h : (literal label >>= fun a => blanks >>= fun _ => next a) input = some result) :
    ∃ text left, Spaced [label.toList] text ∧ input = text ++ left ∧
      next () left = some result := by
  obtain ⟨_, gap, left, hscan, hgap, -, hnext⟩ := of_blanks_step h
  obtain rfl := literal_eq_some_iff.mp hscan
  exact ⟨label.toList ++ (gap ++ []), left, .cons hlabel hgap .nil, by simp, hnext⟩

theorem nonBlanks_step {next : List Char → Scanner β} (hvalue : IsRun isSolid value)
    (h : Spaced (value :: tokens) text) (hrest : Boundary isBlank rest) :
    ∃ text', Spaced tokens text' ∧
      (nonBlanks >>= fun a => blanks >>= fun _ => next a) (text ++ rest) =
        next value (text' ++ rest) :=
  blanks_step h hrest fun _ hleft => run_append hvalue hleft

theorem of_nonBlanks_step {next : List Char → Scanner β}
    (h : (nonBlanks >>= fun a => blanks >>= fun _ => next a) input = some result) :
    ∃ value text left, IsRun isSolid value ∧ Spaced [value] text ∧ input = text ++ left ∧
      next value left = some result := by
  obtain ⟨value, gap, left, hscan, hgap, -, hnext⟩ := of_blanks_step h
  obtain ⟨rfl, hvalue, -⟩ := run_eq_some_iff.mp hscan
  exact ⟨value, value ++ (gap ++ []), left, hvalue, .cons hvalue hgap .nil, by simp, hnext⟩

theorem kind_eq_some_iff {kind : OpKind} :
    oneOf OpKind.name OpKind.all input = some (kind, rest) ↔
      input = kind.name.toList ++ rest := by
  rw [oneOf_eq_some_iff (by decide)]
  simp

theorem isSolid_kindName (kind : OpKind) : IsRun isSolid kind.name.toList := by
  cases kind <;> decide

theorem kind_step {next : OpKind → Scanner β} {kind : OpKind}
    (h : Spaced (kind.name.toList :: tokens) text) (hrest : Boundary isBlank rest) :
    ∃ text', Spaced tokens text' ∧
      (oneOf OpKind.name OpKind.all >>= fun a => blanks >>= fun _ => next a) (text ++ rest) =
        next kind (text' ++ rest) :=
  blanks_step h hrest fun _ _ => kind_eq_some_iff.mpr rfl

theorem of_kind_step {next : OpKind → Scanner β}
    (h : (oneOf OpKind.name OpKind.all >>= fun a => blanks >>= fun _ => next a) input =
      some result) :
    ∃ kind text left, Spaced [kind.name.toList] text ∧ input = text ++ left ∧
      next kind left = some result := by
  obtain ⟨kind, gap, left, hscan, hgap, -, hnext⟩ := of_blanks_step h
  obtain rfl := kind_eq_some_iff.mp hscan
  exact ⟨kind, kind.name.toList ++ (gap ++ []), left, .cons (isSolid_kindName kind) hgap .nil,
    by simp, hnext⟩

end Tokens

/-! ### The parts up to the replicas -/

/-- The scanner takes every text of the parts up to the replicas. -/
theorem headScanner_append {head : Head} (h : head.Spells text) (hrest : Boundary isBlank rest) :
    headScanner (text ++ rest) = some (head, rest) := by
  obtain ⟨wf, htext⟩ := h
  -- One step for each part: it takes its tokens and leaves the text of the parts behind it.
  obtain ⟨text₁, htext₁, e₁⟩ := number_step wf.osd htext hrest
  obtain ⟨text₂, htext₂, e₂⟩ := literal_step htext₁ hrest
  obtain ⟨text₃, htext₃, e₃⟩ := nonBlanks_step wf.pg htext₂ hrest
  obtain ⟨text₄, htext₄, e₄⟩ := kind_step htext₃ hrest
  obtain ⟨text₅, htext₅, e₅⟩ := number_step wf.size htext₄ hrest
  obtain ⟨text₆, htext₆, e₆⟩ := number_step wf.client htext₅ hrest
  obtain ⟨text₇, htext₇, e₇⟩ := number_step wf.tid htext₆ hrest
  obtain ⟨text₈, htext₈, e₈⟩ := number_step wf.throttle htext₇ hrest
  obtain ⟨text₉, htext₉, e₉⟩ := number_step wf.recv htext₈ hrest
  obtain ⟨text₁₀, htext₁₀, e₁₀⟩ := number_step wf.dispatch htext₉ hrest
  obtain ⟨text₁₁, htext₁₁, e₁₁⟩ := number_step wf.queue htext₁₀ hrest
  obtain ⟨text₁₂, htext₁₂, e₁₂⟩ := number_step wf.osdLatency htext₁₁ hrest
  cases htext₁₂
  rw [headScanner, e₁, e₂, e₃, e₄, e₅, e₆, e₇, e₈, e₉, e₁₀, e₁₁, e₁₂]
  rfl

/-- What the scanner takes is a text of the parts it finds. -/
theorem headScanner_sound {head : Head} (h : headScanner input = some (head, rest)) :
    ∃ text, head.Spells text ∧ input = text ++ rest ∧ Boundary isBlank rest := by
  -- The tokens that each step takes, from the first part to the last one.
  obtain ⟨osd, text₁, _, hosd, htext₁, rfl, -, h₁⟩ := of_number_step (by decide) h
  obtain ⟨text₂, _, htext₂, rfl, h₂⟩ := of_literal_step (by decide) h₁
  obtain ⟨pg, text₃, _, hpg, htext₃, rfl, h₃⟩ := of_nonBlanks_step h₂
  obtain ⟨kind, text₄, _, htext₄, rfl, h₄⟩ := of_kind_step h₃
  obtain ⟨size, text₅, _, hsize, htext₅, rfl, -, h₅⟩ := of_number_step (by decide) h₄
  obtain ⟨client, text₆, _, hclient, htext₆, rfl, -, h₆⟩ := of_number_step (by decide) h₅
  obtain ⟨tid, text₇, _, htid, htext₇, rfl, -, h₇⟩ := of_number_step (by decide) h₆
  obtain ⟨throttle, text₈, _, hthrottle, htext₈, rfl, -, h₈⟩ := of_number_step (by decide) h₇
  obtain ⟨recv, text₉, _, hrecv, htext₉, rfl, -, h₉⟩ := of_number_step (by decide) h₈
  obtain ⟨dispatch, text₁₀, _, hdispatch, htext₁₀, rfl, -, h₁₀⟩ := of_number_step (by decide) h₉
  obtain ⟨queue, text₁₁, _, hqueue, htext₁₁, rfl, -, h₁₁⟩ := of_number_step (by decide) h₁₀
  obtain ⟨latency, text₁₂, _, hlatency, htext₁₂, rfl, hrest, h₁₂⟩ := of_number_step (by decide) h₁₁
  obtain ⟨rfl, rfl⟩ := Prod.mk.inj (Option.some.inj h₁₂)
  have htext := htext₁.append <| htext₂.append <| htext₃.append <| htext₄.append <|
    htext₅.append <| htext₆.append <| htext₇.append <| htext₈.append <| htext₉.append <|
    htext₁₀.append <| htext₁₁.append htext₁₂
  exact ⟨_, ⟨⟨hosd, hpg, hsize, hclient, htid, hthrottle, hrecv, hdispatch, hqueue, hlatency⟩,
    htext⟩, by simp, hrest⟩

/-! ### The final latency -/

theorem finalKind_eq_some_iff {kind : FinalKind} :
    oneOf FinalKind.name [.op, .subop] input = some (kind, rest) ↔
      input = kind.name.toList ++ rest := by
  rw [oneOf_eq_some_iff (by decide)]
  cases kind <;> simp

theorem isSolid_finalName (kind : FinalKind) : IsRun isSolid kind.name.toList := by
  cases kind <;> decide

/-- A label of a final latency begins with one of two letters. -/
theorem finalName_eq_cons (kind : FinalKind) :
    ∃ c others, kind.name.toList = c :: others ∧ (c = 'o' ∨ c = 's') := by
  cases kind with
  | op => exact ⟨'o', _, rfl, Or.inl rfl⟩
  | subop => exact ⟨'s', _, rfl, Or.inr rfl⟩

theorem finalScanner_append {final : Final} (h : final.Spells text)
    (hrest : Boundary isDigit rest) :
    finalScanner (text ++ rest) = some (final, rest) := by
  obtain @⟨kind, pad, gap, latency, hpad, hgap, hlatency⟩ := h
  have hlabel : Boundary isBlank (kind.name.toList ++ (gap ++ (latency ++ rest))) :=
    (isSolid_finalName kind).boundary_append fun _ => isBlank_of_isSolid
  have hvalue : Boundary isBlank (latency ++ rest) :=
    hlatency.boundary_append fun _ => not_isBlank_of_isDigit
  simp only [List.append_assoc]
  rw [finalScanner, bind_of_eq_some (optionalBlanks_append hpad hlabel),
    bind_of_eq_some (finalKind_eq_some_iff.mpr rfl), bind_of_eq_some (blanks_append hgap hvalue),
    bind_of_eq_some (digits_append hlatency hrest)]
  rfl

theorem finalScanner_sound {final : Final} (h : finalScanner input = some (final, rest)) :
    ∃ text, final.Spells text ∧ input = text ++ rest ∧ Boundary isDigit rest := by
  obtain ⟨_, _, hfront, h₁⟩ := bind_eq_some_iff.mp h
  obtain ⟨pad, rfl, hpad, -⟩ := optionalBlanks_eq_some_iff.mp hfront
  obtain ⟨kind, _, hkind, h₂⟩ := bind_eq_some_iff.mp h₁
  obtain rfl := finalKind_eq_some_iff.mp hkind
  obtain ⟨_, _, hblanks, h₃⟩ := bind_eq_some_iff.mp h₂
  obtain ⟨gap, rfl, hgap, -⟩ := blanks_eq_some_iff.mp hblanks
  obtain ⟨latency, _, hdigits, h₄⟩ := bind_eq_some_iff.mp h₃
  obtain ⟨rfl, hlatency, hrest⟩ := run_eq_some_iff.mp hdigits
  obtain ⟨rfl, rfl⟩ := Prod.mk.inj (Option.some.inj h₄)
  exact ⟨_, .intro hpad hgap hlatency, by simp, hrest⟩

/-- More digits behind a final latency belong to it. -/
theorem Final.Spells.append_digits {final : Final} (h : final.Spells text) {more : List Char}
    (hmore : ∀ c ∈ more, isDigit c = true) :
    (⟨final.kind, final.latency ++ more⟩ : Final).Spells (text ++ more) := by
  obtain @⟨kind, pad, gap, latency, hpad, hgap, hlatency⟩ := h
  simp only [List.append_assoc]
  refine .intro hpad hgap ⟨by simp [hlatency.1], ?_⟩
  intro c hc
  rcases List.mem_append.mp hc with hc | hc
  · exact hlatency.2 c hc
  · exact hmore c hc

/-- Where a final latency stands, the scanner takes it with all digits that follow. -/
theorem finalScanner_append_more {final : Final} (h : final.Spells text) (rest : List Char) :
    ∃ more left, rest = more ++ left ∧
      finalScanner (text ++ rest) = some (⟨final.kind, final.latency ++ more⟩, left) := by
  have hsplit : rest = rest.takeWhile isDigit ++ rest.dropWhile isDigit :=
    (List.takeWhile_append_dropWhile).symm
  refine ⟨_, _, hsplit, ?_⟩
  have hmore := h.append_digits fun c (hc : c ∈ rest.takeWhile isDigit) =>
    List.mem_takeWhile_imp hc
  have := finalScanner_append hmore (boundary_dropWhile rest)
  rwa [List.append_assoc, List.takeWhile_append_dropWhile] at this

/-- A final latency begins neither with a digit nor with a parenthesis. -/
theorem Final.Spells.boundary_append {final : Final} (h : final.Spells text) :
    Boundary isDigit (text ++ rest) := by
  obtain @⟨kind, pad, gap, latency, hpad, -, -⟩ := h
  cases pad with
  | nil =>
    obtain ⟨c, others, hname, rfl | rfl⟩ := finalName_eq_cons kind
    · simp [hname, show isDigit 'o' = false by decide]
    · simp [hname, show isDigit 's' = false by decide]
  | cons c pad => simpa using not_isDigit_of_isBlank (hpad c List.mem_cons_self)

/-- Text that begins with a character of no label is no final latency. -/
theorem finalScanner_eq_none_of_cons {c : Char} (hpad : IsPad pad) (hc : isBlank c = false)
    (ho : c ≠ 'o') (hs : c ≠ 's') : finalScanner (pad ++ c :: rest) = none := by
  rw [finalScanner, bind_of_eq_some (optionalBlanks_append hpad (boundary_cons.mpr hc))]
  apply bind_of_eq_none
  rw [Option.eq_none_iff_forall_ne_some]
  rintro ⟨kind, left⟩ hkind
  obtain ⟨d, others, hname, hd⟩ := finalName_eq_cons kind
  have := finalKind_eq_some_iff.mp hkind
  rw [hname] at this
  obtain rfl : c = d := (List.cons.inj this).1
  rcases hd with hd | hd
  · exact ho hd
  · exact hs hd

/-! ### The details of the store -/

/-- Behind an opening parenthesis, the details are searched for. -/
theorem detailsScanner_paren (hpad : IsPad pad) (input : List Char) :
    detailsScanner (pad ++ '(' :: input) =
      (upTo ')' finalScanner input).map fun found =>
        ((some found.1.1, found.1.2), found.2) := by
  have hparen : Boundary isBlank ('(' :: input) := boundary_cons.mpr (by decide)
  have hplain : finalScanner (pad ++ '(' :: input) = none :=
    finalScanner_eq_none_of_cons hpad (by decide) (by decide) (by decide)
  rw [detailsScanner, orElse_apply, bind_of_eq_some (optionalBlanks_append hpad hparen),
    bind_of_eq_some (literal_eq_some_iff.mpr rfl : literal "(" ('(' :: input) = some ((), input)),
    bind_of_eq_none hplain, Option.or_none, bind_apply]
  cases upTo ')' finalScanner input <;> rfl

/-- Without an opening parenthesis there are no details. -/
theorem detailsScanner_plain (hpad : IsPad pad) (hrest : Boundary isBlank rest)
    (hparen : rest.head? ≠ some '(') :
    detailsScanner (pad ++ rest) =
      (finalScanner (pad ++ rest)).map fun found => ((none, found.1), found.2) := by
  have hliteral : literal "(" rest = none := by
    apply literal_eq_none
    rintro ⟨left, rfl⟩
    simp at hparen
  rw [detailsScanner, orElse_apply, bind_of_eq_some (optionalBlanks_append hpad hrest),
    bind_of_eq_none hliteral, Option.none_or, bind_apply]
  cases finalScanner (pad ++ rest) <;> rfl

theorem detailsScanner_sound {details : Option (List Char)} {final : Final}
    (h : detailsScanner input = some ((details, final), rest)) :
    ∃ text, Ending details final text ∧ input = text ++ rest ∧ Boundary isDigit rest := by
  have hsplit : input = input.takeWhile isBlank ++ input.dropWhile isBlank :=
    (List.takeWhile_append_dropWhile).symm
  have hpad : IsPad (input.takeWhile isBlank) := fun c hc => List.mem_takeWhile_imp hc
  -- The parenthesis decides which of the two alternatives can have succeeded.
  by_cases hparen : (input.dropWhile isBlank).head? = some '('
  · obtain ⟨inner, hinner⟩ := List.head?_eq_some_iff.mp hparen
    rw [hinner] at hsplit
    rw [hsplit, detailsScanner_paren hpad, Option.map_eq_some_iff] at h
    obtain ⟨⟨⟨list, final'⟩, left⟩, hfound, heq⟩ := h
    obtain ⟨⟨rfl, rfl⟩, rfl⟩ :
        (some list = details ∧ final' = final) ∧ left = rest := by simpa using heq
    obtain ⟨behind, rfl, hfinal, hpass⟩ := upTo_eq_some_iff.mp hfound
    obtain ⟨text, htext, rfl, hrest⟩ := finalScanner_sound hfinal
    exact ⟨_, .details hpad hpass.1 htext, hsplit.trans (by simp), hrest⟩
  · rw [hsplit, detailsScanner_plain hpad (boundary_dropWhile input) hparen, ← hsplit,
      Option.map_eq_some_iff] at h
    obtain ⟨⟨final', left⟩, hfound, heq⟩ := h
    obtain ⟨⟨rfl, rfl⟩, rfl⟩ : (none = details ∧ final' = final) ∧ left = rest := by
      simpa using heq
    obtain ⟨text, htext, rfl, hrest⟩ := finalScanner_sound hfound
    exact ⟨text, .plain htext, rfl, hrest⟩

/-! ### All from the latency of the store on -/

/-- Details or a final latency do not begin with a digit. -/
theorem Ending.boundary_append {details : Option (List Char)} {final : Final}
    (h : Ending details final text) : Boundary isDigit (text ++ rest) := by
  cases h with
  | plain hfinal => exact hfinal.boundary_append
  | @details _ pad _ _ hpad _ _ =>
    cases pad with
    | nil => simp [show isDigit '(' = false by decide]
    | cons c pad => simpa using not_isDigit_of_isBlank (hpad c List.mem_cons_self)

theorem storeScanner_append (hgap : IsRun isBlank gap) (hvalue : IsRun isDigit value)
    (hrest : Boundary isDigit rest) :
    storeScanner ("bluestore_lat".toList ++ (gap ++ (value ++ rest))) =
      (detailsScanner rest).map fun found => (⟨value, found.1.1, found.1.2⟩, found.2) := by
  rw [storeScanner, bind_of_eq_some (number_append hgap hvalue hrest), bind_apply]
  cases detailsScanner rest <;> rfl

theorem storeScanner_eq_none (h : ¬ "bluestore_lat".toList <+: input) :
    storeScanner input = none :=
  bind_of_eq_none (number_eq_none h)

theorem storeScanner_sound {store : Store} (h : storeScanner input = some (store, rest)) :
    ∃ text, store.Spells text ∧ input = text ++ rest ∧ Boundary isDigit rest := by
  obtain ⟨latency, behind, hnumber, -⟩ := bind_eq_some_iff.mp h
  obtain ⟨gap, rfl, hgap, hlatency, hbehind⟩ := number_eq_some_iff.mp hnumber
  rw [storeScanner_append hgap hlatency hbehind, Option.map_eq_some_iff] at h
  obtain ⟨⟨⟨details, final⟩, left⟩, hfound, heq⟩ := h
  obtain ⟨rfl, rfl⟩ := Prod.mk.inj heq
  obtain ⟨text, htext, rfl, hrest⟩ := detailsScanner_sound hfound
  exact ⟨_, .intro hgap hlatency htext, by simp, hrest⟩

/-! ### The replicas -/

/-- The label of the replicas is not that of the latency of the store. -/
theorem storeScanner_peers_eq_none (input : List Char) :
    storeScanner ("peers".toList ++ input) = none := by
  apply storeScanner_eq_none
  rintro ⟨left, hleft⟩
  exact absurd (List.cons.inj hleft).1 (by decide)

/-- Behind an opening bracket, the replicas are searched for. -/
theorem peersScanner_bracket (hgap : IsRun isBlank gap) (input : List Char) :
    peersScanner ("peers".toList ++ (gap ++ '[' :: input)) =
      (upTo ']' (blanks >>= fun _ => storeScanner) input).map fun found =>
        ((some ('[' :: found.1.1 ++ [']']), found.1.2), found.2) := by
  have hbracket : Boundary isBlank ('[' :: input) := boundary_cons.mpr (by decide)
  rw [peersScanner, orElse_apply, bind_of_eq_some (literal_append _ _),
    bind_of_eq_some (blanks_append hgap hbracket),
    bind_of_eq_some (literal_eq_some_iff.mpr rfl : literal "[" ('[' :: input) = some ((), input)),
    bind_of_eq_none (storeScanner_peers_eq_none _), Option.or_none, bind_apply]
  cases upTo ']' (blanks >>= fun _ => storeScanner) input <;> rfl

/-- Without their label there are no replicas. -/
theorem peersScanner_plain (h : ¬ "peers".toList <+: input) :
    peersScanner input = (storeScanner input).map fun found => ((none, found.1), found.2) := by
  rw [peersScanner, orElse_apply, bind_of_eq_none (literal_eq_none h), Option.none_or, bind_apply]
  cases storeScanner input <;> rfl

/-- Behind the label of the replicas there is white space and a bracket, or nothing is accepted. -/
theorem peersScanner_of_label (h : peersScanner ("peers".toList ++ input) ≠ none) :
    ∃ gap inner, IsRun isBlank gap ∧ input = gap ++ '[' :: inner := by
  rw [peersScanner, orElse_apply, bind_of_eq_none (storeScanner_peers_eq_none _), Option.or_none,
    bind_of_eq_some (literal_append _ _)] at h
  obtain ⟨found, hfound⟩ := Option.ne_none_iff_exists'.mp h
  obtain ⟨_, _, hblanks, hbehind⟩ := bind_eq_some_iff.mp hfound
  obtain ⟨gap, rfl, hgap, -⟩ := blanks_eq_some_iff.mp hblanks
  obtain ⟨_, inner, hbracket, -⟩ := bind_eq_some_iff.mp hbehind
  obtain rfl := literal_eq_some_iff.mp hbracket
  exact ⟨gap, inner, hgap, rfl⟩

theorem peersScanner_sound {peers : Option (List Char)} {store : Store}
    (h : peersScanner input = some ((peers, store), rest)) :
    ∃ text, Back peers store text ∧ input = text ++ rest ∧ Boundary isDigit rest := by
  -- The label decides: in front of it only the replicas can be read, elsewhere only the store.
  by_cases hlabel : "peers".toList <+: input
  · obtain ⟨behind, rfl⟩ := hlabel
    obtain ⟨gap, inner, hgap, rfl⟩ := peersScanner_of_label (h ▸ Option.some_ne_none _)
    rw [peersScanner_bracket hgap, Option.map_eq_some_iff] at h
    obtain ⟨⟨⟨list, store'⟩, left⟩, hfound, heq⟩ := h
    obtain ⟨hpeers, rfl⟩ := Prod.mk.inj heq
    obtain ⟨rfl, rfl⟩ := Prod.mk.inj hpeers
    obtain ⟨behind, rfl, hnext, hpass⟩ := upTo_eq_some_iff.mp hfound
    obtain ⟨_, _, hblanks, hstore⟩ := bind_eq_some_iff.mp hnext
    obtain ⟨gap', rfl, hgap', -⟩ := blanks_eq_some_iff.mp hblanks
    obtain ⟨text, htext, rfl, hrest⟩ := storeScanner_sound hstore
    exact ⟨_, .peers hgap hpass.1 hgap' htext, by simp, hrest⟩
  · rw [peersScanner_plain hlabel, Option.map_eq_some_iff] at h
    obtain ⟨⟨store', left⟩, hfound, heq⟩ := h
    obtain ⟨hpeers, rfl⟩ := Prod.mk.inj heq
    obtain ⟨rfl, rfl⟩ := Prod.mk.inj hpeers
    obtain ⟨text, htext, rfl, hrest⟩ := storeScanner_sound hfound
    exact ⟨text, .plain htext, rfl, hrest⟩

/-! ### All parts -/

theorem Store.Spells.exists_label {store : Store} (h : store.Spells text) :
    ∃ behind, text = "bluestore_lat".toList ++ behind := by
  obtain ⟨-, -, -⟩ := h
  exact ⟨_, rfl⟩

theorem Store.Spells.boundary_append {store : Store} (h : store.Spells text) :
    Boundary isBlank (text ++ rest) := by
  obtain ⟨behind, rfl⟩ := h.exists_label
  exact boundary_cons.mpr (by decide)

/-- What begins with the latency of the store is not read as replicas. -/
theorem Store.Spells.peersScanner_eq {store : Store} (h : store.Spells text) (rest : List Char) :
    peersScanner (text ++ rest) =
      (storeScanner (text ++ rest)).map fun found => ((none, found.1), found.2) := by
  apply peersScanner_plain
  obtain ⟨behind, rfl⟩ := h.exists_label
  rintro ⟨left, hleft⟩
  exact absurd (List.cons.inj hleft).1 (by decide)

/-- Behind the replicas, the white space in front of the latency of the store is passed over. -/
theorem Store.Spells.blanks_eq {store : Store} (h : store.Spells text) (hgap : IsRun isBlank gap)
    (rest : List Char) :
    (blanks >>= fun _ => storeScanner) (gap ++ (text ++ rest)) = storeScanner (text ++ rest) :=
  bind_of_eq_some (blanks_append hgap h.boundary_append)

/-- What follows the parts up to the replicas is no white space. -/
theorem Back.boundary_append {peers : Option (List Char)} {store : Store}
    (h : Back peers store text) : Boundary isBlank (text ++ rest) := by
  cases h with
  | plain hstore => exact hstore.boundary_append
  | peers hgap hlist hgap' hstore => exact boundary_cons.mpr (by decide)

/-- Behind the parts up to the replicas, the others are read. -/
theorem scanner_append {head : Head} (h : head.Spells text) (hrest : Boundary isBlank rest) :
    scanner (text ++ rest) =
      (peersScanner rest).map fun found => (⟨head, found.1.1, found.1.2⟩, found.2) := by
  rw [scanner, bind_of_eq_some (headScanner_append h hrest), bind_apply]
  cases peersScanner rest <;> rfl

/-- What is accepted begins with the parts up to the replicas. -/
theorem exists_head_of_scanner (h : scanner input ≠ none) :
    ∃ head text rest, Head.Spells head text ∧ input = text ++ rest ∧ Boundary isBlank rest := by
  obtain ⟨found, hfound⟩ := Option.ne_none_iff_exists'.mp h
  obtain ⟨head, rest, hhead, -⟩ := bind_eq_some_iff.mp hfound
  obtain ⟨text, htext, hinput, hrest⟩ := headScanner_sound hhead
  exact ⟨head, text, rest, htext, hinput, hrest⟩

/-- What the scanner of a line takes is a text of the parts it finds. -/
theorem scanner_sound {c : Capture} (h : scanner input = some (c, rest)) :
    ∃ text, c.Spells text ∧ input = text ++ rest ∧ Boundary isDigit rest := by
  obtain ⟨head, front, behind, hfront, rfl, hbehind⟩ :=
    exists_head_of_scanner (h ▸ Option.some_ne_none _)
  rw [scanner_append hfront hbehind, Option.map_eq_some_iff] at h
  obtain ⟨⟨⟨peers, store⟩, left⟩, hfound, heq⟩ := h
  obtain ⟨rfl, rfl⟩ := Prod.mk.inj heq
  obtain ⟨back, hback, rfl, hrest⟩ := peersScanner_sound hfound
  exact ⟨front ++ back, ⟨front, back, hfront, hback, rfl⟩, by simp, hrest⟩

end OsdLatency.Capture
