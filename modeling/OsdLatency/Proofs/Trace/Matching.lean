import OsdLatency.Proofs.Trace.Parts

/-!
# Which match of a line is used

The scanner of a line finds parts wherever the grammar has a match. It begins at the first place
where any match begins, and among the matches that begin there it finds the preferred one.

## Main results

* `Capture.scanner_complete` — every match is found, or a preferred one that begins at the same
  place
* `Capture.ofLine?_eq_some_iff` — the parts that are found in a line are those of the used match
* `Capture.ofLine?_isSome_iff` — parts are found exactly if there is a match
* `Capture.IsUsed.unique` — a line has at most one used match
* `Capture.mayBeIn_of_hasMatch` — a line with a match names the latency of the store
-/

namespace OsdLatency.Capture

open Text Text.Scanner

variable {text line : List Char} {c c' : Capture}

/-! ### Every match is found -/

theorem finalScanner_complete {final : Final} (h : final.Spells text) (rest : List Char) :
    ∃ final' left, finalScanner (text ++ rest) = some (final', left) ∧
      (final' = final ∨ final'.Preferred final) := by
  obtain ⟨more, left, -, hfound⟩ := finalScanner_append_more h rest
  refine ⟨_, left, hfound, ?_⟩
  cases more with
  | nil => exact Or.inl (by simp)
  | cons c more => exact Or.inr (by simp [Final.Preferred])

/-- A final latency begins with its label behind the white space. -/
theorem Final.Spells.exists_pad {final : Final} (h : final.Spells text) (rest : List Char) :
    ∃ pad behind, text ++ rest = pad ++ behind ∧ IsPad pad ∧ Boundary isBlank behind ∧
      behind.head? ≠ some '(' := by
  obtain @⟨kind, pad, gap, latency, hpad, -, -⟩ := h
  refine ⟨pad, kind.name.toList ++ (gap ++ (latency ++ rest)), by simp, hpad,
    (isSolid_finalName kind).boundary_append fun _ => isBlank_of_isSolid, ?_⟩
  cases kind <;> simp [FinalKind.name]

theorem storeScanner_complete {store : Store} (h : store.Spells text) (rest : List Char) :
    ∃ store' left, storeScanner (text ++ rest) = some (store', left) ∧
      (store' = store ∨ store'.Preferred store) := by
  obtain @⟨latency, gap, behind, details, final, hgap, hlatency, hending⟩ := h
  simp only [List.append_assoc]
  rw [storeScanner_append hgap hlatency hending.boundary_append]
  cases hending with
  | plain hfinal =>
    obtain ⟨final', left, hfound, hfinal'⟩ := finalScanner_complete hfinal rest
    obtain ⟨pad, behind', heq, hpad, hboundary, hparen⟩ := hfinal.exists_pad rest
    rw [heq] at hfound ⊢
    rw [detailsScanner_plain hpad hboundary hparen, hfound]
    refine ⟨_, left, rfl, ?_⟩
    rcases hfinal' with rfl | hlonger
    · exact Or.inl rfl
    · exact Or.inr (Or.inr ⟨rfl, hlonger⟩)
  | @details details pad text final hpad hline hfinal =>
    obtain ⟨final', left, hfound, hfinal'⟩ := finalScanner_complete hfinal rest
    obtain ⟨list, final'', left', hsearch, hlist⟩ := upTo_append_close hline hfound
    simp only [List.append_assoc, List.cons_append]
    rw [detailsScanner_paren hpad, hsearch]
    refine ⟨_, left', rfl, ?_⟩
    -- The search ends earlier, with shorter details, or at the same parenthesis.
    rcases hlist with hshorter | ⟨rfl, rfl⟩
    · exact Or.inr (Or.inl hshorter)
    · rcases hfinal' with rfl | hlonger
      · exact Or.inl rfl
      · exact Or.inr (Or.inr ⟨rfl, hlonger⟩)

theorem peersScanner_complete {peers : Option (List Char)} {store : Store}
    (h : Back peers store text) (rest : List Char) :
    ∃ peers' store' left, peersScanner (text ++ rest) = some ((peers', store'), left) ∧
      (peers' = peers ∧ store' = store ∨ (peers'.getD []).length < (peers.getD []).length ∨
        peers' = peers ∧ store'.Preferred store) := by
  cases h with
  | plain hstore =>
    obtain ⟨store', left, hfound, hstore'⟩ := storeScanner_complete hstore rest
    rw [hstore.peersScanner_eq, hfound]
    refine ⟨_, _, left, rfl, ?_⟩
    rcases hstore' with rfl | hpreferred
    · exact Or.inl ⟨rfl, rfl⟩
    · exact Or.inr (Or.inr ⟨rfl, hpreferred⟩)
  | @peers list gap gap' text store hgap hline hgap' hstore =>
    obtain ⟨store', left, hfound, hstore'⟩ := storeScanner_complete hstore rest
    rw [← hstore.blanks_eq hgap' rest] at hfound
    obtain ⟨list', store'', left', hsearch, hlist⟩ := upTo_append_close hline hfound
    simp only [List.append_assoc, List.cons_append]
    rw [peersScanner_bracket hgap, hsearch]
    refine ⟨_, _, left', rfl, ?_⟩
    -- The search ends earlier, with shorter replicas, or at the same bracket.
    rcases hlist with hshorter | ⟨rfl, rfl⟩
    · exact Or.inr (Or.inl (by simpa using hshorter))
    · rcases hstore' with rfl | hpreferred
      · exact Or.inl ⟨rfl, rfl⟩
      · exact Or.inr (Or.inr ⟨rfl, hpreferred⟩)

/-- Every match is found, or a preferred one that begins at the same place. -/
theorem scanner_complete (h : c.Spells text) (rest : List Char) :
    ∃ c' left, scanner (text ++ rest) = some (c', left) ∧ (c' = c ∨ c'.Preferred c) := by
  obtain ⟨front, back, hfront, hback, rfl⟩ := h
  obtain ⟨peers', store', left, hfound, hpreferred⟩ := peersScanner_complete hback rest
  rw [List.append_assoc, scanner_append hfront hback.boundary_append, hfound]
  refine ⟨_, left, rfl, ?_⟩
  rcases hpreferred with ⟨rfl, rfl⟩ | hshorter | hstore
  · exact Or.inl rfl
  · exact Or.inr (Or.inl hshorter)
  · exact Or.inr (Or.inr hstore)

/-! ### The used match -/

/-- The parts that are found in a line are those of a used match. -/
theorem isUsed_of_ofLine? (h : ofLine? line = some c) : c.IsUsed line := by
  obtain ⟨before, input, rest, rfl, hfound, hrefused⟩ := findFirst_eq_some_iff.mp h
  obtain ⟨text, htext, rfl, -⟩ := scanner_sound hfound
  refine ⟨before, ⟨text, rest, rfl, htext⟩, ?_⟩
  intro before' c' hmatch
  obtain ⟨text', after', hline, htext'⟩ := hmatch
  rcases lt_trichotomy before.length before'.length with hlt | heq | hgt
  · exact Or.inl hlt
  · -- The scanner finds the preferred match at this place.
    obtain ⟨rfl, hinput⟩ := List.append_inj hline heq
    obtain ⟨c'', left, hfound', hpreferred⟩ := scanner_complete htext' after'
    rw [← hinput, hfound] at hfound'
    obtain ⟨rfl, rfl⟩ := Prod.mk.inj (Option.some.inj hfound')
    exact Or.inr ⟨rfl, hpreferred⟩
  · -- All places further to the left are refused.
    obtain ⟨skipped, hskipped, hbehind⟩ :
        ∃ skipped, before = before' ++ skipped ∧ text' ++ after' = skipped ++ (text ++ rest) := by
      rcases List.append_eq_append_iff.mp hline with ⟨skipped, rfl, -⟩ | ⟨skipped, hskipped, heq⟩
      · simp at hgt
      · exact ⟨skipped, hskipped, heq⟩
    have hne : skipped ≠ [] := by
      rintro rfl
      simp [hskipped] at hgt
    obtain ⟨c'', left, hfound', -⟩ := scanner_complete htext' after'
    rw [hbehind, hrefused before' skipped hskipped hne] at hfound'
    simp at hfound'

/-- Parts are found exactly if there is a match. -/
theorem ofLine?_isSome_iff : (ofLine? line).isSome ↔ HasMatch line := by
  constructor
  · intro h
    obtain ⟨c, hc⟩ := Option.isSome_iff_exists.mp h
    obtain ⟨before, hmatch, -⟩ := isUsed_of_ofLine? hc
    exact ⟨before, c, hmatch⟩
  · rintro ⟨before, c, text, after, rfl, htext⟩
    -- Where no place is accepted, the scanner refuses the match as well, which it does not.
    by_contra hnone
    have hall := findFirst_eq_none_iff.mp (Option.not_isSome_iff_eq_none.mp hnone)
    obtain ⟨c', left, hfound, -⟩ := scanner_complete htext after
    rw [hall before (text ++ after) rfl] at hfound
    simp at hfound

theorem Preferred.asymm (h : c.Preferred c') : ¬ c'.Preferred c := by
  unfold Preferred Store.Preferred Final.Preferred at *
  -- A lexicographic order of three lengths: the first difference decides in both directions.
  rcases h with hlt | ⟨hpeers, hlt | ⟨hdetails, hlt⟩⟩
  · rintro (hgt | ⟨hpeers, -⟩)
    · omega
    · rw [hpeers] at hlt
      omega
  · rintro (hgt | ⟨-, hgt | ⟨hdetails, -⟩⟩)
    · rw [hpeers] at hgt
      omega
    · omega
    · rw [hdetails] at hlt
      omega
  · rintro (hgt | ⟨-, hgt | ⟨-, hgt⟩⟩)
    · rw [hpeers] at hgt
      omega
    · rw [hdetails] at hgt
      omega
    · omega

/-- A line has at most one used match. -/
theorem IsUsed.unique (h : c.IsUsed line) (h' : c'.IsUsed line) : c = c' := by
  obtain ⟨before, hmatch, hfirst⟩ := h
  obtain ⟨before', hmatch', hfirst'⟩ := h'
  -- Each of the two does not begin behind the other one, so they begin together.
  rcases hfirst before' c' hmatch' with hlt | ⟨heq, hpreferred⟩
  · rcases hfirst' before c hmatch with hgt | ⟨heq, -⟩
    · omega
    · omega
  · rcases hfirst' before c hmatch with hgt | ⟨-, hpreferred'⟩
    · omega
    · rcases hpreferred with rfl | hpreferred
      · rfl
      · rcases hpreferred' with rfl | hpreferred'
        · rfl
        · exact absurd hpreferred' hpreferred.asymm

/-- The parts that are found in a line are those of the used match. -/
theorem ofLine?_eq_some_iff : ofLine? line = some c ↔ c.IsUsed line := by
  refine ⟨isUsed_of_ofLine?, fun h => ?_⟩
  have hused := h
  obtain ⟨before, hmatch, -⟩ := h
  obtain ⟨c', hc'⟩ := Option.isSome_iff_exists.mp (ofLine?_isSome_iff.mpr ⟨before, c, hmatch⟩)
  rw [hc', hused.unique (isUsed_of_ofLine? hc')]

/-! ### The check in front -/

theorem Back.exists_store {peers : Option (List Char)} {store : Store} (h : Back peers store text) :
    ∃ front rest, text = front ++ ("bluestore_lat".toList ++ rest) := by
  cases h with
  | plain hstore =>
    obtain ⟨behind, rfl⟩ := hstore.exists_label
    exact ⟨[], behind, rfl⟩
  | @peers list gap gap' text store _ _ _ hstore =>
    obtain ⟨behind, rfl⟩ := hstore.exists_label
    exact ⟨"peers".toList ++ (gap ++ '[' :: (list ++ ']' :: gap')), behind, by simp⟩

/-- A line with a match names the latency of the store. -/
theorem mayBeIn_of_hasMatch (h : HasMatch line) : Record.mayBeIn line = true := by
  obtain ⟨before, c, text, after, rfl, front, back, -, hback, rfl⟩ := h
  obtain ⟨front', rest, rfl⟩ := hback.exists_store
  unfold Record.mayBeIn occursIn
  rw [← Option.ne_none_iff_isSome]
  intro hnone
  have hsome := literal_append "bluestore_lat" (rest ++ after)
  rw [findFirst_eq_none_iff.mp hnone (before ++ (front ++ front')) _ (by simp)] at hsome
  simp at hsome

end OsdLatency.Capture
