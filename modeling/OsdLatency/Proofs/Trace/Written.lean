import OsdLatency.Proofs.Trace.Acceptance

/-!
# How records are written

A trace line of a record has the parts of the grammar. Its replicas are pairs in brackets with
commas between them, its details are names with their values, and a detail may stand in parentheses
of its own. A list without items may be left out.

## Main definitions

* `Capture.PeerList`, `Capture.DetailList` — the texts of the lists
* `Capture.Written` — a line of given parts and items
* `Record.WrittenAs`, `Record.Written` — a line of a record

## Main results

* `Capture.PeerList.findAll_eq`, `Capture.DetailList.findAll_eq` — the items of a list are found
  again
-/

namespace OsdLatency

open Text Text.Scanner

namespace Capture

/-- The replicas between their brackets. -/
inductive PeerList : List (List Char × List Char) → List Char → Prop
  | nil {pad : List Char} : IsPad pad → PeerList [] pad
  | last {pad taken pad' : List Char} {item : List Char × List Char} :
      IsPad pad → PeerSpells item taken → IsPad pad' → PeerList [item] (pad ++ (taken ++ pad'))
  | cons {pad taken pad' text : List Char} {item : List Char × List Char}
      {items : List (List Char × List Char)} :
      IsPad pad → PeerSpells item taken → IsPad pad' → PeerList items text → items ≠ [] →
      PeerList (item :: items) (pad ++ (taken ++ (pad' ++ ',' :: text)))

/-- One detail of the store, perhaps in parentheses of its own. -/
inductive DetailItem : List Char × List Char → List Char → Prop
  | plain {item : List Char × List Char} {taken : List Char} :
      DetailSpells item taken → DetailItem item taken
  | nested {item : List Char × List Char} {pad taken pad' : List Char} :
      IsPad pad → DetailSpells item taken → IsPad pad' →
      DetailItem item ('(' :: (pad ++ (taken ++ (pad' ++ [')']))))

/-- The details of the store between their parentheses. No detail has the label of a final latency
for its name. -/
inductive DetailList : List (List Char × List Char) → List Char → Prop
  | nil {pad : List Char} : IsPad pad → DetailList [] pad
  | cons {pad taken text : List Char} {item : List Char × List Char}
      {items : List (List Char × List Char)} :
      IsPad pad → DetailItem item taken → (∀ kind : FinalKind, item.1 ≠ kind.name.toList) →
      Boundary isSolid text → DetailList items text →
      DetailList (item :: items) (pad ++ (taken ++ text))

/-- The replicas with their brackets, or nothing. -/
inductive PeersPart : List (List Char × List Char) → Option (List Char) → Prop
  | missing : PeersPart [] none
  | list {items : List (List Char × List Char)} {text : List Char} :
      PeerList items text → PeersPart items (some ('[' :: text ++ [']']))

/-- The details of the store without their parentheses, or nothing. -/
inductive DetailsPart : List (List Char × List Char) → Option (List Char) → Prop
  | missing : DetailsPart [] none
  | list {items : List (List Char × List Char)} {text : List Char} :
      DetailList items text → DetailsPart items (some text)

/-- A line of given parts and items. -/
structure Written (c : Capture) (peers details : List (List Char × List Char)) (line : List Char) :
    Prop where
  spells : c.Spells line
  peers : PeersPart peers c.peers
  details : DetailsPart details c.store.details
  line : '\n' ∉ line

end Capture

/-- A line of a record with given parts: its values are those of the parts, and its replicas and
details those of the items, in the same order. -/
def Record.WrittenAs (r : Record) (c : Capture) (line : List Char) : Prop :=
  ∃ peers details : List (List Char × List Char),
    c.Written peers details line ∧ c.Values r ∧ List.Forall₂ Capture.PeerValue peers r.peers ∧
      List.Forall₂ Capture.DetailValue details r.details.toList

/-- A line of a record. -/
def Record.Written (r : Record) (line : List Char) : Prop := ∃ c : Capture, r.WrittenAs c line

namespace Capture

variable {items : List (List Char × List Char)} {item : List Char × List Char}
  {pad taken text rest : List Char}

/-! ### Replicas -/

theorem refused_peerScanner (h : '(' ∉ text) : Refused peerScanner text rest := by
  rintro before after rfl hne
  apply peerScanner_eq_none
  obtain ⟨c, others, rfl⟩ := List.exists_cons_of_ne_nil hne
  rintro hc
  obtain rfl : c = '(' := by simpa using hc
  simp at h

theorem PeerSpells.findAll_append (h : PeerSpells item taken) (rest : List Char) :
    findAll peerScanner (taken ++ rest) = item :: findAll peerScanner rest := by
  obtain ⟨hosd, hpad, hlatency⟩ := h
  apply findAll_append_of_eq_some (by simp)
  simpa using peerScanner_append hosd hpad hlatency rest

/-- The replicas of a list are found again. -/
theorem PeerList.findAll_append (h : PeerList items text) (hrest : '(' ∉ rest) :
    findAll peerScanner (text ++ rest) = items := by
  have hend {pad : List Char} (hpad : IsPad pad) :
      findAll peerScanner (pad ++ rest) = [] := by
    have hrefused : Refused peerScanner (pad ++ rest) [] := by
      apply refused_peerScanner
      simp [hrest, hpad.not_mem (show isBlank '(' = false by decide)]
    have := findAll_append_of_refused hrefused
    simpa using this
  -- White space around a replica is passed over.
  have hskip {pad : List Char} (hpad : IsPad pad) (left : List Char) :
      findAll peerScanner (pad ++ left) = findAll peerScanner left :=
    findAll_append_of_refused (refused_peerScanner (hpad.not_mem (by decide)))
  induction h with
  | nil hpad => exact hend hpad
  | last hpad hitem hpad' =>
    rw [List.append_assoc, List.append_assoc, hskip hpad, hitem.findAll_append, hend hpad']
  | cons hpad hitem hpad' _ _ ih =>
    simp only [List.append_assoc, List.cons_append]
    rw [hskip hpad, hitem.findAll_append, hskip hpad',
      findAll_cons_of_none (peerScanner_eq_none (by simp)), ih]

theorem PeersPart.peerList (h : PeersPart items (some ('[' :: text ++ [']']))) :
    PeerList items text := by
  generalize hpart : some ('[' :: text ++ [']']) = part at h
  cases h with
  | missing => simp at hpart
  | @list _ text' hlist =>
    obtain rfl : text = text' := by simpa using hpart
    exact hlist

theorem PeersPart.findAll_eq {part : Option (List Char)} (h : PeersPart items part) :
    findAll peerScanner (part.getD []) = items := by
  cases h with
  | missing => rfl
  | list hlist =>
    change findAll peerScanner ('[' :: (_ ++ [']'])) = items
    rw [findAll_cons_of_none (peerScanner_eq_none (by simp)), hlist.findAll_append (by decide)]

/-- The characters of a list of replicas. -/
theorem PeerList.not_mem (h : PeerList items text) {c : Char} (hblank : isBlank c = false)
    (hdigit : isDigit c = false) (hc : c ∉ ['(', ',', ')']) : c ∉ text := by
  -- A replica has parentheses, a comma, digits and white space only.
  have hitem {item : List Char × List Char} {taken : List Char} (h : PeerSpells item taken) :
      c ∉ taken := by
    obtain ⟨hosd, hpad, hlatency⟩ := h
    simp only [List.mem_cons, List.mem_append, not_or] at hc ⊢
    exact ⟨hc.1, hosd.not_mem hdigit, hc.2.1, hpad.not_mem hblank,
      hlatency.not_mem hdigit, hc.2.2⟩
  induction h with
  | nil hpad => exact hpad.not_mem hblank
  | last hpad htaken hpad' =>
    simp only [List.mem_append, not_or]
    exact ⟨hpad.not_mem hblank, hitem htaken, hpad'.not_mem hblank⟩
  | cons hpad htaken hpad' _ _ ih =>
    simp only [List.mem_cons, List.mem_append, not_or] at hc ⊢
    exact ⟨hpad.not_mem hblank, hitem htaken, hpad'.not_mem hblank, hc.2.1, ih⟩

/-! ### Details -/

theorem refused_detailScanner (h : ∀ c ∈ text, isWord c = false) :
    Refused detailScanner text rest := by
  rintro before after rfl hne
  obtain ⟨c, others, rfl⟩ := List.exists_cons_of_ne_nil hne
  exact detailScanner_eq_none (boundary_cons.mpr (h c (by simp)))

theorem DetailSpells.findAll_append (h : DetailSpells item taken) (hrest : Boundary isDigit rest) :
    findAll detailScanner (taken ++ rest) = item :: findAll detailScanner rest := by
  obtain ⟨hname, hgap, hvalue⟩ := h
  apply findAll_append_of_eq_some (by simp [hname.1])
  simpa using detailScanner_append hname hgap hvalue hrest

theorem findAll_detailScanner_pad (hpad : IsPad pad) (rest : List Char) :
    findAll detailScanner (pad ++ rest) = findAll detailScanner rest :=
  findAll_append_of_refused (refused_detailScanner fun c hc => not_isWord_of_isBlank (hpad c hc))

theorem boundary_isDigit_of_isSolid (h : Boundary isSolid text) : Boundary isDigit text := by
  intro c hc
  exact not_isDigit_of_isBlank (isSolid_eq_false.mp (h c hc))

theorem DetailItem.findAll_append (h : DetailItem item taken) (hrest : Boundary isSolid rest) :
    findAll detailScanner (taken ++ rest) = item :: findAll detailScanner rest := by
  have hdigit := boundary_isDigit_of_isSolid hrest
  cases h with
  | plain htaken => exact htaken.findAll_append hdigit
  | nested hpad htaken hpad' =>
    have hclose : Boundary isDigit (')' :: rest) := boundary_cons.mpr (by decide)
    simp only [List.cons_append, List.append_assoc, List.nil_append]
    rw [findAll_cons_of_none (detailScanner_eq_none (boundary_cons.mpr (by decide +kernel))),
      findAll_detailScanner_pad hpad,
      htaken.findAll_append (hpad'.boundary_append (fun _ => not_isDigit_of_isBlank) hclose),
      findAll_detailScanner_pad hpad',
      findAll_cons_of_none (detailScanner_eq_none (boundary_cons.mpr (by decide +kernel)))]

/-- The details of a list are found again. -/
theorem DetailList.findAll_eq (h : DetailList items text) : findAll detailScanner text = items := by
  induction h with
  | @nil pad hpad =>
    have := findAll_detailScanner_pad hpad []
    simpa using this
  | cons hpad hitem _ htext _ ih =>
    rw [findAll_detailScanner_pad hpad, hitem.findAll_append htext, ih]

theorem DetailsPart.findAll_eq {part : Option (List Char)} (h : DetailsPart items part) :
    findAll detailScanner (part.getD []) = items := by
  cases h with
  | missing => rfl
  | list hlist => exact hlist.findAll_eq

end Capture

end OsdLatency
