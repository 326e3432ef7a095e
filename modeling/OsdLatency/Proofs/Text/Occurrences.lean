import OsdLatency.Proofs.Text.Scanning

/-!
# The items of a text

A search for all items takes the longest one at the first place where one stands, and goes on behind
it. This describes the list that is found without the scanner, and the scanner finds that list.

## Main definitions

* `Finds` — the items of a text from left to right
* `Scanner.TakesLongest` — a scanner that takes the longest item at the front of a text

## Main results

* `Scanner.TakesLongest.finds_iff` — the search finds the items of a text, and nothing else
-/

namespace OsdLatency.Text

variable {α : Type} {Item : α → List Char → Prop} {item : α} {items : List α} {c : Char}
  {text rest : List Char}

/-- The items of a text from left to right. The first one begins where none begins further to the
left, it is the longest that begins there, and the others are those of the text behind it. -/
inductive Finds (Item : α → List Char → Prop) : List Char → List α → Prop
  | nil {text : List Char} :
      (∀ before taken after item, text = before ++ (taken ++ after) → ¬ Item item taken) →
      Finds Item text []
  | cons {before taken after : List Char} {item : α} {items : List α} :
      Item item taken →
      (∀ before' taken' after' item', before ++ (taken ++ after) = before' ++ (taken' ++ after') →
        Item item' taken' → before.length < before'.length ∨
          before.length = before'.length ∧ taken'.length ≤ taken.length) →
      Finds Item after items → Finds Item (before ++ (taken ++ after)) (item :: items)

theorem Finds.exists_item (h : Finds Item text items) : ∀ item ∈ items, ∃ taken, Item item taken := by
  induction h with
  | nil => simp
  | cons hitem _ _ ih => exact List.forall_mem_cons.mpr ⟨⟨_, hitem⟩, ih⟩

/-- A character in front of a text at which no item begins adds none. -/
theorem Finds.cons_char (h : Finds Item rest items)
    (hnone : ∀ taken after item, c :: rest = taken ++ after → ¬ Item item taken) :
    Finds Item (c :: rest) items := by
  cases h with
  | nil hrest =>
    refine .nil ?_
    intro before taken after item h
    cases before with
    | nil => exact hnone taken after item h
    | cons d before => exact hrest before taken after item (List.cons.inj h).2
  | @cons before taken after item items hitem hfirst hafter =>
    refine @Finds.cons _ Item (c :: before) taken after item items hitem ?_ hafter
    intro before' taken' after' item' h hitem'
    -- Every place of the longer text but its first one is a place of `rest`.
    cases before' with
    | nil => exact absurd hitem' (hnone taken' after' item' h)
    | cons d before' =>
      have := hfirst before' taken' after' item' (List.cons.inj h).2 hitem'
      simpa using this

namespace Scanner

/-- The scanner takes the longest item at the front of a text, and no item is empty. -/
structure TakesLongest (scanner : Scanner α) (Item : α → List Char → Prop) : Prop where
  sound : ∀ {input rest item}, scanner input = some (item, rest) →
    ∃ taken, taken ≠ [] ∧ Item item taken ∧ input = taken ++ rest
  complete : ∀ {item taken} rest, Item item taken →
    ∃ item' rest', scanner (taken ++ rest) = some (item', rest') ∧
      (item' = item ∧ rest' = rest ∨ rest'.length < rest.length)

variable {scanner : Scanner α}

/-- Where the scanner refuses a text, no item begins. -/
theorem TakesLongest.not_item (hscanner : scanner.TakesLongest Item) (h : scanner text = none)
    {taken after : List Char} (htext : text = taken ++ after) : ¬ Item item taken := by
  rintro hitem
  obtain ⟨item', rest', hsome, -⟩ := hscanner.complete after hitem
  rw [htext, hsome] at h
  simp at h

/-- What the search finds are the items of the text. -/
theorem TakesLongest.finds (hscanner : scanner.TakesLongest Item) (text : List Char) :
    Finds Item text (findAll scanner text) := by
  -- The search goes on behind what it took, so the induction is on the length of the text.
  induction hlength : text.length using Nat.strong_induction_on generalizing text with
  | _ n ih =>
    cases text with
    | nil =>
      refine .nil ?_
      intro before taken after item h hitem
      obtain ⟨rfl, rfl, rfl⟩ : before = [] ∧ taken = [] ∧ after = [] := by simpa using h
      obtain ⟨item', rest', hsome, -⟩ := hscanner.complete [] hitem
      obtain ⟨taken', hne, -, htaken'⟩ := hscanner.sound hsome
      exact hne (List.append_eq_nil_iff.mp htaken'.symm).1
    | cons c rest =>
      cases hhere : scanner (c :: rest) with
      | none =>
        rw [findAll_cons_of_none hhere]
        have hrest := ih rest.length (by simp [← hlength]) rest rfl
        exact hrest.cons_char fun _ _ _ => hscanner.not_item hhere
      | some result =>
        obtain ⟨item, left⟩ := result
        obtain ⟨taken, hne, hitem, htaken⟩ := hscanner.sound hhere
        obtain ⟨d, others, rfl⟩ := List.exists_cons_of_ne_nil hne
        obtain ⟨rfl, rfl⟩ : c = d ∧ rest = others ++ left := by simpa using htaken
        rw [findAll_cons_of_some hhere rfl]
        have hshorter : left.length < n := by
          rw [← hlength, List.length_cons, List.length_append]
          omega
        have hleft := ih left.length hshorter left rfl
        refine @Finds.cons _ Item [] (c :: others) left item _ hitem ?_ hleft
        intro before' taken' after' item' h hitem'
        cases before' with
        | cons => simp
        | nil =>
          -- An item at the same place is no longer than the one the scanner takes.
          refine Or.inr ⟨rfl, ?_⟩
          have heq : c :: (others ++ left) = taken' ++ after' := by simpa using h
          obtain ⟨item'', rest'', hsome, hle⟩ := hscanner.complete after' hitem'
          rw [← heq, hhere] at hsome
          obtain ⟨rfl, rfl⟩ := Prod.mk.inj (Option.some.inj hsome)
          have := congrArg List.length heq
          simp only [List.length_cons, List.length_append] at this
          rcases hle with ⟨-, rfl⟩ | hlt
          · simp; omega
          · simp; omega

/-- Where the text has no item, the search finds none. -/
theorem TakesLongest.findAll_eq_nil (hscanner : scanner.TakesLongest Item)
    (hnone : ∀ before taken after item, text = before ++ (taken ++ after) → ¬ Item item taken) :
    findAll scanner text = [] := by
  induction text with
  | nil => rfl
  | cons c rest ih =>
    -- An item that the scanner takes is an item of the text.
    have hhere : scanner (c :: rest) = none := by
      by_contra hne
      obtain ⟨⟨item, left⟩, hsome⟩ := Option.ne_none_iff_exists'.mp hne
      obtain ⟨taken, -, hitem, htaken⟩ := hscanner.sound hsome
      exact hnone [] taken left item htaken hitem
    rw [findAll_cons_of_none hhere]
    refine ih fun before taken after item h => hnone (c :: before) taken after item ?_
    rw [h, List.cons_append]

/-- The first item that the search finds is the longest one at the first place that has one. -/
theorem TakesLongest.findAll_eq_cons (hscanner : scanner.TakesLongest Item)
    {before taken after : List Char} (hitem : Item item taken)
    (hfirst : ∀ before' taken' after' item',
      before ++ (taken ++ after) = before' ++ (taken' ++ after') → Item item' taken' →
        before.length < before'.length ∨
          before.length = before'.length ∧ taken'.length ≤ taken.length) :
    findAll scanner (before ++ (taken ++ after)) = item :: findAll scanner after := by
  induction before with
  | nil =>
    obtain ⟨item', rest', hsome, hle⟩ := hscanner.complete after hitem
    obtain ⟨taken', hne, hitem', htaken'⟩ := hscanner.sound hsome
    have hlength := congrArg List.length htaken'
    simp only [List.length_append] at hlength
    -- The scanner takes no more than the item that is the longest one here.
    have hshort : taken'.length ≤ taken.length := by
      rcases hfirst [] taken' rest' item' htaken' hitem' with hlt | ⟨-, hle'⟩
      · simp at hlt
      · exact hle'
    obtain ⟨rfl, rfl⟩ : item' = item ∧ rest' = after := by
      rcases hle with heq | hlt
      · exact heq
      · omega
    obtain ⟨d, others, rfl⟩ := List.exists_cons_of_ne_nil hne
    obtain rfl : taken = d :: others := List.append_cancel_right htaken'
    rw [List.nil_append, List.cons_append]
    exact findAll_cons_of_some hsome rfl
  | cons c before ih =>
    -- An item here would begin in front of the first place.
    have hhere : scanner (c :: (before ++ (taken ++ after))) = none := by
      by_contra hne
      obtain ⟨⟨item', left⟩, hsome⟩ := Option.ne_none_iff_exists'.mp hne
      obtain ⟨taken', -, hitem', htaken'⟩ := hscanner.sound hsome
      rcases hfirst [] taken' left item' htaken' hitem' with hlt | ⟨heq, -⟩
      · simp at hlt
      · simp at heq
    rw [List.cons_append, findAll_cons_of_none hhere]
    apply ih
    intro before' taken' after' item' h hitem'
    have hline : c :: before ++ (taken ++ after) = c :: before' ++ (taken' ++ after') := by
      rw [List.cons_append, h, List.cons_append]
    simpa using hfirst (c :: before') taken' after' item' hline hitem'

/-- The search finds the items of a text, and nothing else. -/
theorem TakesLongest.finds_iff (hscanner : scanner.TakesLongest Item) :
    Finds Item text items ↔ findAll scanner text = items := by
  refine ⟨fun h => ?_, fun h => h ▸ hscanner.finds text⟩
  induction h with
  | nil hnone => exact hscanner.findAll_eq_nil hnone
  | cons hitem hfirst _ ih => rw [hscanner.findAll_eq_cons hitem hfirst, ih]

end Scanner

end OsdLatency.Text
