import Mathlib.Tactic.Common
import OsdLatency.Proofs.Text.Scanning

/-!
# The maximal runs of a text

A search for runs of a class of characters finds the maximal runs of a text: those that go no
further on either side. It finds them from left to right.

## Main definitions

* `IsMaximalRun` — a run that goes no further in a text
* `HasRuns` — all maximal runs of a text in their order

## Main results

* `Scanner.mem_findAll_run_iff` — the search finds the maximal runs, and nothing else
* `hasRuns_iff` — it finds them in their order, each as often as it stands in the text
-/

namespace OsdLatency.Text

variable {p : Char → Bool} {c : Char} {text taken left found gap : List Char}
  {runs : List (List Char)}

/-- A run of a class of characters that goes no further in a text on either side. -/
def IsMaximalRun (p : Char → Bool) (found text : List Char) : Prop :=
  IsRun p found ∧
    ∃ front rest, text = front ++ (found ++ rest) ∧ Boundary p front.reverse ∧ Boundary p rest

/-- Only the last characters of a text decide what it ends with. -/
theorem boundary_reverse_append {first second : List Char} (h : second ≠ []) :
    Boundary p (first ++ second).reverse ↔ Boundary p second.reverse := by
  obtain ⟨c, others, hcons⟩ := List.exists_cons_of_ne_nil (List.reverse_ne_nil_iff.mpr h)
  rw [List.reverse_append, hcons, List.cons_append, boundary_cons, boundary_cons]

theorem IsRun.not_boundary_append (h : IsRun p found) (rest : List Char) :
    ¬Boundary p (found ++ rest) := by
  obtain ⟨c, others, rfl⟩ := List.exists_cons_of_ne_nil h.1
  rw [List.cons_append, boundary_cons, h.2 c List.mem_cons_self]
  exact Bool.noConfusion

/-- Nothing of a run ends at a boundary but its empty front. -/
theorem IsRun.eq_nil_of_boundary (h : IsRun p (text ++ left)) (hboundary : Boundary p text.reverse) :
    text = [] := by
  by_contra hne
  have hrun : IsRun p text.reverse :=
    ⟨List.reverse_ne_nil_iff.mpr hne, fun c hc => h.2 c (by simp_all)⟩
  rw [← List.append_nil text.reverse] at hboundary
  exact hrun.not_boundary_append [] hboundary

theorem not_isMaximalRun_nil : ¬IsMaximalRun p found [] := by
  rintro ⟨hrun, front, rest, htext, -⟩
  have hnil := (List.append_eq_nil_iff.mp htext.symm).2
  exact hrun.1 (List.append_eq_nil_iff.mp hnil).1

/-- A character of another class in front belongs to no run. -/
theorem isMaximalRun_cons (hc : p c = false) :
    IsMaximalRun p found (c :: text) ↔ IsMaximalRun p found text := by
  refine and_congr_right fun hrun => ?_
  constructor
  · rintro ⟨front, rest, htext, hfront, hrest⟩
    cases front with
    | nil =>
      have hboundary : Boundary p (found ++ rest) := by
        rw [← List.nil_append (found ++ rest), ← htext, boundary_cons, hc]
      exact absurd hboundary (hrun.not_boundary_append rest)
    | cons d front =>
      refine ⟨front, rest, (List.cons.inj htext).2, ?_, hrest⟩
      by_cases hne : front = []
      · rw [hne]
        exact boundary_nil
      · rw [← List.singleton_append] at hfront
        exact (boundary_reverse_append hne).mp hfront
  · rintro ⟨front, rest, rfl, hfront, hrest⟩
    refine ⟨c :: front, rest, rfl, ?_, hrest⟩
    by_cases hne : front = []
    · rw [hne]
      exact boundary_cons.mpr hc
    · rw [← List.singleton_append]
      exact (boundary_reverse_append hne).mpr hfront

/-- The run in front is one of the maximal runs, and the others stand behind it. -/
theorem isMaximalRun_append (htaken : IsRun p taken) (hleft : Boundary p left) :
    IsMaximalRun p found (taken ++ left) ↔ found = taken ∨ IsMaximalRun p found left := by
  constructor
  · rintro ⟨hrun, front, rest, htext, hfront, hrest⟩
    rcases List.append_eq_append_iff.mp htext with ⟨others, rfl, hothers⟩ | ⟨others, rfl, hothers⟩
    · right
      refine ⟨hrun, others, rest, hothers, ?_, hrest⟩
      by_cases hne : others = []
      · rw [hne]
        exact boundary_nil
      · exact (boundary_reverse_append hne).mp hfront
    · left
      obtain rfl := htaken.eq_nil_of_boundary hfront
      rw [List.nil_append] at htaken ⊢
      have hscan := Scanner.run_append hrun hrest
      rw [hothers, Scanner.run_append htaken hleft] at hscan
      exact (Prod.mk.inj (Option.some.inj hscan)).1.symm
  · rintro (rfl | ⟨hrun, front, rest, rfl, hfront, hrest⟩)
    · exact ⟨htaken, [], left, rfl, boundary_nil, hleft⟩
    · refine ⟨hrun, taken ++ front, rest, by rw [List.append_assoc], ?_, hrest⟩
      by_cases hne : front = []
      · rw [hne, List.nil_append] at hleft
        exact absurd hleft (hrun.not_boundary_append rest)
      · exact (boundary_reverse_append hne).mpr hfront

/-- The search for runs finds the maximal runs of a text, and nothing else. -/
theorem Scanner.mem_findAll_run_iff :
    found ∈ findAll (run p) text ↔ IsMaximalRun p found text := by
  -- The search goes on behind a run, so the induction is on the length of the text.
  induction hlength : text.length using Nat.strong_induction_on generalizing text with
  | _ n ih =>
    cases text with
    | nil => exact iff_of_false List.not_mem_nil not_isMaximalRun_nil
    | cons c rest =>
      by_cases hc : p c = true
      · obtain ⟨⟨taken, left⟩, hscan⟩ : ∃ result, run p (c :: rest) = some result := by
          refine Option.ne_none_iff_exists'.mp fun hnone => ?_
          simp [run, hc] at hnone
        obtain ⟨htext, htaken, hleft⟩ := run_eq_some_iff.mp hscan
        have hshorter : left.length < n := by
          have hpos := List.length_pos_iff.mpr htaken.1
          have := congrArg List.length htext
          rw [List.length_append] at this
          omega
        rw [htext, findAll_append_of_eq_some htaken.1 (run_append htaken hleft), List.mem_cons,
          isMaximalRun_append htaken hleft, ih _ hshorter rfl]
      · rw [Bool.not_eq_true] at hc
        rw [findAll_cons_of_none (run_eq_none (boundary_cons.mpr hc)), isMaximalRun_cons hc]
        exact ih rest.length (by simp [← hlength]) rfl

/-! ### Runs in their order -/

/-- The maximal runs of a class of characters in a text, from left to right. In front of them,
between them and behind them stand characters of other classes only. -/
inductive HasRuns (p : Char → Bool) : List Char → List (List Char) → Prop
  | nil {gap : List Char} : (∀ c ∈ gap, p c = false) → HasRuns p gap []
  | cons (gap : List Char) {run rest : List Char} {runs : List (List Char)} :
      (∀ c ∈ gap, p c = false) → IsRun p run → Boundary p rest → HasRuns p rest runs →
      HasRuns p (gap ++ (run ++ rest)) (run :: runs)

/-- A character of another class in front of a text belongs to a gap. -/
theorem HasRuns.cons_char (h : HasRuns p text runs) (hc : p c = false) :
    HasRuns p (c :: text) runs := by
  cases h with
  | nil hgap => exact .nil (List.forall_mem_cons.mpr ⟨hc, hgap⟩)
  | cons gap hgap hrun hrest h =>
    exact .cons (c :: gap) (List.forall_mem_cons.mpr ⟨hc, hgap⟩) hrun hrest h

/-- Every text has its runs. -/
theorem exists_hasRuns (p : Char → Bool) (text : List Char) : ∃ runs, HasRuns p text runs := by
  induction text with
  | nil => exact ⟨[], .nil (List.forall_mem_nil _)⟩
  | cons c text ih =>
    obtain ⟨runs, h⟩ := ih
    by_cases hc : p c = true
    · have hsingle : IsRun p [c] := ⟨List.cons_ne_nil _ _, List.forall_mem_singleton.mpr hc⟩
      -- The character goes on with a run that begins behind it, or is a run of its own.
      cases h with
      | nil hgap =>
        have hboundary : Boundary p text := fun d hd => hgap d (List.mem_of_mem_head? hd)
        exact ⟨_, .cons [] (List.forall_mem_nil _) hsingle hboundary (.nil hgap)⟩
      | @cons gap run rest _ hgap hrun hrest h =>
        cases gap with
        | nil =>
          have hlonger : IsRun p (c :: run) :=
            ⟨List.cons_ne_nil _ _, List.forall_mem_cons.mpr ⟨hc, hrun.2⟩⟩
          exact ⟨_, .cons [] (List.forall_mem_nil _) hlonger hrest h⟩
        | cons d gap =>
          have hboundary : Boundary p (d :: gap ++ (run ++ rest)) :=
            boundary_cons.mpr (hgap d List.mem_cons_self)
          exact ⟨_, .cons [] (List.forall_mem_nil _) hsingle hboundary
            (.cons _ hgap hrun hrest h)⟩
    · exact ⟨runs, h.cons_char (Bool.eq_false_iff.mpr hc)⟩

theorem Scanner.findAll_run_append (hgap : ∀ c ∈ gap, p c = false) (text : List Char) :
    findAll (run p) (gap ++ text) = findAll (run p) text := by
  induction gap with
  | nil => rfl
  | cons c gap ih =>
    rw [List.forall_mem_cons] at hgap
    rw [List.cons_append, findAll_cons_of_none (run_eq_none (boundary_cons.mpr hgap.1)),
      ih hgap.2]

theorem HasRuns.findAll_eq (h : HasRuns p text runs) :
    Scanner.findAll (Scanner.run p) text = runs := by
  induction h with
  | @nil gap hgap =>
    have := Scanner.findAll_run_append hgap []
    rwa [List.append_nil] at this
  | cons _ hgap hrun hrest _ ih =>
    rw [Scanner.findAll_run_append hgap,
      Scanner.findAll_append_of_eq_some hrun.1 (Scanner.run_append hrun hrest), ih]

/-- The search for runs finds all runs of a text in their order. -/
theorem hasRuns_iff : HasRuns p text runs ↔ Scanner.findAll (Scanner.run p) text = runs := by
  refine ⟨HasRuns.findAll_eq, ?_⟩
  rintro rfl
  obtain ⟨runs, h⟩ := exists_hasRuns p text
  rwa [h.findAll_eq]

end OsdLatency.Text
