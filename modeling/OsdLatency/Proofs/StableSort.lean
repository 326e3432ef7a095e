import Mathlib.Data.List.Sort

/-!
# Stable sorting

A stable sort puts a list into ascending order of keys and leaves elements with one key in the order
in which they came. A list has only one such arrangement, so elements may be dropped before the sort
or after it.

## Main definitions

* `IsStableSort` — a list in ascending order of keys, elements with one key in their given order

## Main results

* `isStableSort_mergeSort`, `IsStableSort.eq` — merge sort finds the only such arrangement
* `IsStableSort.filter` — it is kept when elements are dropped
-/

namespace OsdLatency

variable {α κ : Type*} [LinearOrder κ] {key : α → κ} {a b : α} {l l' given : List α}

/-- A list in ascending order of keys. For every key it has the elements that are given, in the order
in which they are given. -/
structure IsStableSort (key : α → κ) (sorted given : List α) : Prop where
  ascending : sorted.Pairwise fun a b => key a ≤ key b
  stable : ∀ k, sorted.filter (key · = k) = given.filter (key · = k)

theorem mem_iff_of_filter_eq (h : ∀ k, l.filter (key · = k) = l'.filter (key · = k)) :
    a ∈ l ↔ a ∈ l' := by
  have hown : ∀ l : List α, a ∈ l ↔ a ∈ l.filter (key · = key a) := fun l => by simp
  rw [hown l, hown l', h]

/-- Ascending lists that agree for every key are equal. -/
theorem eq_of_filter_eq (hl : l.Pairwise fun a b => key a ≤ key b)
    (hl' : l'.Pairwise fun a b => key a ≤ key b)
    (h : ∀ k, l.filter (key · = k) = l'.filter (key · = k)) : l = l' := by
  induction l generalizing l' with
  | nil =>
    refine (List.eq_nil_iff_forall_not_mem.mpr fun a ha => ?_).symm
    exact List.not_mem_nil ((mem_iff_of_filter_eq h).mpr ha)
  | cons a l ih =>
    cases l' with
    | nil => exact absurd ((mem_iff_of_filter_eq h).mp List.mem_cons_self) List.not_mem_nil
    | cons b l' =>
      rw [List.pairwise_cons] at hl hl'
      -- Either head lies in the other list, so neither has the smaller key.
      have hkey : key a = key b := by
        apply le_antisymm
        · rcases List.mem_cons.mp ((mem_iff_of_filter_eq h).mpr List.mem_cons_self) with rfl | hb
          · exact le_rfl
          · exact hl.1 b hb
        · rcases List.mem_cons.mp ((mem_iff_of_filter_eq h).mp List.mem_cons_self) with rfl | ha
          · exact le_rfl
          · exact hl'.1 a ha
      obtain rfl : a = b := by
        have hheads := h (key a)
        rw [List.filter_cons_of_pos (by simp), List.filter_cons_of_pos (by simp [hkey])] at hheads
        exact (List.cons.inj hheads).1
      refine congrArg (a :: ·) (ih hl.2 hl'.2 fun k => ?_)
      have hk := h k
      rw [List.filter_cons, List.filter_cons] at hk
      split_ifs at hk
      · exact (List.cons.inj hk).2
      · exact hk

namespace IsStableSort

/-- A list has one stable arrangement. -/
theorem eq (h : IsStableSort key l given) (h' : IsStableSort key l' given) : l = l' :=
  eq_of_filter_eq h.ascending h'.ascending fun k => (h.stable k).trans (h'.stable k).symm

/-- The arrangement is kept when elements are dropped. -/
theorem filter (h : IsStableSort key l given) (keep : α → Bool) :
    IsStableSort key (l.filter keep) (given.filter keep) where
  ascending := h.ascending.filter keep
  stable k := by
    have hcomm : ∀ l : List α,
        (l.filter keep).filter (key · = k) = (l.filter (key · = k)).filter keep := fun l => by
      simp only [List.filter_filter, Bool.and_comm]
    rw [hcomm, hcomm, h.stable]

/-- Of two elements with one key, the one that is given first comes first. -/
theorem sublist_given (h : IsStableSort key l given) (hkey : key a = key b)
    (hpair : [a, b].Sublist l) : [a, b].Sublist given := by
  have hfiltered := hpair.filter (key · = key b)
  rw [h.stable, List.filter_cons_of_pos (by simpa using hkey),
    List.filter_cons_of_pos (by simp), List.filter_nil] at hfiltered
  exact hfiltered.trans List.filter_sublist

end IsStableSort

/-- Merge sort is stable. -/
theorem isStableSort_mergeSort {le : α → α → Bool} (hle : ∀ a b, le a b = true ↔ key a ≤ key b)
    (l : List α) : IsStableSort key (l.mergeSort le) l := by
  have htrans : ∀ a b c, le a b = true → le b c = true → le a c = true := fun a b c hab hbc =>
    (hle a c).mpr (((hle a b).mp hab).trans ((hle b c).mp hbc))
  have htotal : ∀ a b, (le a b || le b a) = true := fun a b => by
    rw [Bool.or_eq_true, hle, hle]
    exact le_total _ _
  constructor
  · exact (List.pairwise_mergeSort htrans htotal l).imp fun hab => (hle _ _).mp hab
  · intro k
    have htied : (l.filter (key · = k)).Pairwise fun a b => le a b = true := by
      refine List.pairwise_of_forall_mem_list fun a ha b hb => (hle a b).mpr ?_
      rw [List.mem_filter, decide_eq_true_eq] at ha hb
      exact (ha.2.trans hb.2.symm).le
    -- Elements with one key are in ascending order already, so the sort keeps them as they are.
    have hkept := (List.sublist_mergeSort htrans htotal htied List.filter_sublist).filter
      (key · = k)
    simp only [List.filter_filter, Bool.and_self] at hkept
    exact (hkept.eq_of_length ((List.mergeSort_perm l le).filter _).length_eq.symm).symm

end OsdLatency
