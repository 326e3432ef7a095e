import OsdLatency.Proofs.Binary64.Patterns
import OsdLatency.Proofs.Share.Mean
import OsdLatency.Proofs.StableSort

/-!
# The ranking of a group

The mean shares of a group are sorted by the total order of doubles, the greatest first. Means hold
numbers, so this is the order of the numbers, and only equal means share a place. Among those the
order of the trace line decides, which leaves a single list that ranks a group.

## Main definitions

* `FieldShare.Before` — a share is ranked before another one
* `IsRanking` — a list ranks the components of a group

## Main results

* `pairwise_rankedShares` — greater shares come first, equal ones in the order of the trace line
* `isRanking_iff` — a group has one ranking
-/

namespace OsdLatency

open Binary64

variable {records group : List Record} {shares : List FieldShare} {s t : FieldShare}

/-- The place of a field in the trace line. -/
def LatencyField.place (field : LatencyField) : ℕ := everywhere.idxOf field

/-- A share is ranked before another one: it is greater, or it is equal and its field comes first in
the trace line. -/
def FieldShare.Before (s t : FieldShare) : Prop :=
  t.percent < s.percent ∨ t.percent = s.percent ∧ s.field.place < t.field.place

/-- A list ranks the components of a group by their mean shares. -/
structure IsRanking (group : List Record) (shares : List FieldShare) : Prop where
  /-- Every component stands in the list once. -/
  fields : (shares.map FieldShare.field).Perm (Component.all.map .component)
  /-- A mean is the sum of the shares, taken in the order of the trace, by their number. -/
  percent : ∀ s ∈ shares, ∃ c, s.field = .component c ∧
    s.percent = (group.map fun r => share (r.component c) r.final).foldl (· + ·) 0.0 /
      Binary64.ofNat group.length
  finite : ∀ s ∈ shares, s.percent.isFinite = true
  ranked : shares.Pairwise FieldShare.Before

/-! ### Shares in the order of the trace line -/

/-- The mean share of a field. Only components have one. -/
def fieldShareOf (group : List Record) (field : LatencyField) : FieldShare where
  field := field
  percent := match field with
    | .component c => meanShare c group
    | _ => 0.0

/-- The mean shares of a group in the order of the trace line. -/
def lineShares (group : List Record) : List FieldShare :=
  (Component.all.map .component).map (fieldShareOf group)

theorem isStableSort_rankedShares (group : List Record) :
    IsStableSort (fun s : FieldShare => OrderDual.toDual (key s.percent)) (rankedShares group)
      (lineShares group) := by
  rw [rankedShares, largestFirst, lineShares, List.map_map]
  refine isStableSort_mergeSort (fun s t => ?_) _
  rw [decide_eq_true_eq, OrderDual.toDual_le_toDual]

theorem perm_rankedShares (group : List Record) : (rankedShares group).Perm (lineShares group) := by
  rw [rankedShares, largestFirst, lineShares, List.map_map]
  exact List.mergeSort_perm _ _

/-- Ranking the means of a group keeps all of them. -/
theorem mem_rankedShares :
    s ∈ rankedShares group ↔
      ∃ component, s = ⟨.component component, meanShare component group⟩ := by
  rw [rankedShares, largestFirst, List.mem_mergeSort, List.mem_map]
  constructor
  · rintro ⟨component, -, rfl⟩
    exact ⟨component, rfl⟩
  · rintro ⟨component, rfl⟩
    exact ⟨component, component.mem_all, rfl⟩

theorem exists_hasValue_of_mem (h : ∀ r ∈ group, r.hasShares = true) (hne : group ≠ [])
    (hs : s ∈ rankedShares group) : ∃ q, HasValue s.percent q := by
  obtain ⟨component, rfl⟩ := mem_rankedShares.mp hs
  exact ⟨_, hasValue_meanShare h hne⟩

theorem pairwise_place_lineShares (group : List Record) :
    (lineShares group).Pairwise fun s t => s.field.place < t.field.place := by
  have hline : (Component.all.map LatencyField.component).Pairwise
      fun f g => f.place < g.place := by
    decide
  exact List.pairwise_map.mpr hline

/-! ### The order of the ranking -/

/-- Greater shares come first, equal ones in the order of the trace line. -/
theorem pairwise_rankedShares (h : ∀ r ∈ group, r.hasShares = true) (hne : group ≠ []) :
    (rankedShares group).Pairwise FieldShare.Before := by
  have hsorted := isStableSort_rankedShares group
  refine List.pairwise_iff_forall_sublist.mpr fun {s t} hpair => ?_
  obtain ⟨q, hq⟩ := exists_hasValue_of_mem h hne (hpair.subset List.mem_cons_self)
  obtain ⟨r, hr⟩ := exists_hasValue_of_mem h hne
    (hpair.subset (List.mem_cons_of_mem _ List.mem_cons_self))
  have hkey : key t.percent ≤ key s.percent :=
    List.pairwise_iff_forall_sublist.mp hsorted.ascending hpair
  rcases ((hr.key_le_iff hq).mp hkey).lt_or_eq with hlt | rfl
  · exact Or.inl ((hr.lt_iff hq).mpr hlt)
  · have heq := (hr.eq_iff hq).mpr rfl
    have hgiven := hsorted.sublist_given (by rw [heq]) hpair
    exact Or.inr ⟨heq, List.pairwise_iff_forall_sublist.mp (pairwise_place_lineShares group) hgiven⟩

/-- Of two shares that hold numbers only one is before the other. -/
theorem FieldShare.Before.not_before (hst : s.Before t) {q r : ℚ} (hs : HasValue s.percent q)
    (ht : HasValue t.percent r) : ¬t.Before s := by
  rw [Before, ht.lt_iff hs, ht.eq_iff hs] at hst
  rw [Before, hs.lt_iff ht, hs.eq_iff ht]
  rintro (hlt | ⟨rfl, hplace⟩)
  · rcases hst with hgt | ⟨rfl, -⟩
    · exact hlt.not_gt hgt
    · exact hlt.false
  · rcases hst with hgt | ⟨-, hplace'⟩
    · exact hgt.false
    · exact hplace.not_gt hplace'

/-! ### One ranking -/

theorem map_field_lineShares (group : List Record) :
    (lineShares group).map FieldShare.field = Component.all.map .component := by
  rw [lineShares, List.map_map]
  exact List.map_id _

theorem isRanking_rankedShares (h : ∀ r ∈ group, r.hasShares = true) (hne : group ≠ []) :
    IsRanking group (rankedShares group) where
  fields := by
    rw [← map_field_lineShares group]
    exact (perm_rankedShares group).map _
  percent s hs := by
    obtain ⟨component, rfl⟩ := mem_rankedShares.mp hs
    exact ⟨component, rfl, by rw [List.foldl_map]; rfl⟩
  finite s hs := by
    obtain ⟨q, hq⟩ := exists_hasValue_of_mem h hne hs
    exact hq.isFinite
  ranked := pairwise_rankedShares h hne

/-- A ranking has the mean share of every component. -/
theorem IsRanking.perm (h : IsRanking group shares) : shares.Perm (lineShares group) := by
  have hown : ∀ s ∈ shares, fieldShareOf group s.field = s := fun s hs => by
    obtain ⟨component, hfield, hpercent⟩ := h.percent s hs
    rw [List.foldl_map] at hpercent
    obtain ⟨field, percent⟩ := s
    obtain rfl : field = _ := hfield
    exact congrArg _ hpercent.symm
  have hmap := h.fields.map (fieldShareOf group)
  rwa [map_map_eq_self hown] at hmap

/-- A group has one ranking. -/
theorem isRanking_iff (h : ∀ r ∈ group, r.hasShares = true) (hne : group ≠ []) :
    IsRanking group shares ↔ shares = rankedShares group := by
  constructor
  · intro hranking
    have hperm := hranking.perm.trans (perm_rankedShares group).symm
    refine hperm.eq_of_pairwise (fun s t hs ht hst hts => ?_) hranking.ranked
      (pairwise_rankedShares h hne)
    obtain ⟨q, hq⟩ := exists_hasValue_of_mem h hne (hperm.mem_iff.mp hs)
    obtain ⟨r, hr⟩ := exists_hasValue_of_mem h hne ht
    exact absurd hts (hst.not_before hq hr)
  · rintro rfl
    exact isRanking_rankedShares h hne

end OsdLatency
