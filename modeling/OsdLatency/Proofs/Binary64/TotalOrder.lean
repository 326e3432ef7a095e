import OsdLatency.Binary64.TotalOrder
import OsdLatency.Proofs.StableSort

/-!
# Sorting doubles

Doubles with one key are the same pattern. So a list of doubles has one ascending order only,
whatever order it is sorted from.

## Main results

* `key_injective` — doubles in the same place are equal
* `sortedBy_eq_of_perm` — rearranged lists are sorted alike
* `sortedBy_map` — a function that keeps the order may be applied before or after sorting
-/

namespace OsdLatency.Binary64

theorem key_injective : Function.Injective key := by
  rintro ⟨bits, _⟩ ⟨bits', _⟩ h
  have hbits : bits = bits' := orderKey_injective h
  subst hbits
  rfl

variable {α : Type*} {key : α → ℕ} {values values' : List α}

theorem sortedBy_perm (key : α → ℕ) (values : List α) : (sortedBy key values).Perm values :=
  List.mergeSort_perm _ _

theorem pairwise_sortedBy (key : α → ℕ) (values : List α) :
    (sortedBy key values).Pairwise fun a b => key a ≤ key b := by
  have hsorted : IsStableSort key (sortedBy key values) values :=
    isStableSort_mergeSort (fun _ _ => decide_eq_true_iff) values
  exact hsorted.ascending

/-- Where no two values share a key, the order of a list does not matter. -/
theorem sortedBy_eq_of_perm (hkey : Function.Injective key) (h : values.Perm values') :
    sortedBy key values = sortedBy key values' := by
  have hperm : (sortedBy key values).Perm (sortedBy key values') :=
    (sortedBy_perm key values).trans (h.trans (sortedBy_perm key values').symm)
  exact hperm.eq_of_pairwise (fun a b _ _ hab hba => hkey (Nat.le_antisymm hab hba))
    (pairwise_sortedBy key values) (pairwise_sortedBy key values')

/-- Values are sorted before or after a function that keeps their order. Values that it makes alike
are the same there, so that it does not matter how the ties are broken. -/
theorem sortedBy_map {β : Type*} {key' : β → ℕ} (hkey' : Function.Injective key') {f : α → β}
    (hf : ∀ a ∈ values, ∀ b ∈ values, key a ≤ key b → key' (f a) ≤ key' (f b)) :
    sortedBy key' (values.map f) = (sortedBy key values).map f := by
  have hperm : (sortedBy key' (values.map f)).Perm ((sortedBy key values).map f) :=
    (sortedBy_perm key' _).trans ((sortedBy_perm key values).symm.map f)
  have hsorted : ((sortedBy key values).map f).Pairwise fun a b => key' a ≤ key' b :=
    List.pairwise_map.mpr ((pairwise_sortedBy key values).imp_of_mem fun ha hb hab =>
      hf _ (mem_sortedBy.mp ha) _ (mem_sortedBy.mp hb) hab)
  exact hperm.eq_of_pairwise (fun a b _ _ hab hba => hkey' (Nat.le_antisymm hab hba))
    (pairwise_sortedBy key' _) hsorted

end OsdLatency.Binary64
