import Mathlib.Algebra.Order.BigOperators.Group.List
import Mathlib.Algebra.Order.Ring.Nat
import OsdLatency.Proofs.Binary64.TotalOrder
import OsdLatency.Summary

/-!
# Summaries of rearranged samples

The sum of samples is exact, and the percentiles are taken from the sorted samples. So the figures
of a group do not depend on the order of its samples. The deviation is left out: its squares are
summed in doubles, one after another.

## Main definitions

* `Summary.SameFigures` — two summaries agree in all figures but the deviation

## Main results

* `Percentile.map_some_pickBy` — every threshold has the sample at its rank
* `Summary.total_lt` — the sum of as many samples as a machine can count fits 128 bits
* `Summary.sameFigures_of_perm` — rearranged samples have the same figures
-/

namespace OsdLatency

theorem max_eq_ite (a b : UInt64) : max a b = if a ≤ b then b else a := rfl

/-- The greater of two samples is their least upper bound. -/
instance instLawfulOrderMaxUInt64 : Std.LawfulOrderMax UInt64 where
  max_eq_or a b := by
    rw [max_eq_ite]
    split_ifs
    · exact .inr rfl
    · exact .inl rfl
  max_le_iff a b c := by
    rw [max_eq_ite]
    split_ifs <;> simp only [UInt64.le_iff_toNat_le] at * <;> omega

namespace Percentile

variable {α : Type*} {key : α → ℕ} {samples samples' : List α}

theorem getElem?_rank (samples : List α) (hne : samples ≠ []) (threshold : Float) :
    (samples[rank threshold samples.length - 1]?).isSome := by
  have hpos : 1 ≤ samples.length := List.length_pos_iff.mpr hne
  have hle : rank threshold samples.length ≤ samples.length := Binary64.clampedCeil_le hpos _
  have hge : 1 ≤ rank threshold samples.length := Binary64.le_clampedCeil _ _ _
  rw [List.getElem?_eq_getElem (by omega)]
  rfl

/-- Every threshold has the sample at its rank. -/
theorem map_some_pickBy (key : α → ℕ) (hne : samples ≠ []) (thresholds : List Float) :
    (pickBy key samples thresholds).map some =
      thresholds.map fun p => (Binary64.sortedBy key samples)[rank p samples.length - 1]? := by
  have hlength : (Binary64.sortedBy key samples).length = samples.length :=
    Binary64.length_sortedBy _ _
  have hsorted : Binary64.sortedBy key samples ≠ [] := by
    rw [← List.length_pos_iff, hlength, List.length_pos_iff]
    exact hne
  rw [pickBy, hlength, List.map_filterMap_some_eq_filter_map_isSome, List.filter_eq_self]
  intro sample hsample
  obtain ⟨p, -, rfl⟩ := List.mem_map.mp hsample
  rw [← hlength]
  exact getElem?_rank _ hsorted p

/-- Every threshold has its percentile. -/
theorem length_pickBy (key : α → ℕ) (hne : samples ≠ []) (thresholds : List Float) :
    (pickBy key samples thresholds).length = thresholds.length := by
  rw [← List.length_map (f := some), map_some_pickBy key hne, List.length_map]

theorem pickBy_eq_of_perm (hkey : Function.Injective key) (h : samples.Perm samples')
    (thresholds : List Float) : pickBy key samples thresholds = pickBy key samples' thresholds := by
  rw [pickBy, Binary64.sortedBy_eq_of_perm hkey h]
  rfl

end Percentile

namespace Summary

variable {unit : TimeUnit} {samples samples' : List UInt64} {s : Summary}

theorem total_eq_sum (samples : List UInt64) : total samples = (samples.map UInt64.toNat).sum := by
  rw [List.sum, List.foldr_map]
  rfl

/-- The exact sum of as many samples as there are 64-bit numbers fits 128 bits. -/
theorem total_lt (h : samples.length ≤ 2 ^ 64) : total samples < 2 ^ 128 := by
  have hle : (samples.map UInt64.toNat).sum ≤ samples.length * (2 ^ 64 - 1) := by
    have hbound : ∀ v ∈ samples.map UInt64.toNat, v ≤ 2 ^ 64 - 1 := fun v hv => by
      obtain ⟨sample, -, rfl⟩ := List.mem_map.mp hv
      have := sample.toNat_lt
      omega
    simpa using List.sum_le_card_nsmul _ _ hbound
  calc
    total samples ≤ samples.length * (2 ^ 64 - 1) := total_eq_sum samples ▸ hle
    _ ≤ 2 ^ 64 * (2 ^ 64 - 1) := Nat.mul_le_mul_right _ h
    _ < 2 ^ 128 := by decide

/-- The figures of a group, one by one. -/
structure Figures (unit : TimeUnit) (samples : List UInt64) (s : Summary) : Prop where
  min : samples.min? = some s.min
  max : samples.max? = some s.max
  mean : s.mean = unit.scale (meanOf samples)
  count : s.count = samples.length
  percentiles : s.percentiles =
    Percentile.pick (samples.map fun v => unit.scale v.toFloat) Percentile.thresholds

theorem figures_of_ofSamples? (h : ofSamples? unit samples = some s) : s.Figures unit samples := by
  cases samples with
  | nil => exact absurd h nofun
  | cons first others =>
    obtain rfl := Option.some.inj h
    exact ⟨rfl, rfl, rfl, rfl, rfl⟩

/-- A group with a sample has its figures. -/
theorem exists_ofSamples? (unit : TimeUnit) (hne : samples ≠ []) :
    ∃ s, ofSamples? unit samples = some s ∧ s.Figures unit samples := by
  cases samples with
  | nil => exact absurd rfl hne
  | cons first others => exact ⟨_, rfl, figures_of_ofSamples? rfl⟩

/-- What has figures has a sample. -/
theorem Figures.ne_nil (h : s.Figures unit samples) : samples ≠ [] := by
  rintro rfl
  exact absurd h.min nofun

/-- Every threshold of a report has its percentile. -/
theorem Figures.length_percentiles (h : s.Figures unit samples) :
    s.percentiles.length = Percentile.thresholds.length := by
  rw [h.percentiles]
  exact Percentile.length_pickBy _ (List.map_eq_nil_iff.not.mpr h.ne_nil) _

/-- Two summaries agree in all figures but the deviation. -/
structure SameFigures (s t : Summary) : Prop where
  min : s.min = t.min
  max : s.max = t.max
  mean : s.mean = t.mean
  count : s.count = t.count
  percentiles : s.percentiles = t.percentiles

theorem meanOf_eq_of_perm (h : samples.Perm samples') : meanOf samples = meanOf samples' := by
  rw [meanOf, meanOf, h.length_eq, total_eq_sum, total_eq_sum, (h.map _).sum_eq]

theorem min?_eq_of_perm (h : samples.Perm samples') : samples.min? = samples'.min? := by
  ext v
  simp only [List.min?_eq_some_iff, h.mem_iff]

theorem max?_eq_of_perm (h : samples.Perm samples') : samples.max? = samples'.max? := by
  ext v
  simp only [List.max?_eq_some_iff, h.mem_iff]

theorem Figures.sameFigures {t : Summary} (hs : s.Figures unit samples)
    (ht : t.Figures unit samples') (h : samples.Perm samples') : s.SameFigures t where
  min := Option.some.inj (by rw [← hs.min, ← ht.min, min?_eq_of_perm h])
  max := Option.some.inj (by rw [← hs.max, ← ht.max, max?_eq_of_perm h])
  mean := by rw [hs.mean, ht.mean, meanOf_eq_of_perm h]
  count := by rw [hs.count, ht.count, h.length_eq]
  percentiles := by
    rw [hs.percentiles, ht.percentiles]
    exact Percentile.pickBy_eq_of_perm Binary64.key_injective (h.map _) _

/-- Rearranged samples have the same figures, or no figures either. -/
theorem sameFigures_of_perm (unit : TimeUnit) (h : samples.Perm samples') :
    Option.Rel SameFigures (ofSamples? unit samples) (ofSamples? unit samples') := by
  cases samples with
  | nil =>
    rw [← h.nil_eq]
    exact .none
  | cons first others =>
    cases samples' with
    | nil => exact absurd h.eq_nil (List.cons_ne_nil _ _)
    | cons first' others' =>
      have hs : ofSamples? unit (first :: others) = some _ := rfl
      have ht : ofSamples? unit (first' :: others') = some _ := rfl
      exact .some ((figures_of_ofSamples? hs).sameFigures (figures_of_ofSamples? ht) h)

end Summary

end OsdLatency
