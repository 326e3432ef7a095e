import OsdLatency.Proofs.Percentiles.Scaling

/-!
# Percentiles are samples in order

The rank of a threshold is brought into the range of ranks, whatever double the threshold is, so
that there is a sample at it. What is not a number, and whatever does not lie above zero, has the
first rank. Above zero the quotient by a hundred, the product by the count and the ceiling all keep
the order of thresholds, and an infinite threshold has the last rank. So greater thresholds have no
lower samples.

## Main definitions

* `Percentile.PicksInOrder` — what the percentiles of samples are
* `Summary.PercentilesInOrder` — the percentiles of a report ascend between the extremes

## Main results

* `Percentile.rank_mono` — greater thresholds have no lower ranks
* `Percentile.picksInOrder_pickBy` — percentiles are samples in order
* `percentiles_inOrder` — for patterns of any kind, and for the percentiles of a report
-/

namespace OsdLatency

open Binary64

variable {unit : TimeUnit} {samples : List UInt64} {s : Summary}

namespace Percentile

variable {α : Type*} {key : α → ℕ} {samples : List α} {thresholds : List Float} {p q : Float}
  {v w : α} {count : ℕ}

/-! ### Ranks -/

theorem one_le_rank (p : Float) (count : ℕ) : 1 ≤ rank p count := le_clampedCeil _ _ _

theorem rank_le (hpos : 0 < count) (p : Float) : rank p count ≤ count := clampedCeil_le hpos _

theorem isAbove_hundred : IsAbove (100.0 : Float).toModel.unpack :=
  hasValue_hundred.isAbove_iff.mpr (by norm_num)

/-- What does not lie above zero has the first rank. -/
theorem rank_eq_one (hpos : 0 < count) (h : ¬IsAbove p.toModel.unpack) : rank p count = 1 := by
  by_contra hne
  have hproduct := (isAbove_of_clampedCeil_ne hne).of_unpack_pack
  have hquotient := (hproduct.of_mul (isAbove_ofNat hpos)).of_unpack_pack
  exact h (hquotient.of_div isAbove_hundred)

/-- An infinite threshold has the last rank. -/
theorem rank_of_infinity (hpos : 0 < count) (h : p.toModel.unpack = .infinity .positive) :
    rank p count = count := by
  have hquotient : (p / 100.0).toModel.unpack = .infinity .positive :=
    hasValue_hundred.infinity_div (by norm_num) h
  have hproduct : (p / 100.0 * ofNat count).toModel.unpack = .infinity .positive := by
    change (Float.Model.pack (Float.Model.UnpackedFloat.mul .binary64 _ _)).unpack = _
    rw [hquotient, (isAbove_ofNat hpos).infinity_mul, unpack_pack_infinity]
  rw [rank, clampedCeil_of_infinity hproduct, max_eq_right hpos]

/-- Greater thresholds have no lower ranks. -/
theorem rank_mono (hpos : 0 < count) (h : p ≤ q) : rank p count ≤ rank q count := by
  -- Above zero a threshold holds a number or is infinite, and everywhere else its rank is the first.
  by_cases habove : IsAbove p.toModel.unpack
  · rcases habove.exists_hasValue with ⟨a, -, hp⟩ | hinfinite
    · rcases (habove.of_le h).exists_hasValue with ⟨b, -, hq⟩ | hinfinite
      · have hab : a ≤ b := (hp.le_iff hq).mp h
        refine HasValue.clampedCeil_mul_mono (hp.div_of_one_le hasValue_hundred (by norm_num))
          (hq.div_of_one_le hasValue_hundred (by norm_num)) ?_ hpos count
        exact rounded_mono (div_nonneg hp.nonneg (by norm_num))
          (div_le_div_of_nonneg_right hab (by norm_num))
      · rw [rank_of_infinity hpos hinfinite]
        exact rank_le hpos p
    · rw [rank_of_infinity hpos hinfinite, rank_of_infinity hpos (infinite_of_le h hinfinite)]
  · rw [rank_eq_one hpos habove]
    exact one_le_rank q count

/-! ### Samples at ranks -/

/-- What the percentiles of samples are: every threshold has a rank among the samples, and the
sample at that rank in ascending order. A greater threshold has no lower sample. -/
structure PicksInOrder (key : α → ℕ) (thresholds : List Float) (samples values : List α) :
    Prop where
  ranks : ∀ p ∈ thresholds, 1 ≤ rank p samples.length ∧ rank p samples.length ≤ samples.length
  length : values.length = thresholds.length
  picked : values.map some =
    thresholds.map fun p => (sortedBy key samples)[rank p samples.length - 1]?
  mem : ∀ v ∈ values, v ∈ samples
  mono : ∀ a ∈ thresholds.zip values, ∀ b ∈ thresholds.zip values,
    a.1 ≤ b.1 → key a.2 ≤ key b.2

/-- The sample that stands beside a threshold is the one at its rank. -/
theorem getElem?_of_mem_zip (hne : samples ≠ [])
    (h : (p, v) ∈ thresholds.zip (pickBy key samples thresholds)) :
    (sortedBy key samples)[rank p samples.length - 1]? = some v := by
  have hpicked : List.Forall₂ (fun v p => some v =
      (sortedBy key samples)[rank p samples.length - 1]?) (pickBy key samples thresholds)
      thresholds := by
    have heq := map_some_pickBy key hne thresholds
    rwa [← List.forall₂_eq_eq_eq, List.forall₂_map_left_iff, List.forall₂_map_right_iff] at heq
  exact ((List.forall₂_iff_zip.mp hpicked.flip).2 h).symm

/-- In ascending order a later sample is no lower. -/
theorem key_le_of_getElem? {i j : ℕ} (hij : i ≤ j) (hi : (sortedBy key samples)[i]? = some v)
    (hj : (sortedBy key samples)[j]? = some w) : key v ≤ key w := by
  obtain ⟨hilt, rfl⟩ := List.getElem?_eq_some_iff.mp hi
  obtain ⟨hjlt, rfl⟩ := List.getElem?_eq_some_iff.mp hj
  rcases hij.eq_or_lt with rfl | hlt
  · exact le_rfl
  · exact List.pairwise_iff_getElem.mp (pairwise_sortedBy key samples) i j hilt hjlt hlt

/-- Percentiles are samples, and greater thresholds have no lower ones. -/
theorem picksInOrder_pickBy (key : α → ℕ) (hne : samples ≠ []) (thresholds : List Float) :
    PicksInOrder key thresholds samples (pickBy key samples thresholds) := by
  have hpos : 0 < samples.length := List.length_pos_iff.mpr hne
  constructor
  case ranks => exact fun p _ => ⟨one_le_rank p _, rank_le hpos p⟩
  case length => exact length_pickBy key hne thresholds
  case picked => exact map_some_pickBy key hne thresholds
  case mem =>
    intro v hv
    obtain ⟨p, -, hp⟩ := List.mem_filterMap.mp hv
    exact mem_sortedBy.mp (List.mem_of_getElem? hp)
  case mono =>
    rintro ⟨p, v⟩ hv ⟨q, w⟩ hw hpq
    exact key_le_of_getElem? (Nat.sub_le_sub_right (rank_mono hpos hpq) 1)
      (getElem?_of_mem_zip hne hv) (getElem?_of_mem_zip hne hw)

/-- Percentiles ascend with their thresholds. -/
theorem PicksInOrder.pairwise {values : List α} (h : PicksInOrder key thresholds samples values)
    (hthresholds : thresholds.Pairwise (· ≤ ·)) :
    values.Pairwise fun v w => key v ≤ key w := by
  rw [List.pairwise_iff_getElem] at hthresholds ⊢
  intro i j hi hj hij
  have hi' : i < thresholds.length := h.length ▸ hi
  have hj' : j < thresholds.length := h.length ▸ hj
  have hmem : ∀ k (hk : k < values.length) (hk' : k < thresholds.length),
      (thresholds[k], values[k]) ∈ thresholds.zip values := fun k hk hk' =>
    List.mem_iff_getElem.mpr ⟨k, by rw [List.length_zip]; exact lt_min hk' hk, List.getElem_zip⟩
  exact h.mono _ (hmem i hi hi') _ (hmem j hj hj') (hthresholds i j hi' hj' hij)

theorem pairwise_thresholds : Percentile.thresholds.Pairwise (· ≤ ·) := by
  decide +kernel

end Percentile

/-! ### Reports -/

/-- The percentiles of a report never decrease, as numbers and in the total order, and lie between
the extremes of the samples in the unit of the report. -/
structure Summary.PercentilesInOrder (unit : TimeUnit) (samples : List UInt64) (s : Summary) :
    Prop where
  min : samples.min? = some s.min
  max : samples.max? = some s.max
  length : s.percentiles.length = 15
  ascending : s.percentiles.Pairwise fun v w => v ≤ w ∧ key v ≤ key w
  between : ∀ v ∈ s.percentiles, unit.scale s.min.toFloat ≤ v ∧ v ≤ unit.scale s.max.toFloat

theorem Summary.Figures.percentilesInOrder (h : s.Figures unit samples) :
    s.PercentilesInOrder unit samples := by
  have hne : samples.map (fun v => unit.scale v.toFloat) ≠ [] :=
    List.map_eq_nil_iff.not.mpr h.ne_nil
  have hpicks := Percentile.picksInOrder_pickBy key hne Percentile.thresholds
  change Percentile.PicksInOrder _ _ _ (Percentile.pick _ _) at hpicks
  rw [← h.percentiles] at hpicks
  have hsample : ∀ v ∈ s.percentiles, ∃ n ∈ samples, unit.scale n.toFloat = v := fun v hv =>
    List.mem_map.mp (hpicks.mem v hv)
  constructor
  case min => exact h.min
  case max => exact h.max
  case length => exact h.length_percentiles
  case ascending =>
    refine (hpicks.pairwise Percentile.pairwise_thresholds).imp_of_mem fun hv hw hle => ?_
    obtain ⟨m, -, rfl⟩ := hsample _ hv
    obtain ⟨n, -, rfl⟩ := hsample _ hw
    have hm := hasValue_scale unit m
    have hn := hasValue_scale unit n
    exact ⟨(hm.le_iff hn).mpr ((hm.key_le_iff hn).mp hle), hle⟩
  case between =>
    intro v hv
    obtain ⟨n, hn, rfl⟩ := hsample v hv
    exact ⟨scale_le_scale unit ((List.min?_eq_some_iff.mp h.min).2 n hn),
      scale_le_scale unit ((List.max?_eq_some_iff.mp h.max).2 n hn)⟩

/-- Percentiles of any patterns at any thresholds are samples in order, and the percentiles of a
report ascend between the extremes of its samples. -/
theorem percentiles_inOrder {patterns : List UInt64} (hpatterns : patterns ≠ [])
    (thresholds : List UInt64) (hsamples : samples ≠ []) (unit : TimeUnit) :
    Percentile.PicksInOrder orderKey (thresholds.map Float.ofBits) patterns
        (Percentile.pickBy orderKey patterns (thresholds.map Float.ofBits)) ∧
      ∃ s, Summary.ofSamples? unit samples = some s ∧ s.PercentilesInOrder unit samples := by
  obtain ⟨s, hs, hfigures⟩ := Summary.exists_ofSamples? unit hsamples
  exact ⟨Percentile.picksInOrder_pickBy orderKey hpatterns _, s, hs, hfigures.percentilesInOrder⟩

/-- Two zeros, an infinity and two patterns that are not numbers, at thresholds of every kind. -/
theorem percentiles_inOrder_special :
    ([0x7FF8000000000001, 0x8000000000000000, 0, 0x7FF0000000000000, 0xFFF8000000000000] :
      List UInt64) ≠ [] ∧ ([150000, 7] : List UInt64) ≠ [] ∧
    Percentile.PicksInOrder orderKey
        ([0x7FF8000000000000, 0xFFF0000000000000, 0x4049000000000000, 0x7FF0000000000000].map
          Float.ofBits)
        [0x7FF8000000000001, 0x8000000000000000, 0, 0x7FF0000000000000, 0xFFF8000000000000]
        (Percentile.pickBy orderKey
          [0x7FF8000000000001, 0x8000000000000000, 0, 0x7FF0000000000000, 0xFFF8000000000000]
          ([0x7FF8000000000000, 0xFFF0000000000000, 0x4049000000000000, 0x7FF0000000000000].map
            Float.ofBits)) ∧
      ∃ s, Summary.ofSamples? .millis [150000, 7] = some s ∧
        s.PercentilesInOrder .millis [150000, 7] :=
  ⟨List.cons_ne_nil _ _, List.cons_ne_nil _ _,
    percentiles_inOrder (List.cons_ne_nil _ _) _ (List.cons_ne_nil _ _) .millis⟩

end OsdLatency
