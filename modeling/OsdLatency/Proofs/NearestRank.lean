import Mathlib.Tactic.NormNum.GCD
import Mathlib.Tactic.NormNum.Prime
import OsdLatency.Proofs.Binary64.Ceiling
import OsdLatency.Proofs.Share.Single
import OsdLatency.Proofs.Summary

/-!
# Ranks in doubles and exact ranks

The thresholds of a report are whole numbers `t` of tenths of a percent, so the exact nearest rank
among `n` samples is `t * n / 1000`, rounded up. The rank is computed in doubles instead: the
threshold is divided by a hundred, multiplied by `n`, and rounded both times. For all thresholds but
the greatest the quotient exceeds `t / 1000` by no more than half a unit in its last place, and then
the product is not rounded above a whole number that the exact product does not pass. The quotient
of 99.9 exceeds it by nearly a whole unit. Where `999 * n / 1000` is a whole number, the product
passes it then, unless it lies close above a power of two, where doubles lie wide apart.

## Main definitions

* `tenths` — the thresholds in tenths of a percent
* `nearestRank` — the exact rank
* `Slips`, `usedRank` — the counts whose greatest percentile is taken one rank too high

## Main results

* `rank_eq` — the rank in doubles is the exact rank, or one more where it slips
* `pick_thresholds` — the samples that the percentiles of a report are
* `not_forall_pick_eq_nearestRank` — a thousand samples whose greatest percentile is the maximum
-/

namespace OsdLatency.Percentile

open Binary64

/-- The thresholds of the reports in tenths of a percent. -/
def tenths : List ℕ := [10, 50, 100, 200, 300, 400, 500, 600, 700, 800, 900, 950, 990, 995, 999]

theorem thresholds_eq : thresholds = tenths.map fun t => ofNat t / ofNat 10 := by
  decide +kernel

/-- The nearest rank of `t` tenths of a percent among `count` samples, in exact arithmetic. -/
def nearestRank (t count : ℕ) : ℕ := t * count ⌈/⌉ 1000

/-- The counts for which the rank of 99.9 percent is one too high: the exact rank is a whole number
before it is rounded up, and no power of two lies close below it. -/
def Slips (count : ℕ) : Prop :=
  1000 ∣ count ∧ 2 ^ (999 * (count / 1000)).log2 < 992 * (count / 1000)

instance : DecidablePred Slips := fun _ => inferInstanceAs (Decidable (_ ∧ _))

/-- The rank at which a report takes the percentile of `t` tenths of a percent. -/
def usedRank (t count : ℕ) : ℕ := nearestRank t count + if t = 999 ∧ Slips count then 1 else 0

variable {t count : ℕ} {q : ℚ} {p : Float} {samples : List Float}

/-! ### Exact ranks -/

theorem le_nearestRank (t count : ℕ) : t * count ≤ 1000 * nearestRank t count :=
  (ceilDiv_le_iff_le_mul (by norm_num)).mp le_rfl

theorem nearestRank_pos (ht : 0 < t) (hcount : 0 < count) : 0 < nearestRank t count := by
  have hpos : 0 < t * count := Nat.mul_pos ht hcount
  have := le_nearestRank t count
  omega

theorem nearestRank_le (ht : t ≤ 1000) (count : ℕ) : nearestRank t count ≤ count :=
  (ceilDiv_le_iff_le_mul (by norm_num)).mpr (Nat.mul_le_mul_right count ht)

/-- The rank before the nearest one lies below the exact product. -/
theorem lt_of_nearestRank (h : 0 < nearestRank t count) :
    1000 * (nearestRank t count - 1) < t * count := by
  by_contra hle
  have : nearestRank t count ≤ nearestRank t count - 1 :=
    (ceilDiv_le_iff_le_mul (by norm_num)).mpr (not_lt.mp hle)
  omega

/-- The greatest threshold has a whole product only for a multiple of a thousand samples. -/
theorem lt_nearestRank_of_not_dvd (h : ¬1000 ∣ count) :
    999 * count < 1000 * nearestRank 999 count := by
  refine lt_of_le_of_ne (le_nearestRank 999 count) fun heq => h ?_
  exact Nat.Coprime.dvd_of_dvd_mul_left (by norm_num) (Dvd.intro _ heq.symm)

theorem nearestRank_mul (j : ℕ) : nearestRank 999 (1000 * j) = 999 * j := by
  rw [nearestRank, Nat.mul_left_comm, Nat.ceilDiv_eq_add_pred_div]
  omega

/-! ### Quotients of thresholds -/

/-- The quotient of the greatest threshold by a hundred. -/
def greatestQuotient : ℚ := (8998192055486252 : ℕ) * 2 ^ (-53 : ℤ)

/-- How the quotient of a threshold by a hundred lies to `t` thousandths. It may lie below by a unit
in the last place, and above by half a unit, unless the threshold is the greatest one. -/
structure IsQuotient (t : ℕ) (q : ℚ) : Prop where
  pos : 0 < t
  le : t ≤ 999
  low : 2 ^ 53 * t ≤ 2 ^ 53 * (1000 * q) + t
  high : t ≠ 999 → 2 ^ 54 * (1000 * q) ≤ (2 ^ 54 + 1) * t
  greatest : t = 999 → q = greatestQuotient

/-- A test for the quotient of a threshold. -/
def testsQuotient (t : ℕ) (x : Float) : Bool :=
  match x.toModel.unpack with
  | .finite .positive m e _ =>
    decide (0 < t ∧ t ≤ 999) &&
    decide (m < 2 ^ 53 ∧ 2 ^ 52 ≤ m ∧ -1074 ≤ e) &&
    decide (2 ^ 53 * t * denominator e ≤ 2 ^ 53 * (1000 * numerator m e) + t * denominator e) &&
    decide (t ≠ 999 → 2 ^ 54 * (1000 * numerator m e) ≤ (2 ^ 54 + 1) * t * denominator e) &&
    decide (t = 999 → m = 8998192055486252 ∧ e = -53)
  | _ => false

theorem isQuotient_of_testsQuotient {x : Float} (h : testsQuotient t x = true) :
    ∃ q, HasValue x q ∧ IsQuotient t q := by
  unfold testsQuotient at h
  split at h
  · rename_i m e hm hunpack
    simp only [Bool.and_eq_true, decide_eq_true_eq] at h
    obtain ⟨⟨⟨⟨⟨hpos, hle⟩, hlt, hfull, he⟩, hlow⟩, hhigh⟩, hgreatest⟩ := h
    have hden : (0 : ℚ) < denominator e := by exact_mod_cast Nat.pow_pos two_pos
    have hvalue : (m : ℚ) * 2 ^ e * denominator e = numerator m e := by
      rw [mul_zpow_eq_div, div_mul_cancel₀ _ hden.ne']
    refine ⟨m * 2 ^ e, ?_, hpos, hle, ?_, fun ht => ?_, fun ht => ?_⟩
    · rw [HasValue, hunpack]
      exact .finite hm ⟨hlt, he, Or.inl hfull⟩
    · have hscaled : (2 ^ 53 * t * denominator e : ℚ) ≤
          2 ^ 53 * (1000 * numerator m e) + t * denominator e := by exact_mod_cast hlow
      rw [← hvalue] at hscaled
      refine le_of_mul_le_mul_right ?_ hden
      linarith
    · have hscaled : (2 ^ 54 * (1000 * numerator m e) : ℚ) ≤
          (2 ^ 54 + 1) * t * denominator e := by exact_mod_cast hhigh ht
      rw [← hvalue] at hscaled
      refine le_of_mul_le_mul_right ?_ hden
      linarith
    · rw [(hgreatest ht).1, (hgreatest ht).2, greatestQuotient]
  · exact absurd h Bool.false_ne_true

theorem testsQuotient_of_mem :
    ∀ t ∈ tenths, testsQuotient t (ofNat t / ofNat 10 / 100.0) = true := by
  decide +kernel

theorem forall₂_quotients :
    List.Forall₂ (fun t p => ∃ q, HasValue (p / 100.0) q ∧ IsQuotient t q) tenths thresholds := by
  rw [thresholds_eq, List.forall₂_map_right_iff, List.forall₂_same]
  exact fun t ht => isQuotient_of_testsQuotient (testsQuotient_of_mem t ht)

/-! ### Products -/

theorem IsQuotient.nonneg (h : IsQuotient t q) : 0 ≤ q := by
  have ht : (0 : ℚ) ≤ t := t.cast_nonneg
  have := h.low
  linarith

/-- The rounded product does not fall to the rank before the nearest one. -/
theorem IsQuotient.lt_rounded (h : IsQuotient t q) (hpos : 0 < count) (hlt : count < 2 ^ 32) :
    ((nearestRank t count - 1 : ℕ) : ℚ) < rounded (q * count) := by
  have hbelow := lt_of_nearestRank (nearestRank_pos h.pos hpos)
  have hrank : nearestRank t count ≤ count := nearestRank_le (h.le.trans (by norm_num)) count
  obtain ⟨k, hk⟩ : ∃ k, k = nearestRank t count - 1 := ⟨_, rfl⟩
  rw [← hk] at hbelow ⊢
  have hsmall : k < 2 ^ 32 := by omega
  have hsmall' : (k : ℚ) < 2 ^ 32 := by exact_mod_cast hsmall
  have hproduct : (1000 * k + 1 : ℚ) ≤ t * count := by exact_mod_cast hbelow
  have hlow := mul_le_mul_of_nonneg_right h.low (Nat.cast_nonneg (α := ℚ) count)
  refine natCast_lt_rounded 11 (by omega) (by norm_num) ?_
  linarith

/-- The rounded product does not pass the nearest rank, if the quotient is near enough. -/
theorem IsQuotient.rounded_le (h : IsQuotient t q) (ht : t ≠ 999) (hpos : 0 < count)
    (hlt : count < 2 ^ 32) : rounded (q * count) ≤ nearestRank t count := by
  have hrank : nearestRank t count ≤ count := nearestRank_le (h.le.trans (by norm_num)) count
  have hproduct : (t * count : ℚ) ≤ 1000 * nearestRank t count := by
    exact_mod_cast le_nearestRank t count
  have hhigh := mul_le_mul_of_nonneg_right (h.high ht) (Nat.cast_nonneg (α := ℚ) count)
  refine rounded_le_natCast (mul_nonneg h.nonneg count.cast_nonneg)
    (nearestRank_pos h.pos hpos) (by omega) ?_
  linarith

/-! ### The greatest threshold -/

/-- What the product of the greatest threshold is scaled to whole numbers. -/
theorem greatestQuotient_mul (count : ℕ) :
    2 ^ 53 * (1000 * (greatestQuotient * count)) = (2 ^ 53 * 999 + 992) * count := by
  rw [greatestQuotient]
  norm_num
  ring

/-- What the product of the greatest threshold has too much is no power of two. -/
theorem mul_ne_two_pow (j k : ℕ) : 992 * j ≠ 2 ^ k := by
  intro heq
  have hdvd : 31 ∣ 2 ^ k := heq ▸ Dvd.dvd.mul_right (by norm_num) j
  exact absurd (Nat.Prime.dvd_of_dvd_pow (by norm_num) hdvd) (by norm_num)

theorem slips_mul_iff (j : ℕ) : Slips (1000 * j) ↔ 2 ^ (999 * j).log2 < 992 * j := by
  rw [Slips, Nat.mul_div_cancel_left j (by norm_num)]
  exact and_iff_right (dvd_mul_right 1000 j)

theorem greatestQuotient_mul_nonneg (count : ℕ) : 0 ≤ greatestQuotient * count :=
  mul_nonneg (by norm_num [greatestQuotient]) count.cast_nonneg

/-- The rounded product of the greatest threshold stays within the nearest rank exactly if the count
does not slip. -/
theorem rounded_greatest_le_iff (hpos : 0 < count) (hlt : count < 2 ^ 32) :
    rounded (greatestQuotient * count) ≤ nearestRank 999 count ↔ ¬Slips count := by
  have hnonneg := greatestQuotient_mul_nonneg count
  have hproduct := greatestQuotient_mul count
  by_cases hdvd : 1000 ∣ count
  · obtain ⟨j, rfl⟩ := hdvd
    have hexcess : 2 ^ 53 * (greatestQuotient * (1000 * j : ℕ)) =
        2 ^ 53 * (999 * j : ℕ) + (992 * j : ℕ) := by
      push_cast at hproduct ⊢
      linarith
    have htie : ¬((992 * j : ℕ) : ℚ) = 2 ^ (999 * j).log2 := by
      exact_mod_cast mul_ne_two_pow j _
    rw [slips_mul_iff, nearestRank_mul, rounded_le_natCast_iff hnonneg (by omega) (by omega),
      hexcess, add_lt_add_iff_left, add_right_inj, or_iff_left fun h => htie h.1, not_lt,
      le_iff_lt_or_eq, or_iff_left (mul_ne_two_pow j _)]
    exact_mod_cast Iff.rfl
  · -- The exact product keeps a thousandth below the rank, which is more than it has too much.
    have hbelow : (999 * count + 1 : ℚ) ≤ 1000 * nearestRank 999 count := by
      exact_mod_cast lt_nearestRank_of_not_dvd hdvd
    have hcount : (count : ℚ) < 2 ^ 32 := by exact_mod_cast hlt
    have hrank : nearestRank 999 count ≤ count := nearestRank_le (by norm_num) count
    have hle : rounded (greatestQuotient * count) ≤ nearestRank 999 count :=
      rounded_le_of_le hnonneg (by omega) (by linarith)
    exact iff_of_true hle fun hslips => hdvd hslips.1

/-- It does not pass the next rank. -/
theorem rounded_greatest_le_succ (hlt : count < 2 ^ 32) :
    rounded (greatestQuotient * count) ≤ (nearestRank 999 count + 1 : ℕ) := by
  have hproduct := greatestQuotient_mul count
  have hexact : (999 * count : ℚ) ≤ 1000 * nearestRank 999 count := by
    exact_mod_cast le_nearestRank 999 count
  have hcount : (count : ℚ) < 2 ^ 32 := by exact_mod_cast hlt
  have hrank : nearestRank 999 count ≤ count := nearestRank_le (by norm_num) count
  refine rounded_le_of_le (greatestQuotient_mul_nonneg count) (by omega) ?_
  push_cast
  linarith

/-! ### Ranks in doubles -/

theorem usedRank_pos (ht : 0 < t) (hpos : 0 < count) : 0 < usedRank t count :=
  Nat.add_pos_left (nearestRank_pos ht hpos) _

theorem usedRank_le (ht : t ≤ 999) (hpos : 0 < count) : usedRank t count ≤ count := by
  rw [usedRank]
  split_ifs with hslips
  · obtain ⟨rfl, ⟨j, rfl⟩, -⟩ := hslips
    rw [nearestRank_mul]
    omega
  · exact nearestRank_le (ht.trans (by norm_num)) count

/-- The product is rounded to a number between the rank before the used one and that rank. -/
theorem IsQuotient.ceil_eq (h : IsQuotient t q) (hpos : 0 < count) (hlt : count < 2 ^ 32) :
    ⌈rounded (q * count)⌉₊ = usedRank t count := by
  have hlow := h.lt_rounded hpos hlt
  refine (Nat.ceil_eq_iff (usedRank_pos h.pos hpos).ne').mpr ?_
  rw [usedRank]
  by_cases ht : t = 999
  · obtain rfl := h.greatest ht
    subst ht
    have hiff := rounded_greatest_le_iff hpos hlt
    by_cases hslips : Slips count
    · rw [if_pos ⟨rfl, hslips⟩, Nat.add_sub_cancel]
      exact ⟨not_le.mp fun hle => hiff.mp hle hslips, rounded_greatest_le_succ hlt⟩
    · rw [if_neg fun hboth => hslips hboth.2]
      exact ⟨hlow, hiff.mpr hslips⟩
  · rw [if_neg fun hboth => ht hboth.1]
    exact ⟨hlow, h.rounded_le ht hpos hlt⟩

/-- The rank in doubles is the exact one, or one more where it slips. -/
theorem rank_eq (hvalue : HasValue (p / 100.0) q) (h : IsQuotient t q) (hpos : 0 < count)
    (hlt : count < 2 ^ 32) : rank p count = usedRank t count := by
  have hceil := h.ceil_eq hpos hlt
  have hcount : HasValue (ofNat count) count := hasValue_natCast (by omega)
  have hrank : (usedRank t count : ℚ) ≤ 2 ^ 32 := by
    exact_mod_cast (usedRank_le h.le hpos).trans hlt.le
  have hproduct : rounded (q * count) ≤ 2 ^ 32 := (Nat.le_ceil _).trans (hceil ▸ hrank)
  rw [rank, (hvalue.mul hcount (lt_two_pow_of_le hproduct (by norm_num))).clampedCeil_eq, hceil,
    min_eq_left (usedRank_le h.le hpos), max_eq_right (usedRank_pos h.pos hpos)]

/-! ### Percentiles -/

/-- The percentiles of a report are the samples at their nearest ranks in ascending order, as exact
arithmetic gives the ranks, but for the greatest one. That is the next sample where the count
slips. -/
theorem pick_thresholds (hne : samples ≠ []) (hlt : samples.length < 2 ^ 32) :
    (pick samples thresholds).map some =
      tenths.map fun t => (sortedBy key samples)[usedRank t samples.length - 1]? := by
  have hpos : 0 < samples.length := List.length_pos_iff.mpr hne
  rw [pick, map_some_pickBy key hne, ← List.forall₂_eq_eq_eq, List.forall₂_map_left_iff,
    List.forall₂_map_right_iff]
  refine forall₂_quotients.flip.imp ?_
  rintro p t ⟨q, hvalue, hq⟩
  rw [rank_eq hvalue hq hpos hlt]

theorem pick_thresholds_three :
    (pick [3.0, 1.0, 2.0] thresholds).map some =
      tenths.map fun t => (sortedBy key [3.0, 1.0, 2.0])[usedRank t 3 - 1]? :=
  pick_thresholds (List.cons_ne_nil _ _) (by norm_num)

/-- A thousand samples, one of them slower than all others. -/
def oneSlow : List Float := List.replicate 999 1.0 ++ [2.0]

theorem length_oneSlow : oneSlow.length = 1000 := by
  rw [oneSlow, List.length_append, List.length_replicate, List.length_singleton]

theorem sortedBy_oneSlow : sortedBy key oneSlow = oneSlow := by
  have hle : key 1.0 ≤ key 2.0 := by decide +kernel
  apply List.mergeSort_of_pairwise
  simp only [oneSlow, List.pairwise_append, List.pairwise_replicate, List.mem_replicate,
    List.mem_singleton, List.pairwise_singleton, decide_eq_true_eq]
  refine ⟨Or.inr le_rfl, trivial, ?_⟩
  rintro a ⟨-, rfl⟩ b rfl
  exact hle

/-- Not all percentiles are the samples at the exact ranks: of a thousand samples, all but one of
them alike, the 99.9th percentile is the slowest one. -/
theorem not_forall_pick_eq_nearestRank :
    ¬∀ samples : List Float, samples ≠ [] → samples.length < 2 ^ 32 →
      (pick samples thresholds).map some =
        tenths.map fun t => (sortedBy key samples)[nearestRank t samples.length - 1]? := by
  intro hall
  have hne : oneSlow ≠ [] := List.append_ne_nil_of_right_ne_nil _ (List.cons_ne_nil _ _)
  have hsamples := hall oneSlow hne (by rw [length_oneSlow]; norm_num)
  rw [pick, map_some_pickBy key hne, sortedBy_oneSlow, length_oneSlow] at hsamples
  have hgreatest := congrArg List.getLast? hsamples
  rw [List.getLast?_map, List.getLast?_map] at hgreatest
  change some oneSlow[rank 99.9 1000 - 1]? = some oneSlow[nearestRank 999 1000 - 1]? at hgreatest
  have hranks : rank 99.9 1000 = 1000 ∧ nearestRank 999 1000 = 999 := by decide +kernel
  have hslow : oneSlow[1000 - 1]? = some 2.0 := by
    rw [oneSlow, List.getElem?_append_right (by rw [List.length_replicate]),
      List.length_replicate]
    rfl
  have hfast : oneSlow[999 - 1]? = some 1.0 := by
    rw [oneSlow, List.getElem?_append_left (by rw [List.length_replicate]; norm_num),
      List.getElem?_replicate_of_lt (by norm_num)]
  rw [hranks.1, hranks.2, hslow, hfast] at hgreatest
  exact absurd hgreatest (by decide +kernel)

end OsdLatency.Percentile
