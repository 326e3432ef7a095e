import Mathlib.Algebra.Group.Action.Defs
import OsdLatency.Proofs.Binary64.Accuracy
import OsdLatency.Proofs.Summary

/-!
# The mean and the extremes

The sum of samples is exact, but it is rounded to a double before it is divided, and the quotient is
rounded again. As long as the sum is at most `2 ^ 53` the mean lies between the extremes, as it
should. Beyond that the two roundings may carry it past both of them: by at most one part in
`2 ^ 51`, and never further than the mean of as many equal samples.

## Main definitions

* `Summary.meanNumber` — the number that a mean holds
* `Summary.MeanLies` — where the mean of samples lies

## Main results

* `Summary.hasValue_meanOf` — a mean holds a number
* `Summary.meanLies_ofSamples?` — where the mean of a group lies
* `Summary.not_forall_mean_between` — a mean below equal samples
-/

namespace OsdLatency.Summary

open Binary64

variable {samples : List UInt64} {s : Summary} {low high : ℕ}

/-! ### Sums -/

/-- A bound below all samples bounds their sum. -/
theorem length_mul_le_total (h : ∀ v ∈ samples, low ≤ v.toNat) :
    samples.length * low ≤ total samples := by
  have hsum := List.card_nsmul_le_sum (samples.map UInt64.toNat) low (by simpa using h)
  rwa [List.length_map, smul_eq_mul, ← total_eq_sum] at hsum

/-- A bound above all samples bounds their sum. -/
theorem total_le_length_mul (h : ∀ v ∈ samples, v.toNat ≤ high) :
    total samples ≤ samples.length * high := by
  have hsum := List.sum_le_card_nsmul (samples.map UInt64.toNat) high (by simpa using h)
  rwa [List.length_map, smul_eq_mul, ← total_eq_sum] at hsum

/-- A sample is part of the sum. -/
theorem toNat_le_total {v : UInt64} (h : v ∈ samples) : v.toNat ≤ total samples := by
  rw [total_eq_sum]
  exact List.single_le_sum (fun _ _ => Nat.zero_le _) _ (List.mem_map_of_mem h)

theorem total_replicate (n : ℕ) (v : UInt64) : total (List.replicate n v) = n * v.toNat := by
  rw [total_eq_sum, List.map_replicate, List.sum_replicate, smul_eq_mul]

theorem Figures.min_le {unit : TimeUnit} (h : s.Figures unit samples) :
    ∀ v ∈ samples, s.min.toNat ≤ v.toNat := fun v hv =>
  UInt64.le_iff_toNat_le.mp ((List.min?_eq_some_iff.mp h.min).2 v hv)

theorem Figures.le_max {unit : TimeUnit} (h : s.Figures unit samples) :
    ∀ v ∈ samples, v.toNat ≤ s.max.toNat := fun v hv =>
  UInt64.le_iff_toNat_le.mp ((List.max?_eq_some_iff.mp h.max).2 v hv)

/-! ### Means -/

/-- The number that a mean holds. -/
def meanNumber (samples : List UInt64) : ℚ :=
  wholeQuotient (rounded (total samples)) samples.length

/-- The mean of as many samples as a machine can count holds a number. -/
theorem hasValue_meanOf (hne : samples ≠ []) (h : samples.length ≤ 2 ^ 64) :
    HasValue (meanOf samples) (meanNumber samples) := by
  have htotal : (total samples : ℚ) ≤ 2 ^ 128 := by exact_mod_cast (total_lt h).le
  have hrounded : rounded (total samples) ≤ 2 ^ 128 := rounded_le_two_pow (Nat.cast_nonneg _) htotal
  have hsum := hasValue_ofNat (lt_two_pow_of_le hrounded (by norm_num))
  exact hsum.div_ofNat hrounded (by norm_num) (List.length_pos_iff.mpr hne)

/-- Of two groups of as many samples the one with the greater sum has the greater mean. -/
theorem meanNumber_mono {samples' : List UInt64} (hlength : samples.length = samples'.length)
    (h : total samples ≤ total samples') : meanNumber samples ≤ meanNumber samples' := by
  rw [meanNumber, meanNumber, hlength]
  exact wholeQuotient_mono (rounded_nonneg _)
    (rounded_mono (Nat.cast_nonneg _) (by exact_mod_cast h)) _

/-! ### Groups -/

/-- Where the mean of samples in microseconds lies. -/
structure MeanLies (s : Summary) (samples : List UInt64) (q : ℚ) : Prop where
  min : samples.min? = some s.min
  max : samples.max? = some s.max
  mean : HasValue s.mean q
  /-- The mean lies between the extremes as long as the sum is an exact double. -/
  between : total samples ≤ 2 ^ 53 → s.min.toNat ≤ q ∧ q ≤ s.max.toNat
  /-- In any case it lies between the means of as many equal samples. -/
  order : meanOf (List.replicate samples.length s.min) ≤ s.mean ∧
    s.mean ≤ meanOf (List.replicate samples.length s.max)
  near : IsWithin (1 / 2 ^ 51) (total samples / samples.length) q
  /-- So it passes the extremes by at most one part in `2 ^ 51`. -/
  passes : s.min.toNat * (1 - 1 / 2 ^ 51) ≤ q ∧ q ≤ s.max.toNat * (1 + 1 / 2 ^ 51)

/-- The mean of a group lies between its extremes, up to the roundings of sum and quotient. -/
theorem meanLies_ofSamples? (hne : samples ≠ []) (hlength : samples.length ≤ 2 ^ 64) :
    ∃ s q, ofSamples? .micros samples = some s ∧ s.MeanLies samples q := by
  obtain ⟨s, hs, hfigures⟩ := exists_ofSamples? .micros hne
  have hcount : 0 < samples.length := List.length_pos_iff.mpr hne
  have hlow := length_mul_le_total hfigures.min_le
  have hhigh := total_le_length_mul hfigures.le_max
  have hmean : HasValue s.mean (meanNumber samples) := by
    rw [hfigures.mean]
    exact hasValue_meanOf hne hlength
  have hequal (v : UInt64) : HasValue (meanOf (List.replicate samples.length v))
      (meanNumber (List.replicate samples.length v)) :=
    hasValue_meanOf (by simpa using hne) (by simpa using hlength)
  have hnear : IsWithin (1 / 2 ^ 51) (total samples / samples.length : ℚ) (meanNumber samples) :=
    isWithin_wholeQuotient hcount hlength
  have hcount' : (0 : ℚ) < samples.length := by exact_mod_cast hcount
  have hlow' : (s.min.toNat : ℚ) ≤ total samples / samples.length := by
    rw [le_div_iff₀ hcount', mul_comm]
    exact_mod_cast hlow
  have hhigh' : (total samples / samples.length : ℚ) ≤ s.max.toNat := by
    rw [div_le_iff₀ hcount', mul_comm]
    exact_mod_cast hhigh
  obtain ⟨hnearLow, hnearHigh⟩ := abs_le.mp hnear
  exact ⟨s, meanNumber samples, hs, {
    min := hfigures.min
    max := hfigures.max
    mean := hmean
    between := fun hexact => ⟨le_wholeQuotient hexact hcount hlow,
      wholeQuotient_le hexact hcount hhigh
        (toNat_le_total (List.max?_eq_some_iff.mp hfigures.max).1)⟩
    order := by
      rw [(hequal _).le_iff hmean, hmean.le_iff (hequal _)]
      exact ⟨meanNumber_mono List.length_replicate (by rwa [total_replicate]),
        meanNumber_mono List.length_replicate.symm (by rwa [total_replicate])⟩
    near := hnear
    passes := ⟨by linarith, by linarith⟩ }⟩

/-- Three writes, one of which is slow. -/
theorem meanLies_ofSamples?_three :
    let samples : List UInt64 := [918978, 930958, 973432]
    samples ≠ [] ∧ samples.length ≤ 2 ^ 64 ∧ total samples ≤ 2 ^ 53 ∧
      ∃ s q, ofSamples? .micros samples = some s ∧ s.MeanLies samples q ∧
        s.min.toNat ≤ q ∧ q ≤ s.max.toNat := by
  intro samples
  have hne : samples ≠ [] := List.cons_ne_nil _ _
  have hlength : samples.length ≤ 2 ^ 64 := by decide
  have hexact : total samples ≤ 2 ^ 53 := by decide
  obtain ⟨s, q, hs, hlies⟩ := meanLies_ofSamples? hne hlength
  exact ⟨hne, hlength, hexact, s, q, hs, hlies, hlies.between hexact⟩

/-- Three equal samples whose sum is no double. -/
def equalSamples : List UInt64 := List.replicate 3 9007199254740990

/-- The mean of equal samples can lie below all of them. -/
theorem not_forall_mean_between :
    ¬ ∀ (samples : List UInt64) (s : Summary) (q : ℚ), samples ≠ [] →
      ofSamples? .micros samples = some s → HasValue s.mean q →
        s.min.toNat ≤ q ∧ q ≤ s.max.toNat := by
  intro h
  have hne : equalSamples ≠ [] := by decide
  obtain ⟨s, hs, hfigures⟩ := exists_ofSamples? .micros hne
  have hmin : s.min = 9007199254740990 :=
    Option.some.inj (hfigures.min.symm.trans (by decide +kernel))
  have hmean : s.mean = ofNat 9007199254740989 := hfigures.mean.trans (by decide +kernel)
  have hvalue : HasValue s.mean (9007199254740989 : ℕ) := by
    rw [hmean]
    exact hasValue_natCast (by norm_num)
  obtain ⟨hle, -⟩ := h equalSamples s _ hne hs hvalue
  rw [hmin, Nat.cast_le] at hle
  exact absurd hle (by decide)

end OsdLatency.Summary
