import OsdLatency.Proofs.Binary64.Overflow
import OsdLatency.Proofs.Binary64.Patterns
import OsdLatency.Proofs.Share.Single
import OsdLatency.Proofs.Summary

/-!
# Percentiles in milliseconds

A report in milliseconds divides every sample by a thousand before the samples are sorted. The
division is rounded, so that different samples may become alike, but it never turns two of them
around. So the percentiles are those of the samples in microseconds, each divided by a thousand.

## Main definitions

* `scaledValue` — the number that a sample is in the unit of a report

## Main results

* `Percentile.pickBy_map` — percentiles before and after a function that keeps the order
* `hasValue_scale`, `scale_le_scale` — scaled samples keep their order
* `percentiles_millis` — the percentiles in milliseconds are those in microseconds, divided
-/

namespace OsdLatency

open Binary64

variable {unit : TimeUnit} {v w : UInt64} {samples : List UInt64} {q r : ℚ}
  {x y : Float}

/-- A function that keeps the order of samples may be applied to their percentiles instead. -/
theorem Percentile.pickBy_map {α β : Type*} {key : α → ℕ} {key' : β → ℕ} {samples : List α}
    (hkey' : Function.Injective key') {f : α → β}
    (hf : ∀ a ∈ samples, ∀ b ∈ samples, key a ≤ key b → key' (f a) ≤ key' (f b))
    (thresholds : List Float) :
    pickBy key' (samples.map f) thresholds = (pickBy key samples thresholds).map f := by
  rw [pickBy, pickBy, sortedBy_map hkey' hf, List.map_filterMap, List.length_map]
  simp only [List.getElem?_map]

/-! ### Scaled samples -/

theorem Binary64.hasValue_thousand : HasValue 1000.0 1000 := by
  have hdouble : (1000.0 : Float) = ofNat 1000 := by decide +kernel
  rw [hdouble]
  exact hasValue_natCast (n := 1000) (by norm_num)

/-- A thousandth of a double. -/
theorem Binary64.HasValue.div_thousand (h : HasValue x q) :
    HasValue (x / 1000.0) (rounded (q / 1000)) :=
  h.div_of_one_le hasValue_thousand (by norm_num)

/-- The number that a sample is in the unit of a report. -/
def scaledValue (unit : TimeUnit) (v : UInt64) : ℚ :=
  match unit with
  | .micros => rounded v.toNat
  | .millis => rounded (rounded v.toNat / 1000)

theorem hasValue_scale (unit : TimeUnit) (v : UInt64) :
    HasValue (unit.scale v.toFloat) (scaledValue unit v) := by
  cases unit with
  | micros => exact hasValue_toFloat v
  | millis => exact (hasValue_toFloat v).div_thousand

theorem scaledValue_mono (unit : TimeUnit) (h : v ≤ w) :
    scaledValue unit v ≤ scaledValue unit w := by
  have hle : (v.toNat : ℚ) ≤ w.toNat := by exact_mod_cast UInt64.le_iff_toNat_le.mp h
  have hmicros : rounded v.toNat ≤ rounded w.toNat := rounded_mono (Nat.cast_nonneg _) hle
  cases unit with
  | micros => exact hmicros
  | millis =>
    exact rounded_mono (div_nonneg (rounded_nonneg _) (by norm_num))
      (div_le_div_of_nonneg_right hmicros (by norm_num))

theorem scale_le_scale (unit : TimeUnit) (h : v ≤ w) :
    unit.scale v.toFloat ≤ unit.scale w.toFloat :=
  ((hasValue_scale unit v).le_iff (hasValue_scale unit w)).mpr (scaledValue_mono unit h)

/-- Doubles that hold numbers are not turned around by the division. -/
theorem Binary64.HasValue.key_div_thousand_le (hx : HasValue x q) (hy : HasValue y r)
    (h : key x ≤ key y) : key (x / 1000.0) ≤ key (y / 1000.0) := by
  rw [hx.key_le_iff hy] at h
  rw [hx.div_thousand.key_le_iff hy.div_thousand]
  exact rounded_mono (div_nonneg hx.nonneg (by norm_num))
    (div_le_div_of_nonneg_right h (by norm_num))

/-! ### Percentiles -/

/-- The percentiles of samples in milliseconds are the thousandths of those in microseconds. -/
theorem pick_millis (samples : List UInt64) (thresholds : List Float) :
    Percentile.pick (samples.map fun v => TimeUnit.millis.scale v.toFloat) thresholds =
      (Percentile.pick (samples.map fun v => TimeUnit.micros.scale v.toFloat) thresholds).map
        fun v => v / 1000.0 := by
  have hscale : (samples.map fun v => TimeUnit.millis.scale v.toFloat) =
      (samples.map fun v => TimeUnit.micros.scale v.toFloat).map fun v => v / 1000.0 := by
    rw [List.map_map]
    rfl
  rw [hscale]
  refine Percentile.pickBy_map key_injective (fun a ha b hb hab => ?_) thresholds
  obtain ⟨v, -, rfl⟩ := List.mem_map.mp ha
  obtain ⟨w, -, rfl⟩ := List.mem_map.mp hb
  exact (hasValue_scale .micros v).key_div_thousand_le (hasValue_scale .micros w) hab

/-- The percentiles of a group in milliseconds are its percentiles in microseconds, each divided by
a thousand once. -/
theorem percentiles_millis (hne : samples ≠ []) :
    ∃ micros millis, Summary.ofSamples? .micros samples = some micros ∧
      Summary.ofSamples? .millis samples = some millis ∧
      micros.percentiles.length = Percentile.thresholds.length ∧
      millis.percentiles = micros.percentiles.map fun v => v / 1000.0 := by
  obtain ⟨micros, hmicros, hfigures⟩ := Summary.exists_ofSamples? .micros hne
  obtain ⟨millis, hmillis, hfigures'⟩ := Summary.exists_ofSamples? .millis hne
  refine ⟨micros, millis, hmicros, hmillis, hfigures.length_percentiles, ?_⟩
  rw [hfigures.percentiles, hfigures'.percentiles, pick_millis]

/-- Two samples next to each other that are alike in milliseconds. -/
theorem percentiles_millis_nearby :
    ([9007199254740991, 1500, 9007199254740990] : List UInt64) ≠ [] ∧
      ∃ micros millis,
        Summary.ofSamples? .micros [9007199254740991, 1500, 9007199254740990] = some micros ∧
        Summary.ofSamples? .millis [9007199254740991, 1500, 9007199254740990] = some millis ∧
        micros.percentiles.length = Percentile.thresholds.length ∧
        millis.percentiles = micros.percentiles.map fun v => v / 1000.0 :=
  ⟨List.cons_ne_nil _ _, percentiles_millis (List.cons_ne_nil _ _)⟩

end OsdLatency
