import OsdLatency.Proofs.Binary64.Ceiling
import OsdLatency.Proofs.Binary64.Shortest
import OsdLatency.Proofs.Percentiles.Scaling
import OsdLatency.Proofs.Text.Numerals
import OsdLatency.Report.Amount

/-!
# Amounts in milliseconds

A latency in milliseconds is a quotient, so its text has a point with digits on both sides of it.
Where only two places are wanted, the quotient is brought to a whole number of hundredths first, and
each of these operations rounds once.

## Main definitions

* `Text.IsPointed` — digits on both sides of a point
* `Text.IsDecimal` — such digits with their value and the number of those behind the point
* `hundredthsValue` — a number rounded to two places by operations on doubles

## Main results

* `Text.IsDecimal.unique` — a text has one value
* `Text.isDecimal_positional` — the text of a decimal
* `Binary64.HasValue.isPointed_plain` — the text of a double
* `exists_hasValue_rounded` — the number that is shown for a latency of a dumped record
-/

namespace OsdLatency

open Binary64

namespace Text

/-- Digits on both sides of a point. -/
def IsPointed (text : List Char) : Prop :=
  ∃ whole fraction, text = whole ++ '.' :: fraction ∧
    IsRun isAsciiDigit whole ∧ IsRun isAsciiDigit fraction

/-- Digits on both sides of a point that have a value, `places` of them behind the point. -/
def IsDecimal (q : ℚ) (places : ℕ) (text : List Char) : Prop :=
  ∃ whole fraction, text = whole ++ '.' :: fraction ∧ IsRun isAsciiDigit whole ∧
    IsRun isAsciiDigit fraction ∧ fraction.length = places ∧
    (decimalValue (whole ++ fraction) : ℚ) = q * 10 ^ places

theorem IsDecimal.isPointed {q : ℚ} {places : ℕ} {text : List Char} (h : IsDecimal q places text) :
    IsPointed text := by
  obtain ⟨whole, fraction, htext, hwhole, hfraction, -⟩ := h
  exact ⟨whole, fraction, htext, hwhole, hfraction⟩

/-- A text has one value. -/
theorem IsDecimal.unique {q r : ℚ} {j k : ℕ} {text : List Char} (hq : IsDecimal q j text)
    (hr : IsDecimal r k text) : q = r := by
  obtain ⟨whole, fraction, rfl, hwhole, -, rfl, hvalue⟩ := hq
  obtain ⟨whole', fraction', htext, hwhole', -, rfl, hvalue'⟩ := hr
  obtain ⟨rfl, rfl⟩ := append_cons_inj_of_not_mem_front (hwhole.not_mem (by decide))
    (hwhole'.not_mem (by decide)) htext
  exact mul_right_cancel₀ (by positivity) (hvalue.symm.trans hvalue')

/-- A point in front of the last digits of a numeral divides it by a power of ten. -/
theorem IsNumeral.isDecimal {n places : ℕ} {text : List Char} (h : IsNumeral n text)
    (hplaces : 0 < places) (hlength : places < text.length) :
    IsDecimal (n / 10 ^ places) places
      (text.take (text.length - places) ++ '.' :: text.drop (text.length - places)) := by
  refine ⟨_, _, rfl, ⟨?_, fun c hc => h.1.2 c (List.mem_of_mem_take hc)⟩,
    ⟨?_, fun c hc => h.1.2 c (List.mem_of_mem_drop hc)⟩, ?_, ?_⟩
  · rw [← List.length_pos_iff, List.length_take]
    omega
  · rw [← List.length_pos_iff, List.length_drop]
    omega
  · rw [List.length_drop]
    omega
  · rw [List.take_append_drop, h.2, div_mul_cancel₀ _ (by positivity)]

/-- A decimal is written with as many places as it has, but at least one. -/
theorem isDecimal_positional (d : Decimal) :
    IsDecimal d.value (max 1 (-d.exponent).toNat) d.positional := by
  have hdigits : IsNumeral d.digits (Nat.toDigits 10 d.digits) := isNumeral_numeral d.digits
  have hscale := zpow_mul_pow_toNat (b := 10) (by norm_num) d.exponent
  rw [Decimal.positional, Decimal.value]
  split_ifs with hbehind
  · have hwhole := hdigits.append_zeros d.exponent.toNat
    rw [hbehind, pow_zero, mul_one] at hscale
    refine ⟨_, ['0'], by simp, hwhole.1, by decide, by simp [hbehind], ?_⟩
    rw [decimalValue_append, hwhole.2, hscale, hbehind]
    simp [decimalValue]
  · -- Zeros are put in front until a digit stands before the point.
    have hpadded := hdigits.zeros_append
      ((-d.exponent).toNat + 1 - (Nat.toDigits 10 d.digits).length)
    rw [← List.leftpad] at hpadded
    have hlength : (-d.exponent).toNat <
        (List.leftpad ((-d.exponent).toNat + 1) '0' (Nat.toDigits 10 d.digits)).length := by
      rw [List.length_leftpad]
      exact Nat.lt_of_succ_le (le_max_left _ _)
    have hvalue : (d.digits * 10 ^ d.exponent : ℚ) = d.digits / 10 ^ (-d.exponent).toNat := by
      rw [show d.exponent.toNat = 0 by omega, pow_zero] at hscale
      rw [eq_div_iff (by positivity), mul_assoc, hscale, mul_one]
    have hplaces : max 1 (-d.exponent).toNat = (-d.exponent).toNat := by omega
    rw [hvalue, hplaces]
    exact hpadded.isDecimal (by omega) hlength

theorem isPointed_positional (d : Decimal) : IsPointed d.positional :=
  (isDecimal_positional d).isPointed

end Text

variable {x : Float} {q : ℚ} {v : UInt64}

open Text

/-- The text of a double that holds a number. -/
theorem Binary64.HasValue.isPointed_plain (h : HasValue x q) :
    IsPointed (Amount.plain x).toList := by
  rw [HasValue] at h
  rw [Amount.plain]
  generalize x.toModel.unpack = u at h ⊢
  cases h with
  | zero => exact ⟨['0'], ['0'], by simp [signText], by decide, by decide⟩
  | @finite m e hm h => simpa [signText] using isPointed_positional _

/-! ### Two places -/

/-- A number rounded to two places by operations on doubles. -/
def hundredthsValue (q : ℚ) : ℚ := rounded (rounded ⌊rounded (q * 100) + 1 / 2⌋₊ / 100)

theorem Binary64.HasValue.toHundredths (h : HasValue x q) (hq : q ≤ 2 ^ 64) :
    HasValue (Amount.toHundredths x) (hundredthsValue q) := by
  have hproduct : rounded (q * 100) ≤ 2 ^ 71 :=
    rounded_le_two_pow (mul_nonneg h.nonneg (by norm_num)) (by linarith)
  have hscaled := h.mul hasValue_hundred (lt_two_pow_of_le hproduct (by norm_num))
  have hwhole := hscaled.roundHalfAway hproduct (by norm_num)
  exact hwhole.div_of_one_le hasValue_hundred (by norm_num)

/-- The number that is shown for a latency of a dumped record in milliseconds. -/
theorem exists_hasValue_rounded (v : UInt64) : ∃ x, TimeUnit.millis.rounded v = Amount.plain x ∧
    HasValue x (hundredthsValue (scaledValue .millis v)) := by
  refine ⟨_, rfl, (hasValue_scale .millis v).toHundredths ?_⟩
  have hv : rounded v.toNat / 1000 ≤ 2 ^ 64 :=
    (div_le_self (rounded_nonneg _) (by norm_num)).trans (rounded_toNat_le v)
  exact rounded_le_two_pow (div_nonneg (rounded_nonneg _) (by norm_num)) hv

theorem isPointed_rounded (v : UInt64) : IsPointed (TimeUnit.millis.rounded v).toList := by
  obtain ⟨x, htext, hvalue⟩ := exists_hasValue_rounded v
  rw [htext]
  exact hvalue.isPointed_plain

end OsdLatency
