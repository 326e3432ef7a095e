import Mathlib.Algebra.Order.Floor.Div
import Mathlib.Algebra.Order.Floor.Semifield
import OsdLatency.Proofs.Binary64.Value

/-!
# Whole numbers next to rounded numbers

The ceiling of a double is that of the number it holds, and so is the nearest whole number. Where
the number has been rounded, the ceiling is the next whole number above the exact one, unless
rounding has passed that. Up to `2 ^ 53` whole numbers are doubles, and a number is rounded down to
one of them as long as it exceeds it by less than half the spacing there, which depends on the power
of two below.

## Main results

* `HasValue.clampedCeil_eq` — the ceiling of a double
* `HasValue.roundHalfAway` — the whole number nearest to a double
* `rounded_le_natCast_iff` — when a number is rounded to a whole number or below
* `natCast_lt_rounded` — what lies well above a whole number is not rounded to it
-/

namespace OsdLatency.Binary64

variable {x : Float} {q : ℚ} {m n : ℕ} {e : ℤ}

/-! ### Ceilings of doubles -/

/-- A mantissa with its exponent as a fraction. -/
theorem mul_zpow_eq_div (m : ℕ) (e : ℤ) :
    (m : ℚ) * 2 ^ e = (numerator m e : ℚ) / (denominator e : ℚ) := by
  rcases le_total 0 e with he | he
  · lift e to ℕ using he
    simp [numerator, denominator]
  · obtain ⟨k, rfl⟩ := Int.exists_eq_neg_ofNat he
    simp [numerator, denominator, div_eq_mul_inv]

theorem ceil_mul_zpow (m : ℕ) (e : ℤ) :
    ⌈(m : ℚ) * 2 ^ e⌉₊ = numerator m e ⌈/⌉ denominator e := by
  have hpos : 0 < denominator e := Nat.pow_pos two_pos
  have hpos' : (0 : ℚ) < denominator e := by exact_mod_cast hpos
  apply eq_of_forall_ge_iff
  intro n
  rw [Nat.ceil_le, ceilDiv_le_iff_le_mul hpos, mul_zpow_eq_div, div_le_iff₀' hpos']
  norm_cast

theorem HasValue.clampedCeil_eq (h : HasValue x q) (low high : ℕ) :
    clampedCeil low high x = max low (min ⌈q⌉₊ high) := by
  rw [HasValue] at h
  rw [clampedCeil]
  generalize x.toModel.unpack = u at h ⊢
  cases h with
  | zero => simp
  | @finite m e hm h =>
    rw [ceil_mul_zpow, Nat.ceilDiv_eq_add_pred_div]

/-! ### Nearest whole numbers -/

/-- A quotient rounded with halves going up. -/
theorem roundDiv_up (num : ℕ) {den : ℕ} (hden : 0 < den) :
    roundDiv .up num den = ⌊(num : ℚ) / den + 1 / 2⌋₊ := by
  have hden' : (0 : ℚ) < den := by exact_mod_cast hden
  have hsplit : (num : ℚ) / den + 1 / 2 = ((2 * num + den : ℕ) : ℚ) / ((2 * den : ℕ) : ℚ) := by
    push_cast
    field_simp
  rw [hsplit, Nat.floor_div_eq_div]
  have hless := Nat.mod_lt num hden
  have hdouble : 2 * num + den = 2 * (num % den) + den + 2 * den * (num / den) := by
    have hparts := Nat.div_add_mod num den
    nlinarith
  rw [hdouble, Nat.add_mul_div_left _ _ (by omega), Nat.add_comm]
  rcases lt_trichotomy (2 * (num % den)) den with hlt | heq | hgt
  · have hbelow : (2 * (num % den) + den) / (2 * den) = 0 := Nat.div_eq_of_lt (by omega)
    simp only [roundDiv, Nat.compare_eq_lt.mpr hlt, hbelow, Nat.add_zero]
  · have habove : (2 * (num % den) + den) / (2 * den) = 1 :=
      Nat.div_eq_of_lt_le (by omega) (by omega)
    simp only [roundDiv, Nat.compare_eq_eq.mpr heq, habove]
  · have habove : (2 * (num % den) + den) / (2 * den) = 1 :=
      Nat.div_eq_of_lt_le (by omega) (by omega)
    simp only [roundDiv, Nat.compare_eq_gt.mpr hgt, habove]

/-- The nearest whole number of a double is that of the number it holds, halves going up. -/
theorem HasValue.roundHalfAway (h : HasValue x q) {k : ℕ} (hq : q ≤ 2 ^ k) (hk : k < 1024) :
    HasValue (roundHalfAway x) (rounded ⌊q + 1 / 2⌋₊) := by
  have hbound : ⌊q + 1 / 2⌋₊ ≤ 2 ^ k := by
    refine Nat.le_of_lt_succ ((Nat.floor_lt (by linarith [h.nonneg])).mpr ?_)
    push_cast
    linarith
  have hrange : rounded ⌊q + 1 / 2⌋₊ < 2 ^ 1024 :=
    lt_two_pow_of_le (rounded_le_two_pow (Nat.cast_nonneg _) (by exact_mod_cast hbound)) hk
  rw [Binary64.roundHalfAway]
  have hx := h
  rw [HasValue] at h
  generalize hu : x.toModel.unpack = u at h ⊢
  cases h with
  | zero =>
    have hzero : ⌊(0 : ℚ) + 1 / 2⌋₊ = 0 := by norm_num
    rw [hzero, Nat.cast_zero, rounded_zero]
    exact hx
  | @finite m e hm h =>
    have hden : 0 < denominator e := Nat.pow_pos two_pos
    rw [mul_zpow_eq_div] at hrange ⊢
    rw [← roundDiv_up _ hden] at hrange ⊢
    exact hasValue_ofNat hrange

/-! ### Whole numbers -/

/-- A whole number as a double: zeros are put behind its digits. -/
theorem canonical_natCast (hpos : 0 < n) (hlt : n < 2 ^ 53) :
    Canonical (n * 2 ^ (52 - n.log2)) (-(52 - n.log2 : ℕ)) := by
  have hlog : n.log2 ≤ 52 := Nat.le_of_lt_succ ((Nat.log2_lt hpos.ne').mpr hlt)
  have hdigits : (n * 2 ^ (52 - n.log2)).log2 = 52 := by
    rw [log2_mul_two_pow hpos]
    omega
  have hpos' : n * 2 ^ (52 - n.log2) ≠ 0 := by positivity
  refine ⟨(Nat.log2_lt hpos').mp (by omega), by omega, Or.inl ((Nat.le_log2 hpos').mp hdigits.ge)⟩

/-- A number is rounded to a whole number or below exactly if it exceeds it by less than half the
spacing of doubles there. -/
theorem rounded_le_natCast_iff (hq : 0 ≤ q) (hpos : 0 < n) (hlt : n < 2 ^ 53) :
    rounded q ≤ n ↔ 2 ^ 53 * q < 2 ^ 53 * n + 2 ^ n.log2 ∨
      2 ^ 53 * q = 2 ^ 53 * n + 2 ^ n.log2 ∧ Even (n * 2 ^ (52 - n.log2)) := by
  have hlog : n.log2 ≤ 52 := Nat.le_of_lt_succ ((Nat.log2_lt hpos.ne').mpr hlt)
  have hscale : (2 : ℚ) ^ (52 - n.log2) * 2 ^ n.log2 = 2 ^ 52 := by
    rw [← pow_add]
    congr 1
    omega
  have hself : ((n * 2 ^ (52 - n.log2) : ℕ) : ℚ) * 2 ^ (-(52 - n.log2 : ℕ) : ℤ) = n := by
    have h := mul_two_pow_mul_zpow n (52 - n.log2) 0
    rwa [zero_sub, zpow_zero, mul_one] at h
  have hmiddle : 2 ^ 53 * (((n * 2 ^ (52 - n.log2) : ℕ) + 1 / 2 : ℚ) *
      2 ^ (-(52 - n.log2 : ℕ) : ℤ)) = 2 ^ 53 * n + 2 ^ n.log2 := by
    rw [add_mul, hself, zpow_neg, zpow_natCast, mul_add, add_right_inj, ← div_eq_mul_inv,
      ← mul_div_assoc, div_eq_iff (by positivity), mul_comm (2 ^ n.log2 : ℚ), hscale]
    norm_num
  have hscaled : (0 : ℚ) < 2 ^ 53 := by norm_num
  have hiff := rounded_le_iff hq (canonical_natCast hpos hlt)
  rw [hself] at hiff
  rw [hiff, ← hmiddle, mul_lt_mul_iff_right₀ hscaled, mul_right_inj' hscaled.ne']

theorem rounded_le_of_le (hq : 0 ≤ q) (hlt : n < 2 ^ 53) (h : q ≤ n) : rounded q ≤ n :=
  (rounded_mono hq h).trans_eq (rounded_natCast hlt)

/-- What exceeds a whole number by less than half a unit of its last place is not rounded above
it. -/
theorem rounded_le_natCast (hq : 0 ≤ q) (hpos : 0 < n) (hlt : n < 2 ^ 53)
    (h : 2 ^ 54 * q ≤ (2 ^ 54 + 1) * n) : rounded q ≤ n := by
  have hlog : (n : ℚ) < 2 ^ n.log2 * 2 := by
    rw [← pow_succ]
    exact_mod_cast Nat.lt_log2_self
  apply (rounded_le_natCast_iff hq hpos hlt).mpr
  left
  linarith

/-- What lies above a whole number by a unit of some place is not rounded to it, if there are digits
enough for that place. -/
theorem natCast_lt_rounded (k : ℕ) (hfits : n * 2 ^ k + 1 < 2 ^ 53) (hk : k ≤ 1074)
    (h : n + 1 / 2 ^ k ≤ q) : n < rounded q := by
  have hpow : (0 : ℚ) < 1 / 2 ^ k := by positivity
  have hself := rounded_eq_self hfits (e := -k) (by omega)
  have hvalue : ((n * 2 ^ k + 1 : ℕ) : ℚ) * 2 ^ (-k : ℤ) = n + 1 / 2 ^ k := by
    rw [zpow_neg, zpow_natCast]
    push_cast
    field_simp
  rw [hvalue] at hself
  calc
    (n : ℚ) < n + 1 / 2 ^ k := lt_add_of_pos_right _ hpow
    _ = rounded (n + 1 / 2 ^ k) := hself.symm
    _ ≤ rounded q := rounded_mono (by positivity) h

end OsdLatency.Binary64
