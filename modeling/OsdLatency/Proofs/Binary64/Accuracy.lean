import OsdLatency.Proofs.Binary64.Value

/-!
# How close a rounded number is

Rounding moves a number by at most half of its quantum. In the normal range that is at most one part
in `2 ^ 53`, and a quotient of two rounded numbers, rounded once more, is off by four such parts at
most. As long as the dividend is exact, such a quotient does not pass a whole number either.

## Main definitions

* `IsWithin` — a number is off by at most a part of another one

## Main results

* `abs_rounded_sub_le` — rounding moves a number by at most half of its quantum
* `isWithin_rounded` — rounding in the normal range
* `isWithin_wholeQuotient` — the quotient of two whole numbers that have been rounded
* `le_wholeQuotient`, `wholeQuotient_le` — the quotient of an exact whole number
-/

namespace OsdLatency.Binary64

variable {u w x y : ℚ} {k m n : ℕ}

/-- A number is off by at most a part of the one it stands for. -/
def IsWithin (u x y : ℚ) : Prop := |y - x| ≤ u * x

/-! ### Rounded numbers -/

theorem abs_nearestEven_sub_le (hw : 0 ≤ w) : |(nearestEven w : ℚ) - w| ≤ 1 / 2 := by
  rw [abs_le]
  constructor
  · rcases (nearestEven_le_iff hw).mp (le_refl (nearestEven w)) with h | ⟨h, -⟩ <;> linarith
  · rcases Nat.eq_zero_or_pos (nearestEven w) with hzero | hpos
    · rw [hzero, Nat.cast_zero]
      linarith
    · -- The number is not below the middle under the nearest whole number.
      have hnot : ¬ nearestEven w ≤ nearestEven w - 1 := by omega
      rw [nearestEven_le_iff hw, not_or, not_lt, Nat.cast_pred hpos] at hnot
      linarith [hnot.1]

theorem abs_rounded_sub_le (hx : 0 ≤ x) : |rounded x - x| ≤ 2 ^ quantum x / 2 := by
  have hquantum : (0 : ℚ) < 2 ^ quantum x := zpow_pos (by norm_num) _
  have hself : x / 2 ^ quantum x * 2 ^ quantum x = x := div_mul_cancel₀ _ hquantum.ne'
  calc
    |rounded x - x|
        = |(nearestEven (x / 2 ^ quantum x) : ℚ) - x / 2 ^ quantum x| * 2 ^ quantum x := by
      rw [rounded, ← abs_of_pos hquantum, ← abs_mul, abs_of_pos hquantum, sub_mul, hself]
    _ ≤ 1 / 2 * 2 ^ quantum x :=
      mul_le_mul_of_nonneg_right (abs_nearestEven_sub_le (div_nonneg hx hquantum.le)) hquantum.le
    _ = 2 ^ quantum x / 2 := by ring

/-- Whole numbers are kept up to the end of the exact ones. -/
theorem rounded_natCast_of_le (h : n ≤ 2 ^ 53) : rounded n = n := by
  rcases h.lt_or_eq with hlt | rfl
  · exact rounded_natCast hlt
  · have hlow := min_le_rounded (2 ^ 53)
    rw [min_self] at hlow
    refine le_antisymm ?_ hlow
    rw [Nat.cast_pow, Nat.cast_ofNat]
    exact rounded_le_two_pow (by norm_num) le_rfl

/-- In the normal range a number is moved by at most one part in `2 ^ 53`. -/
theorem isWithin_rounded (hx : 2 ^ (-1022 : ℤ) ≤ x) : IsWithin (1 / 2 ^ 53) x (rounded x) := by
  have hpos : 0 < x := (zpow_pos (by norm_num) _).trans_le hx
  have hle : (2 : ℚ) ^ 52 * 2 ^ quantum x ≤ x := by
    rw [← zpow_add_natCast]
    by_cases h : quantum x = -1074
    · rw [h]
      exact hx
    · exact zpow_quantum_le hpos h
  calc
    |rounded x - x| ≤ 2 ^ quantum x / 2 := abs_rounded_sub_le hpos.le
    _ = 1 / 2 ^ 53 * (2 ^ 52 * 2 ^ quantum x) := by ring
    _ ≤ 1 / 2 ^ 53 * x := mul_le_mul_of_nonneg_left hle (by norm_num)

/-- A whole number is in the normal range, or zero. -/
theorem isWithin_rounded_natCast (n : ℕ) : IsWithin (1 / 2 ^ 53) (n : ℚ) (rounded n) := by
  rcases Nat.eq_zero_or_pos n with rfl | hn
  · simp [IsWithin]
  · have hone : (1 : ℚ) ≤ n := by exact_mod_cast hn
    have hnormal : (2 : ℚ) ^ (-1022 : ℤ) ≤ 1 := zpow_le_one_of_nonpos₀ (by norm_num) (by norm_num)
    exact isWithin_rounded (hnormal.trans hone)

/-! ### Quotients -/

/-- A quotient of numbers that are off, which is off itself. -/
theorem IsWithin.div {a b c : ℚ} (hu : 0 ≤ u) (hsmall : u ≤ 1 / 5) (hx : 0 ≤ x) (hy : 0 < y)
    (ha : IsWithin u x a) (hb : IsWithin u y b) (hc : IsWithin u (a / b) c) :
    IsWithin (4 * u) (x / y) c := by
  obtain ⟨halow, hahigh⟩ := abs_le.mp ha
  obtain ⟨hblow, hbhigh⟩ := abs_le.mp hb
  obtain ⟨hclow, hchigh⟩ := abs_le.mp hc
  have hratio : 0 ≤ x / y := div_nonneg hx hy.le
  have hbpos : 0 < b := by nlinarith
  have hlow : (1 - u) / (1 + u) * (x / y) ≤ a / b := by
    rw [← mul_div_mul_comm]
    exact div_le_div₀ (by nlinarith) (by linarith) hbpos (by linarith)
  have hhigh : a / b ≤ (1 + u) / (1 - u) * (x / y) := by
    rw [← mul_div_mul_comm]
    exact div_le_div₀ (by nlinarith) (by linarith) (by nlinarith) (by linarith)
  have hcoefficientLow : 1 - 4 * u ≤ (1 - u) * ((1 - u) / (1 + u)) := by
    rw [← mul_div_assoc, le_div_iff₀ (by linarith)]
    nlinarith
  have hcoefficientHigh : (1 + u) * ((1 + u) / (1 - u)) ≤ 1 + 4 * u := by
    rw [← mul_div_assoc, div_le_iff₀ (by linarith)]
    nlinarith
  have hclow' : (1 - 4 * u) * (x / y) ≤ c := calc
    (1 - 4 * u) * (x / y) ≤ (1 - u) * ((1 - u) / (1 + u)) * (x / y) :=
      mul_le_mul_of_nonneg_right hcoefficientLow hratio
    _ = (1 - u) * ((1 - u) / (1 + u) * (x / y)) := mul_assoc _ _ _
    _ ≤ (1 - u) * (a / b) := mul_le_mul_of_nonneg_left hlow (by linarith)
    _ ≤ c := by linarith
  have hchigh' : c ≤ (1 + 4 * u) * (x / y) := calc
    c ≤ (1 + u) * (a / b) := by linarith
    _ ≤ (1 + u) * ((1 + u) / (1 - u) * (x / y)) := mul_le_mul_of_nonneg_left hhigh (by linarith)
    _ = (1 + u) * ((1 + u) / (1 - u)) * (x / y) := (mul_assoc _ _ _).symm
    _ ≤ (1 + 4 * u) * (x / y) := mul_le_mul_of_nonneg_right hcoefficientHigh hratio
  exact abs_le.mpr ⟨by linarith, by linarith⟩

/-- The quotient of two whole numbers, rounded three times. -/
theorem isWithin_wholeQuotient (hn : 0 < n) (hle : n ≤ 2 ^ 64) :
    IsWithin (1 / 2 ^ 51) (m / n) (wholeQuotient (rounded m) n) := by
  rcases Nat.eq_zero_or_pos m with rfl | hm
  · simp [wholeQuotient, IsWithin]
  have hone : 1 ≤ rounded n := one_le_rounded hn
  have hbound : rounded n ≤ 2 ^ 64 := rounded_le_two_pow n.cast_nonneg (by exact_mod_cast hle)
  have hnormal : (2 : ℚ) ^ (-1022 : ℤ) ≤ rounded m / rounded n := calc
    (2 : ℚ) ^ (-1022 : ℤ) ≤ 2 ^ (-64 : ℤ) := zpow_le_zpow_right₀ (by norm_num) (by norm_num)
    _ = 1 / 2 ^ 64 := by norm_num
    _ ≤ rounded m / rounded n := div_le_div₀ (rounded_nonneg _) (one_le_rounded hm)
      (one_pos.trans_le hone) hbound
  rw [wholeQuotient, if_pos (lt_two_pow_of_le hbound (by norm_num)),
    show (1 / 2 ^ 51 : ℚ) = 4 * (1 / 2 ^ 53) by norm_num]
  exact (isWithin_rounded_natCast m).div (by norm_num) (by norm_num) m.cast_nonneg
    (by exact_mod_cast hn) (isWithin_rounded_natCast n) (isWithin_rounded hnormal)

/-! ### Quotients of exact whole numbers -/

theorem wholeQuotient_nonneg (q : ℚ) (n : ℕ) : 0 ≤ wholeQuotient q n := by
  rw [wholeQuotient]
  split_ifs
  · exact rounded_nonneg _
  · exact le_rfl

/-- The quotient of an exact whole number is not carried below a whole number. -/
theorem le_wholeQuotient (hm : m ≤ 2 ^ 53) (hn : 0 < n) (h : n * k ≤ m) :
    (k : ℚ) ≤ wholeQuotient (rounded m) n := by
  rcases Nat.eq_zero_or_pos k with rfl | hk
  · rw [Nat.cast_zero]
    exact wholeQuotient_nonneg _ _
  · -- So the divisor is exact, too.
    have hn' : n ≤ 2 ^ 53 := (Nat.le_mul_of_pos_right n hk).trans (h.trans hm)
    have hk' : k ≤ 2 ^ 53 := (Nat.le_mul_of_pos_left k hn).trans (h.trans hm)
    have hrange : (n : ℚ) < 2 ^ 1024 :=
      lt_two_pow_of_le (k := 53) (by exact_mod_cast hn') (by norm_num)
    have hle : (k : ℚ) ≤ m / n := by
      rw [le_div_iff₀ (by exact_mod_cast hn), mul_comm]
      exact_mod_cast h
    rw [wholeQuotient, rounded_natCast_of_le hm, rounded_natCast_of_le hn', if_pos hrange,
      ← rounded_natCast_of_le hk']
    exact rounded_mono k.cast_nonneg hle

/-- The quotient of an exact whole number is not carried above a whole number. -/
theorem wholeQuotient_le (hm : m ≤ 2 ^ 53) (hn : 0 < n) (h : m ≤ n * k) (hk : k ≤ m) :
    wholeQuotient (rounded m) n ≤ k := by
  -- The divisor may be rounded downwards, but not below the end of the exact numbers.
  have hmin : m ≤ k * min n (2 ^ 53) := by
    rcases Nat.eq_zero_or_pos k with rfl | hpos
    · omega
    · rcases le_total n (2 ^ 53) with hfew | hmany
      · rwa [min_eq_left hfew, mul_comm]
      · rw [min_eq_right hmany]
        exact hm.trans (Nat.le_mul_of_pos_left _ hpos)
  have hle : (m : ℚ) ≤ k * rounded n := calc
    (m : ℚ) ≤ k * (min n (2 ^ 53) : ℕ) := by exact_mod_cast hmin
    _ ≤ k * rounded n := mul_le_mul_of_nonneg_left (min_le_rounded n) k.cast_nonneg
  have hpos : 0 < rounded n := one_pos.trans_le (one_le_rounded hn)
  rw [wholeQuotient, rounded_natCast_of_le hm]
  split_ifs
  · rw [← rounded_natCast_of_le (hk.trans hm)]
    exact rounded_mono (div_nonneg m.cast_nonneg hpos.le) ((div_le_iff₀ hpos).mpr hle)
  · exact k.cast_nonneg

end OsdLatency.Binary64
