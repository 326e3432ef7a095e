import Mathlib.Tactic.LinearCombination
import OsdLatency.Proofs.Binary64.Ceiling

/-!
# Halves behind a division and a multiplication

An odd number `j` of halves is computed as a hundred times the quotient of `j` by two hundred. The
mantissa of the quotient is a whole number divided by 25 and rounded. A rest of 13 or more is made
up for, and then the product reaches the half. A lesser rest is dropped, and the product lacks it,
in parts of 25 of a hundred units in the last place of the quotient. Measured by the spacing of
doubles below the half these are parts of 16 or of 32, as the quotient lies six or seven binades
below the half, and half a unit of that spacing is made good when the product is rounded.

## Main results

* `quantum_div` — the binade of the quotient
* `half_le_rounded_iff` — from where on a number is rounded to a half or above
* `half_le_product_iff` — when the product reaches the half
-/

namespace OsdLatency.Binary64

variable {j c l N : ℕ} {q : ℚ}

/-! ### The quotient and its mantissa -/

/-- The binade of a quotient by two hundred. -/
theorem quantum_div (hpos : 0 < j) : quantum (j / 200) =
    j.log2 - (56 + (if 25 * 2 ^ j.log2 ≤ 16 * j then 3 else 4) : ℕ) := by
  have hlow : (2 : ℚ) ^ j.log2 ≤ j := by exact_mod_cast Nat.log2_self_le hpos.ne'
  have hhigh : (j : ℚ) < 2 * 2 ^ j.log2 := by
    rw [← pow_succ']
    exact_mod_cast Nat.lt_log2_self (n := j)
  have hbinade (i : ℕ) : (2 : ℚ) ^ (j.log2 - i : ℤ) = 2 ^ j.log2 / 2 ^ i := by
    rw [zpow_sub₀ two_ne_zero, zpow_natCast, zpow_natCast]
  split_ifs with h
  · have h' : (25 * 2 ^ j.log2 : ℚ) ≤ 16 * j := by exact_mod_cast h
    rw [quantum_eq (e := j.log2 - (7 : ℕ))]
    · push_cast
      omega
    · rw [hbinade]
      linarith
    · rw [sub_add, ← Nat.cast_one, ← Nat.cast_sub (by norm_num), hbinade]
      linarith
  · have h' : (16 * j : ℚ) < 25 * 2 ^ j.log2 := by exact_mod_cast not_le.mp h
    rw [quantum_eq (e := j.log2 - (8 : ℕ))]
    · push_cast
      omega
    · rw [hbinade]
      linarith
    · rw [sub_add, ← Nat.cast_one, ← Nat.cast_sub (by norm_num), hbinade]
      linarith

/-- A quotient by 25 lies nearer to its floor if the remainder is less than 13. -/
theorem nearestEven_div (n : ℕ) :
    nearestEven (n / 25 : ℚ) = if n % 25 < 13 then n / 25 else n / 25 + 1 := by
  have hsplit : (n : ℚ) = 25 * (n / 25 : ℕ) + (n % 25 : ℕ) := by
    exact_mod_cast (Nat.div_add_mod n 25).symm
  split_ifs with h
  · have hsmall : ((n % 25 : ℕ) : ℚ) ≤ 12 := by exact_mod_cast Nat.le_of_lt_succ h
    have hnonneg : (0 : ℚ) ≤ (n % 25 : ℕ) := Nat.cast_nonneg _
    exact nearestEven_eq (by positivity) (by linarith) (by linarith)
  · have hgreat : (13 : ℚ) ≤ (n % 25 : ℕ) := by exact_mod_cast not_lt.mp h
    have hlt : ((n % 25 : ℕ) : ℚ) < 25 := by exact_mod_cast Nat.mod_lt n (by norm_num)
    refine nearestEven_eq (by positivity) ?_ ?_ <;> push_cast <;> linarith

/-- The mantissa of a quotient by two hundred is a quotient by 25, rounded, since two hundred is 25
times a power of two. -/
theorem rounded_div_mul (hquantum : quantum (j / 200) = l - (56 + c : ℕ))
    (hN : j * 2 ^ (53 + c) = N * 2 ^ l) :
    rounded (j / 200) * 2 ^ (56 + c) = nearestEven (N / 25) * 2 ^ l := by
  have hscale : (2 : ℚ) ^ (l - (56 + c : ℕ) : ℤ) * 2 ^ (56 + c) = 2 ^ l := by
    rw [← zpow_natCast, ← zpow_natCast, ← zpow_add₀ two_ne_zero, sub_add_cancel]
  have hN' : (j * 2 ^ (53 + c) : ℚ) = N * 2 ^ l := by exact_mod_cast hN
  have hmantissa : (j / 200 : ℚ) / 2 ^ (l - (56 + c : ℕ) : ℤ) = N / 25 := by
    rw [div_eq_iff (zpow_ne_zero _ two_ne_zero),
      ← mul_left_inj' (pow_ne_zero (56 + c) two_ne_zero), mul_assoc, hscale]
    calc
      (j / 200 * 2 ^ (56 + c) : ℚ) = j * 2 ^ (53 + c) / 25 := by ring
      _ = N / 25 * 2 ^ l := by rw [hN', div_mul_eq_mul_div]
  rw [rounded, hquantum, hmantissa, mul_assoc, hscale]

/-! ### The product -/

/-- How the product with a hundred lies to the half, in whole numbers. -/
theorem half_le_mul_hundred_iff (hquantum : quantum (j / 200) = l - (56 + c : ℕ))
    (hN : j * 2 ^ (53 + c) = N * 2 ^ l) (slack : ℕ) :
    2 ^ (54 + c) * (j / 2 : ℚ) ≤ 2 ^ (54 + c) * (rounded (j / 200) * 100) + slack * 2 ^ l ↔
      N ≤ 25 * nearestEven (N / 25) + slack := by
  have hpow : (0 : ℚ) < 2 ^ l := by positivity
  have hN' : (j * 2 ^ (53 + c) : ℚ) = N * 2 ^ l := by exact_mod_cast hN
  have hquotient := rounded_div_mul hquantum hN
  have hhalf : 2 ^ (54 + c) * (j / 2 : ℚ) = N * 2 ^ l := by
    rw [← hN']
    ring
  have hproduct : 2 ^ (54 + c) * (rounded (j / 200) * 100) =
      25 * nearestEven (N / 25) * 2 ^ l := by
    rw [mul_assoc, ← hquotient]
    ring
  rw [hhalf, hproduct, ← add_mul, mul_le_mul_iff_left₀ hpow]
  exact_mod_cast Iff.rfl

/-- An odd number above one is no power of two. -/
theorem two_pow_log2_lt (hodd : Odd j) (hone : 1 < j) : 2 ^ j.log2 < j := by
  refine lt_of_le_of_ne (Nat.log2_self_le (by omega)) fun heq => ?_
  have hzero : j.log2 = 0 := by
    by_contra hzero
    rw [← heq, ← Nat.not_even_iff_odd] at hodd
    exact hodd (Nat.even_pow.mpr ⟨even_two, hzero⟩)
  rw [hzero] at heq
  omega

/-- So the double below an odd number of halves lies in the same binade. Its mantissa is odd, as that
of the halves has a zero at its end. -/
theorem exists_canonical_below (hodd : Odd j) (hone : 1 < j) (hlt : j < 2 ^ 51) :
    ∃ m, Canonical m (j.log2 - 53) ∧ ¬Even m ∧ (m + 1) * 2 ^ j.log2 = 2 ^ 52 * j := by
  have hpos : 0 < j := by omega
  have hlog : j.log2 ≤ 50 := Nat.le_of_lt_succ ((Nat.log2_lt hpos.ne').mpr hlt)
  obtain ⟨m, hm⟩ : ∃ m, m + 1 = j * 2 ^ (52 - j.log2) :=
    ⟨j * 2 ^ (52 - j.log2) - 1, Nat.sub_add_cancel (Nat.mul_pos hpos (Nat.pow_pos two_pos))⟩
  have hfull : 2 ^ 52 < m + 1 := calc
    2 ^ 52 = 2 ^ j.log2 * 2 ^ (52 - j.log2) := by rw [← pow_add, Nat.add_sub_cancel' (by omega)]
    _ < j * 2 ^ (52 - j.log2) :=
      Nat.mul_lt_mul_of_pos_right (two_pow_log2_lt hodd hone) (by positivity)
    _ = m + 1 := hm.symm
  have hend : m + 1 < 2 ^ 53 := hm ▸ (canonical_natCast hpos (hlt.trans (by norm_num))).lt
  have hsucc : Even (m + 1) := hm ▸ (Nat.even_pow.mpr ⟨even_two, by omega⟩).mul_left j
  refine ⟨m, ⟨by omega, by omega, Or.inl (by omega)⟩, Nat.even_add_one.mp hsucc, ?_⟩
  rw [hm, mul_assoc, ← pow_add, Nat.sub_add_cancel (by omega), mul_comm]

/-- An odd number of halves is reached from as far below as half the spacing of doubles there. -/
theorem half_le_rounded_iff (hodd : Odd j) (hone : 1 < j) (hlt : j < 2 ^ 51) (hq : 0 ≤ q) :
    (j / 2 : ℚ) ≤ rounded q ↔ 2 ^ 54 * (j / 2 : ℚ) ≤ 2 ^ 54 * q + 2 ^ j.log2 := by
  obtain ⟨m, hbelow, heven, hm⟩ := exists_canonical_below hodd hone hlt
  have hm' : (m + 1 : ℚ) * 2 ^ j.log2 = 2 ^ 52 * j := by exact_mod_cast hm
  have hscale : (2 : ℚ) ^ 54 * 2 ^ (j.log2 - 53 : ℤ) = 2 * 2 ^ j.log2 := by
    rw [zpow_sub₀ two_ne_zero, zpow_natCast]
    norm_num
    ring
  have hself : ((m + 1 : ℕ) : ℚ) * 2 ^ (j.log2 - 53 : ℤ) = j / 2 := by
    push_cast
    linear_combination ((m + 1) * hscale + 2 * hm') / 2 ^ 54
  have hmiddle : 2 ^ 54 * ((m + 1 / 2 : ℚ) * 2 ^ (j.log2 - 53 : ℤ)) =
      2 ^ 54 * (j / 2) - 2 ^ j.log2 := by
    rw [← hself]
    push_cast
    linear_combination -(hscale / 2)
  have hpow : (0 : ℚ) < 2 ^ 54 := by norm_num
  rw [← hself, succ_le_rounded_iff hq hbelow, ← not_le, rounded_le_iff hq hbelow, hself,
    or_iff_left fun h => heven h.2, not_lt, ← mul_le_mul_iff_right₀ hpow, hmiddle, sub_le_iff_le_add]

/-- When the product with a hundred, rounded, reaches the half. -/
theorem half_le_product_iff (hodd : Odd j) (hlt : j < 2 ^ 51)
    (hquantum : quantum (j / 200) = j.log2 - (56 + c : ℕ))
    (hN : j * 2 ^ (53 + c) = N * 2 ^ j.log2) (hone : j = 1 → 13 ≤ N % 25) :
    (j / 2 : ℚ) ≤ rounded (rounded (j / 200) * 100) ↔ N % 25 ≤ 2 ^ c ∨ 13 ≤ N % 25 := by
  have hproduct : (0 : ℚ) ≤ rounded (j / 200) * 100 := mul_nonneg (rounded_nonneg _) (by norm_num)
  have hpow : (0 : ℚ) < 2 ^ (54 + c) := by positivity
  have hnearest := nearestEven_div N
  by_cases hraised : 13 ≤ N % 25
  · -- A quotient that has been rounded up is enough.
    have hreaches : (j / 2 : ℚ) ≤ rounded (j / 200) * 100 := by
      rw [← mul_le_mul_iff_right₀ hpow]
      have hslack := (half_le_mul_hundred_iff hquantum hN 0).mpr (by
        rw [hnearest, if_neg (by omega)]
        omega)
      rwa [Nat.cast_zero, zero_mul, add_zero] at hslack
    have hself : rounded (j / 2) = j / 2 := by
      have hdouble := rounded_eq_self (m := j) (e := -1) (by omega) (by norm_num)
      rwa [zpow_neg_one, ← div_eq_mul_inv] at hdouble
    exact iff_of_true (hself ▸ rounded_mono (by positivity) hreaches) (Or.inr hraised)
  · have hone' : 1 < j := by
      have hpos : 0 < j := hodd.pos
      omega
    have hslack := half_le_mul_hundred_iff hquantum hN (2 ^ c)
    rw [hnearest, if_pos (by omega), Nat.cast_pow, Nat.cast_ofNat] at hslack
    have hscale (a : ℚ) : 2 ^ c * (2 ^ 54 * a) = 2 ^ (54 + c) * a := by
      rw [← mul_assoc, ← pow_add, Nat.add_comm]
    have hpow' : (0 : ℚ) < 2 ^ c := by positivity
    rw [half_le_rounded_iff hodd hone' hlt hproduct, ← mul_le_mul_iff_right₀ hpow', mul_add, hscale,
      hscale, hslack]
    omega

end OsdLatency.Binary64
