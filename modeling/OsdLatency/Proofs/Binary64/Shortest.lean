import Mathlib.Algebra.Order.Field.Power
import OsdLatency.Binary64.Shortest
import OsdLatency.Proofs.Binary64.Value

/-!
# The shortest decimal of a double

The interval of a double has just the numbers that are rounded to it. So a decimal with so few
places that no other decimal with as few lies in the interval is what the search finds: a coarser
grid has no other point there, and the search has not passed the grid of the decimal before it comes
to it.

## Main definitions

* `Decimal.value` — the number that a decimal stands for
* `Neighbourhood.interval` — the numbers between the bounds of a neighbourhood

## Main results

* `Neighbourhood.holds_iff` — the test of a grid point
* `Neighbourhood.holds_search` — the search ends at a grid point in the interval
* `mem_interval_iff` — the interval of a double has the numbers that are rounded to it
* `value_shortest` — a decimal with few places is the shortest one of its double
-/

namespace OsdLatency.Binary64

/-- The number that a decimal stands for. -/
def Decimal.value (d : Decimal) : ℚ := d.digits * 10 ^ d.exponent

variable {q : ℚ} {m digits : ℕ} {e place target : ℤ} {tie : Tie}

theorem ten_zpow_pos (place : ℤ) : (0 : ℚ) < 10 ^ place := zpow_pos (by norm_num) _

/-- A power with any exponent is a quotient of two with whole exponents. -/
theorem zpow_mul_pow_toNat {b : ℚ} (hb : b ≠ 0) (z : ℤ) : b ^ z * b ^ (-z).toNat = b ^ z.toNat := by
  rw [← zpow_natCast, ← zpow_natCast, ← zpow_add₀ hb]
  congr 1
  omega

/-- The nearest whole number of a quotient is next to its floor. -/
theorem roundDiv_eq_or_eq (tie : Tie) (num den : ℕ) :
    roundDiv tie num den = num / den ∨ roundDiv tie num den = num / den + 1 := by
  simp only [roundDiv]
  split
  · exact Or.inl rfl
  · exact Or.inr rfl
  · omega
  · exact Or.inr rfl

namespace Neighbourhood

variable {n : Neighbourhood}

/-! ### Points of a grid -/

/-- The numbers between the bounds, on the scale of the neighbourhood. -/
def interval (n : Neighbourhood) : Set ℚ :=
  if n.closed then Set.Icc (n.lower * 2 ^ n.exponent) (n.upper * 2 ^ n.exponent)
  else Set.Ioo (n.lower * 2 ^ n.exponent) (n.upper * 2 ^ n.exponent)

theorem ordConnected_interval (n : Neighbourhood) : n.interval.OrdConnected := by
  rw [interval]
  split_ifs
  · exact Set.ordConnected_Icc
  · exact Set.ordConnected_Ioo

theorem le_of_mem_interval (h : q ∈ n.interval) :
    n.lower * 2 ^ n.exponent ≤ q ∧ q ≤ n.upper * 2 ^ n.exponent := by
  rw [interval] at h
  split_ifs at h
  · exact h
  · exact ⟨h.1.le, h.2.le⟩

/-- Numbers on the scale of a neighbourhood and on a decimal grid, both brought to whole numbers. -/
theorem exists_scale (n : Neighbourhood) (place : ℤ) : ∃ c : ℚ, 0 < c ∧
    (∀ a : ℕ, ((a * n.scaleNum place : ℕ) : ℚ) = a * 2 ^ n.exponent * c) ∧
    ∀ digits : ℕ, ((digits * n.scaleDen place : ℕ) : ℚ) = digits * 10 ^ place * c := by
  have hnum : (n.scaleNum place : ℚ) =
      2 ^ n.exponent * (2 ^ (-n.exponent).toNat * 10 ^ (-place).toNat) := by
    rw [scaleNum, ← mul_assoc, zpow_mul_pow_toNat two_ne_zero]
    simp
  have hden : (n.scaleDen place : ℚ) =
      10 ^ place * (2 ^ (-n.exponent).toNat * 10 ^ (-place).toNat) := by
    rw [scaleDen, mul_left_comm, zpow_mul_pow_toNat (by norm_num)]
    simp
  refine ⟨2 ^ (-n.exponent).toNat * 10 ^ (-place).toNat, by positivity, fun a => ?_,
    fun digits => ?_⟩
  · rw [Nat.cast_mul, hnum, mul_assoc]
  · rw [Nat.cast_mul, hden, mul_assoc]

theorem mul_scaleNum_le_iff (n : Neighbourhood) (place : ℤ) (a digits : ℕ) :
    a * n.scaleNum place ≤ digits * n.scaleDen place ↔
      (a * 2 ^ n.exponent : ℚ) ≤ digits * 10 ^ place := by
  obtain ⟨c, hc, hnum, hden⟩ := n.exists_scale place
  rw [← mul_le_mul_iff_left₀ hc, ← hnum, ← hden, Nat.cast_le]

theorem le_mul_scaleNum_iff (n : Neighbourhood) (place : ℤ) (a digits : ℕ) :
    digits * n.scaleDen place ≤ a * n.scaleNum place ↔
      (digits * 10 ^ place : ℚ) ≤ a * 2 ^ n.exponent := by
  obtain ⟨c, hc, hnum, hden⟩ := n.exists_scale place
  rw [← mul_le_mul_iff_left₀ hc, ← hnum, ← hden, Nat.cast_le]

/-- A point of a grid is tested for lying in the interval. -/
theorem holds_iff : n.holds place digits = true ↔ (digits * 10 ^ place : ℚ) ∈ n.interval := by
  rw [holds, interval]
  split_ifs
  · rw [Bool.and_eq_true, decide_eq_true_eq, decide_eq_true_eq, mul_scaleNum_le_iff,
      le_mul_scaleNum_iff, Set.mem_Icc]
  · rw [Bool.and_eq_true, decide_eq_true_eq, decide_eq_true_eq, ← not_le, ← not_le,
      mul_scaleNum_le_iff, le_mul_scaleNum_iff, not_le, not_le, Set.mem_Ioo]

/-! ### The search -/

/-- What is found on a grid lies in the interval. -/
theorem holds_of_onGrid (h : n.onGrid tie place = some digits) : n.holds place digits = true := by
  rw [onGrid] at h
  split at h
  · rename_i hbelow habove
    obtain rfl := Option.some.inj h
    rcases roundDiv_eq_or_eq tie (n.middle * n.scaleNum place) (n.scaleDen place) with heq | heq
    · rwa [heq]
    · rwa [heq]
  · rename_i hbelow _
    rwa [← Option.some.inj h]
  · rename_i _ habove
    rwa [← Option.some.inj h]
  · exact absurd h (Option.some_ne_none _).symm

/-- On a grid with a point in the interval one of the two neighbours of the middle lies there, since
they are between that point and the middle. -/
theorem onGrid_ne_none (hmiddle : (n.middle * 2 ^ n.exponent : ℚ) ∈ n.interval)
    (h : n.holds place digits = true) : n.onGrid tie place ≠ none := by
  have hden : 0 < n.scaleDen place := Nat.mul_pos (Nat.pow_pos two_pos) (Nat.pow_pos (by norm_num))
  rw [holds_iff] at h
  obtain ⟨below, hbelow⟩ : ∃ below, below = n.middle * n.scaleNum place / n.scaleDen place :=
    ⟨_, rfl⟩
  have hlow : (below * 10 ^ place : ℚ) ≤ n.middle * 2 ^ n.exponent := by
    rw [← le_mul_scaleNum_iff, hbelow]
    exact Nat.div_mul_le_self _ _
  have hhigh : (n.middle * 2 ^ n.exponent : ℚ) ≤ (below + 1 : ℕ) * 10 ^ place := by
    rw [← mul_scaleNum_le_iff, hbelow]
    exact (Nat.lt_mul_of_div_lt (Nat.lt_succ_self _) hden).le
  have hmono {a b : ℕ} (hab : a ≤ b) : (a * 10 ^ place : ℚ) ≤ b * 10 ^ place :=
    mul_le_mul_of_nonneg_right (by exact_mod_cast hab) (ten_zpow_pos place).le
  have hneighbour : n.holds place below = true ∨ n.holds place (below + 1) = true := by
    rw [holds_iff, holds_iff]
    rcases Nat.lt_or_ge below digits with hlt | hge
    · exact Or.inr (n.ordConnected_interval.out hmiddle h ⟨hhigh, hmono hlt⟩)
    · exact Or.inl (n.ordConnected_interval.out h hmiddle ⟨hmono hge, hlow⟩)
  rw [onGrid, ← hbelow]
  rcases hneighbour with hheld | hheld
  · rw [hheld]
    cases n.holds place (below + 1) <;> exact Option.some_ne_none _
  · rw [hheld]
    cases n.holds place below <;> exact Option.some_ne_none _

/-- The search ends at a point in the interval, on a grid at least as coarse as any that has such a
point, if it comes to that grid. -/
theorem holds_search (tie : Tie) (hmiddle : (n.middle * 2 ^ n.exponent : ℚ) ∈ n.interval)
    (h : n.holds target digits = true) (tries : ℕ) (hle : target ≤ place)
    (hlt : place < target + tries) :
    n.holds (n.search tie tries place).exponent (n.search tie tries place).digits = true ∧
      target ≤ (n.search tie tries place).exponent := by
  induction tries generalizing place with
  | zero => omega
  | succ tries ih =>
    rw [search]
    split
    · rename_i found hfound
      exact ⟨holds_of_onGrid hfound, hle⟩
    · rename_i hnone
      -- The grid of the point has not been missed.
      have hne : place ≠ target := by
        rintro rfl
        exact onGrid_ne_none hmiddle h hnone
      exact ih (by omega) (by omega)

end Neighbourhood

/-! ### The interval of a double -/

open Neighbourhood

/-- The double below a double, and the middle between the two. -/
theorem Canonical.exists_pred (h : Canonical m e) (hm : 0 < m) : ∃ m' e', Canonical m' e' ∧
    ((m' + 1 : ℕ) : ℚ) * 2 ^ e' = m * 2 ^ e ∧
    (m' + 1 / 2 : ℚ) * 2 ^ e' = (Neighbourhood.of m e).lower * 2 ^ (e - 2) ∧
    (Even m' ↔ ¬Even m) := by
  obtain ⟨hlt, hle, hfull⟩ := h
  have hscale : (2 : ℚ) ^ e = 4 * 2 ^ (e - 2) := by
    rw [zpow_sub₀ two_ne_zero]
    norm_num
    ring
  have hhalf : (2 : ℚ) ^ (e - 1) = 2 * 2 ^ (e - 2) := by
    rw [← zpow_one_add₀ two_ne_zero]
    congr 1
    ring
  by_cases hpower : m = 0x10000000000000 ∧ -1074 < e
  · -- Below a power of two doubles lie half as far apart.
    obtain ⟨rfl, he⟩ := hpower
    refine ⟨2 ^ 53 - 1, e - 1, ⟨by norm_num, by omega, Or.inl (by norm_num)⟩, ?_, ?_, by decide⟩
    · rw [hhalf, hscale]
      push_cast
      ring
    · rw [hhalf, Neighbourhood.of, if_pos ⟨rfl, he⟩]
      norm_num
      ring
  · have hpred : ((m - 1 : ℕ) : ℚ) = m - 1 := by rw [Nat.cast_sub hm, Nat.cast_one]
    have hlower : ((4 * m - 2 : ℕ) : ℚ) = 4 * m - 2 := by
      rw [Nat.cast_sub (by omega)]
      push_cast
      ring
    refine ⟨m - 1, e, ⟨by omega, hle, by omega⟩, ?_, ?_, ?_⟩
    · rw [Nat.sub_add_cancel hm]
    · rw [Neighbourhood.of, if_neg hpower, hpred, hlower, hscale]
      ring
    · rw [Nat.even_sub hm]
      simp

/-- The interval of a double has the numbers that are rounded to it. -/
theorem mem_interval_iff (h : Canonical m e) (hm : 0 < m) (hq : 0 ≤ q) :
    q ∈ (Neighbourhood.of m e).interval ↔ rounded q = m * 2 ^ e := by
  obtain ⟨m', e', h', hself, hlow, heven⟩ := h.exists_pred hm
  have hhigh : (m + 1 / 2 : ℚ) * 2 ^ e = (Neighbourhood.of m e).upper * 2 ^ (e - 2) := by
    rw [Neighbourhood.of, zpow_sub₀ two_ne_zero]
    push_cast
    ring
  have hlower : (m : ℚ) * 2 ^ e ≤ rounded q ↔ ¬rounded q ≤ m' * 2 ^ e' := by
    rw [← hself, succ_le_rounded_iff hq h', not_le]
  rw [le_antisymm_iff, hlower, rounded_le_iff hq h, rounded_le_iff hq h', hlow, hhigh, heven]
  -- The bounds belong to the interval if the mantissa is even.
  have hclosed : (Neighbourhood.of m e).closed = true ↔ Even m := by
    rw [Neighbourhood.of, beq_iff_eq, Nat.even_iff]
  change q ∈ (if (Neighbourhood.of m e).closed = true
    then Set.Icc (_ * 2 ^ (e - 2)) (_ * 2 ^ (e - 2))
    else Set.Ioo (_ * 2 ^ (e - 2)) (_ * 2 ^ (e - 2))) ↔ _
  by_cases hm : Even m
  · simp only [if_pos (hclosed.mpr hm), hm, not_true_eq_false, and_true, and_false, or_false,
      ← le_iff_lt_or_eq, not_lt]
    exact and_comm
  · simp only [if_neg (mt hclosed.mp hm), hm, not_false_eq_true, and_true, and_false, or_false,
      ← le_iff_lt_or_eq, not_le]
    exact and_comm

theorem middle_mem_interval (h : Canonical m e) (hm : 0 < m) :
    ((Neighbourhood.of m e).middle * 2 ^ (Neighbourhood.of m e).exponent : ℚ) ∈
      (Neighbourhood.of m e).interval := by
  have hmiddle : ((Neighbourhood.of m e).middle * 2 ^ (Neighbourhood.of m e).exponent : ℚ) =
      m * 2 ^ e := by
    simp only [Neighbourhood.of]
    rw [zpow_sub₀ two_ne_zero]
    push_cast
    ring
  rw [hmiddle, mem_interval_iff h hm (by positivity)]
  exact rounded_eq_self h.lt h.le

/-- Two numbers in the interval of a double are no farther apart than doubles are. -/
theorem sub_le_of_mem_interval (hm : 0 < m) {r : ℚ} (hq : q ∈ (Neighbourhood.of m e).interval)
    (hr : r ∈ (Neighbourhood.of m e).interval) : q - r ≤ 2 ^ e := by
  have hlow := (le_of_mem_interval hr).1
  have hhigh := (le_of_mem_interval hq).2
  have hwidth : (Neighbourhood.of m e).upper ≤ (Neighbourhood.of m e).lower + 4 := by
    simp only [Neighbourhood.of]
    split_ifs <;> omega
  have hwidth' : ((Neighbourhood.of m e).upper : ℚ) ≤ (Neighbourhood.of m e).lower + 4 := by
    exact_mod_cast hwidth
  have hscale : (2 : ℚ) ^ e = 4 * 2 ^ (Neighbourhood.of m e).exponent := by
    simp only [Neighbourhood.of]
    rw [zpow_sub₀ two_ne_zero]
    norm_num
    ring
  have hstep := mul_le_mul_of_nonneg_right hwidth'
    (zpow_pos two_pos (Neighbourhood.of m e).exponent : (0 : ℚ) < _).le
  linarith

/-! ### Decimals with few places -/

/-- A decimal with so few places that doubles lie closer together is the shortest one of its
double, apart from zeros behind it. -/
theorem value_shortest (h : Canonical m e) (hm : 0 < m) (tie : Tie)
    (hrounded : rounded (digits * 10 ^ target) = m * 2 ^ e) (hwidth : (2 : ℚ) ^ e < 10 ^ target)
    (hle : target ≤ coarsePlace m e) (hlt : coarsePlace m e < target + 20) :
    (shortest tie m e).value = digits * 10 ^ target ∧ target ≤ (shortest tie m e).exponent := by
  have hten := ten_zpow_pos target
  have hgiven : (digits * 10 ^ target : ℚ) ∈ (Neighbourhood.of m e).interval :=
    (mem_interval_iff h hm (by positivity)).mpr hrounded
  obtain ⟨hheld, hplace⟩ := holds_search tie (middle_mem_interval h hm)
    (holds_iff.mpr hgiven) 20 hle (by exact_mod_cast hlt)
  rw [← shortest] at hheld hplace
  refine ⟨?_, hplace⟩
  have hfound : (shortest tie m e).value ∈ (Neighbourhood.of m e).interval := holds_iff.mp hheld
  -- Both are multiples of one power of ten.
  obtain ⟨k, hk⟩ := Int.le.dest hplace
  have hmultiple : (shortest tie m e).value =
      (((shortest tie m e).digits * 10 ^ k : ℕ) : ℚ) * 10 ^ target := by
    rw [Decimal.value, ← hk, zpow_add₀ (by norm_num), zpow_natCast]
    push_cast
    ring
  rw [hmultiple] at hfound ⊢
  have habove := (sub_le_of_mem_interval hm hfound hgiven).trans_lt hwidth
  have hbelow := (sub_le_of_mem_interval hm hgiven hfound).trans_lt hwidth
  generalize (shortest tie m e).digits * 10 ^ k = found at habove hbelow ⊢
  have hclose : (found : ℚ) < digits + 1 := by
    refine lt_of_mul_lt_mul_right ?_ hten.le
    linarith
  have hclose' : (digits : ℚ) < found + 1 := by
    refine lt_of_mul_lt_mul_right ?_ hten.le
    linarith
  have heq : found = digits := by
    have : found < digits + 1 := by exact_mod_cast hclose
    have : digits < found + 1 := by exact_mod_cast hclose'
    omega
  rw [heq]

/-- The binary logarithm of a double lies between those of its bounds. -/
theorem log2_add_of_mem (hm : 0 < m) {a b : ℤ} (hlow : (2 : ℚ) ^ a ≤ m * 2 ^ e)
    (hhigh : (m : ℚ) * 2 ^ e < 2 ^ b) : a ≤ m.log2 + e ∧ m.log2 + e < b := by
  have hexp : (0 : ℚ) < 2 ^ e := zpow_pos two_pos e
  have hlog : (2 : ℚ) ^ m.log2 ≤ m := by exact_mod_cast Nat.log2_self_le hm.ne'
  have hlog' : (m : ℚ) < 2 ^ (m.log2 + 1) := by exact_mod_cast Nat.lt_log2_self (n := m)
  constructor
  · have hlt : (2 : ℚ) ^ a < 2 ^ (e + (m.log2 + 1 : ℕ)) := by
      rw [zpow_add_natCast]
      exact hlow.trans_lt (mul_lt_mul_of_pos_right hlog' hexp)
    have := (zpow_lt_zpow_iff_right₀ (by norm_num : (1 : ℚ) < 2)).mp hlt
    omega
  · have hlt : (2 : ℚ) ^ (e + m.log2) < 2 ^ b := by
      rw [zpow_add_natCast]
      exact (mul_le_mul_of_nonneg_right hlog hexp.le).trans_lt hhigh
    have := (zpow_lt_zpow_iff_right₀ (by norm_num : (1 : ℚ) < 2)).mp hlt
    omega

end OsdLatency.Binary64
