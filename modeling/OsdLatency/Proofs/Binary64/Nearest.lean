import Mathlib.Data.Int.Log
import Mathlib.Data.Rat.Floor
import Mathlib.Tactic.Linarith
import Mathlib.Tactic.Positivity

/-!
# Rational numbers rounded to doubles

A non-negative rational number is rounded to the nearest multiple of its quantum, the power of two
that leaves 53 digits in front of the point, ties going to the even multiple. Numbers below the
normal range share the least quantum. Exponents have no upper bound here: what is too great for a
double is told apart where doubles are packed.

One statement carries the theory: a rounded number lies at or below a double exactly if the number
lies below the middle between that double and the next. That rounding is monotone and keeps doubles
follows from it.

## Main definitions

* `nearestEven` — the nearest whole number, the even one of two
* `quantum`, `rounded` — the spacing of doubles around a number, and the nearest double
* `Canonical` — a mantissa and an exponent as doubles have them

## Main results

* `rounded_le_iff` — when a rounded number lies at or below a double
* `rounded_mono`, `rounded_eq_self` — rounding is monotone, and doubles stay as they are
* `Canonical.succ_le` — no double lies between a double and the next one
-/

namespace OsdLatency.Binary64

variable {w x y : ℚ} {m n : ℕ} {d e : ℤ}

/-! ### The nearest whole number -/

/-- The whole number nearest to a non-negative number, the even one of two. -/
def nearestEven (w : ℚ) : ℕ :=
  if w < ⌊w⌋₊ + 1 / 2 then ⌊w⌋₊
  else if w = ⌊w⌋₊ + 1 / 2 then ⌊w⌋₊ + ⌊w⌋₊ % 2
  else ⌊w⌋₊ + 1

/-- The nearest whole number is at most `n` exactly below the middle between `n` and `n + 1`. The
middle itself goes to `n` if that is even. -/
theorem nearestEven_le_iff (hw : 0 ≤ w) :
    nearestEven w ≤ n ↔ w < n + 1 / 2 ∨ w = n + 1 / 2 ∧ Even n := by
  have hfloor : (⌊w⌋₊ : ℚ) ≤ w := Nat.floor_le hw
  -- Two whole numbers that are less than one apart are ordered like the numbers near them.
  have hle : (⌊w⌋₊ : ℚ) < n + 1 → ⌊w⌋₊ ≤ n := fun h => by
    have : ⌊w⌋₊ < n + 1 := by exact_mod_cast h
    omega
  have hcast : ∀ {k : ℕ}, k ≤ n → (k : ℚ) ≤ n := fun h => by exact_mod_cast h
  unfold nearestEven
  split_ifs with hlow htie
  · constructor
    · intro h
      have := hcast h
      exact Or.inl (by linarith)
    · rintro (h | ⟨h, -⟩) <;> exact hle (by linarith)
  · constructor
    · intro h
      rcases Nat.lt_or_ge ⌊w⌋₊ n with hlt | hge
      · have : (⌊w⌋₊ : ℚ) + 1 ≤ n := by exact_mod_cast hlt
        exact Or.inl (by linarith)
      · have heq : ⌊w⌋₊ = n := by omega
        exact Or.inr ⟨by rw [← heq, ← htie], Nat.even_iff.mpr (by omega)⟩
    · rintro (h | ⟨h, heven⟩)
      · have : (⌊w⌋₊ : ℚ) < n := by linarith
        have : ⌊w⌋₊ < n := by exact_mod_cast this
        omega
      · have heq : ⌊w⌋₊ = n := by
          have : (⌊w⌋₊ : ℚ) = n := by linarith
          exact_mod_cast this
        rw [heq, Nat.even_iff.mp heven]
        rfl
  · have hhigh : (⌊w⌋₊ : ℚ) + 1 / 2 < w := lt_of_le_of_ne (not_lt.mp hlow) (Ne.symm htie)
    constructor
    · intro h
      have : ((⌊w⌋₊ + 1 : ℕ) : ℚ) ≤ n := hcast h
      push_cast at this
      exact Or.inl (by linarith [Nat.lt_floor_add_one w])
    · rintro (h | ⟨h, -⟩)
      · have : (⌊w⌋₊ : ℚ) < n := by linarith
        exact_mod_cast this
      · have : (⌊w⌋₊ : ℚ) < n := by linarith
        exact_mod_cast this

theorem nearestEven_mono (hx : 0 ≤ x) (hxy : x ≤ y) : nearestEven x ≤ nearestEven y := by
  refine (nearestEven_le_iff hx).mpr ?_
  rcases (nearestEven_le_iff (hx.trans hxy)).mp le_rfl with h | ⟨h, heven⟩
  · exact Or.inl (hxy.trans_lt h)
  · rcases (h ▸ hxy : x ≤ nearestEven y + 1 / 2).lt_or_eq with hlt | heq
    · exact Or.inl hlt
    · exact Or.inr ⟨heq, heven⟩

/-- A whole number less than a half away is the nearest one. -/
theorem nearestEven_eq (hw : 0 ≤ w) (hlow : n - 1 / 2 < w) (hhigh : w < n + 1 / 2) :
    nearestEven w = n := by
  refine le_antisymm ((nearestEven_le_iff hw).mpr (Or.inl hhigh)) ?_
  rcases (nearestEven_le_iff hw).mp (le_refl (nearestEven w)) with h | ⟨h, -⟩
  all_goals
    have : (n : ℚ) < (nearestEven w + 1 : ℕ) := by push_cast; linarith
    have : n < nearestEven w + 1 := by exact_mod_cast this
    omega

@[simp] theorem nearestEven_natCast (n : ℕ) : nearestEven n = n :=
  nearestEven_eq n.cast_nonneg (by linarith) (by linarith)

/-! ### The nearest double -/

/-- The exponent of the spacing of doubles around a number. -/
def quantum (x : ℚ) : ℤ := max (Int.log 2 x - 52) (-1074)

/-- The double nearest to a non-negative number, the even mantissa winning a tie. -/
def rounded (x : ℚ) : ℚ := nearestEven (x / 2 ^ quantum x) * 2 ^ quantum x

/-- A mantissa and an exponent as doubles have them: the mantissa fills its 53 digits unless the
exponent is the least one. -/
structure Canonical (m : ℕ) (e : ℤ) : Prop where
  lt : m < 2 ^ 53
  le : -1074 ≤ e
  full : 2 ^ 52 ≤ m ∨ e = -1074

private theorem two_zpow_pos (e : ℤ) : (0 : ℚ) < 2 ^ e := zpow_pos (by norm_num) e

theorem zpow_add_natCast (e : ℤ) (k : ℕ) : (2 : ℚ) ^ (e + k) = 2 ^ k * 2 ^ e := by
  rw [zpow_add₀ two_ne_zero, zpow_natCast, mul_comm]

private theorem zpow_mono (h : d ≤ e) : (2 : ℚ) ^ d ≤ 2 ^ e :=
  zpow_le_zpow_right₀ (by norm_num) h

theorem neg_1074_le_quantum (x : ℚ) : -1074 ≤ quantum x := le_max_right _ _

/-- A number has at most 53 digits in front of the point, counted in its quantum. -/
theorem lt_zpow_quantum (x : ℚ) : x < 2 ^ (quantum x + 53) := by
  have hlog : x < 2 ^ (Int.log 2 x + 1) := by
    exact_mod_cast Int.lt_zpow_succ_log_self (b := 2) (by norm_num) x
  have : Int.log 2 x - 52 ≤ quantum x := le_max_left _ _
  exact hlog.trans_le (zpow_mono (by omega))

/-- Above the least quantum it has no fewer. -/
theorem zpow_quantum_le (hx : 0 < x) (h : quantum x ≠ -1074) : 2 ^ (quantum x + 52) ≤ x := by
  have hlog : quantum x + 52 = Int.log 2 x := by
    unfold quantum at h ⊢
    omega
  rw [hlog]
  exact_mod_cast Int.zpow_log_le_self (by norm_num) hx

/-- The quantum of a number between two powers of two. -/
theorem quantum_eq (hlow : 2 ^ e ≤ x) (hhigh : x < 2 ^ (e + 1)) :
    quantum x = max (e - 52) (-1074) := by
  have hx : 0 < x := (two_zpow_pos e).trans_le hlow
  have h₁ : e ≤ Int.log 2 x := (Int.zpow_le_iff_le_log (by norm_num) hx).mp (by exact_mod_cast hlow)
  have h₂ : Int.log 2 x < e + 1 :=
    (Int.lt_zpow_iff_log_lt (by norm_num) hx).mp (by exact_mod_cast hhigh)
  rw [quantum, show Int.log 2 x = e by omega]

@[simp] theorem rounded_zero : rounded 0 = 0 := by
  rw [rounded, zero_div, ← Nat.cast_zero, nearestEven_natCast, Nat.cast_zero, zero_mul]

theorem rounded_nonneg (x : ℚ) : 0 ≤ rounded x :=
  mul_nonneg (Nat.cast_nonneg _) (two_zpow_pos _).le

private theorem div_zpow_nonneg (hx : 0 ≤ x) (e : ℤ) : 0 ≤ x / 2 ^ e :=
  div_nonneg hx (two_zpow_pos e).le

theorem nearestEven_div_quantum_le (hx : 0 ≤ x) :
    nearestEven (x / 2 ^ quantum x) ≤ 2 ^ 53 := by
  refine (nearestEven_le_iff (div_zpow_nonneg hx _)).mpr (Or.inl ?_)
  rw [div_lt_iff₀ (two_zpow_pos _)]
  have h := lt_zpow_quantum x
  rw [show quantum x + 53 = quantum x + (53 : ℕ) by rfl, zpow_add_natCast] at h
  have := two_zpow_pos (quantum x)
  push_cast
  nlinarith

private theorem le_nearestEven_div_quantum (hx : 0 < x) (h : quantum x ≠ -1074) :
    2 ^ 52 ≤ nearestEven (x / 2 ^ quantum x) := by
  have hle := zpow_quantum_le hx h
  rw [show quantum x + 52 = quantum x + (52 : ℕ) by rfl, zpow_add_natCast,
    ← le_div_iff₀ (two_zpow_pos _)] at hle
  calc
    2 ^ 52 = nearestEven ((2 ^ 52 : ℕ) : ℚ) := (nearestEven_natCast _).symm
    _ ≤ nearestEven (x / 2 ^ quantum x) :=
      nearestEven_mono (Nat.cast_nonneg _) (by exact_mod_cast hle)

/-- A rounded mantissa fills its digits above the least quantum. -/
theorem full_nearestEven_div_quantum (hx : 0 < x) :
    2 ^ 52 ≤ nearestEven (x / 2 ^ quantum x) ∨ quantum x = -1074 := by
  by_cases h : quantum x = -1074
  · exact Or.inr h
  · exact Or.inl (le_nearestEven_div_quantum hx h)

/-- A rounded number lies at or below a double exactly if the number lies below the middle between
that double and the next. The middle itself goes to an even mantissa. -/
theorem rounded_le_iff (hx : 0 ≤ x) (h : Canonical m e) :
    rounded x ≤ m * 2 ^ e ↔
      x < (m + 1 / 2) * 2 ^ e ∨ x = (m + 1 / 2) * 2 ^ e ∧ Even m := by
  rcases hx.eq_or_lt with rfl | hpos
  · have : (0 : ℚ) < (m + 1 / 2) * 2 ^ e := mul_pos (by positivity) (two_zpow_pos e)
    have : (0 : ℚ) ≤ m * 2 ^ e := mul_nonneg m.cast_nonneg (two_zpow_pos e).le
    simp_all
  have hquantum := two_zpow_pos (quantum x)
  have hexp := two_zpow_pos e
  rcases lt_trichotomy e (quantum x) with hlt | rfl | hgt
  · -- The number lies in a higher binade than the double.
    have hne : quantum x ≠ -1074 := by
      have := h.le
      omega
    have hstep : (2 : ℚ) ^ 53 * 2 ^ e ≤ 2 ^ 52 * 2 ^ quantum x := by
      rw [← zpow_add_natCast, ← zpow_add_natCast]
      exact zpow_mono (by push_cast; omega)
    have hm : (m : ℚ) + 1 ≤ 2 ^ 53 := by exact_mod_cast h.lt
    have hbelow : (m + 1 / 2 : ℚ) * 2 ^ e < 2 ^ 52 * 2 ^ quantum x := by nlinarith
    have hself : (2 : ℚ) ^ 52 * 2 ^ quantum x ≤ x := by
      rw [← zpow_add_natCast]
      exact zpow_quantum_le hpos hne
    have hrounded : (2 : ℚ) ^ 52 * 2 ^ quantum x ≤ rounded x :=
      mul_le_mul_of_nonneg_right (by exact_mod_cast le_nearestEven_div_quantum hpos hne)
        hquantum.le
    constructor
    · intro hle
      nlinarith
    · rintro (hle | ⟨hle, -⟩) <;> linarith
  · rw [rounded, mul_le_mul_iff_left₀ hexp, Nat.cast_le,
      nearestEven_le_iff (div_zpow_nonneg hx _), div_lt_iff₀ hexp, div_eq_iff hexp.ne']
  · -- The number lies in a lower binade than the double.
    have hfull : 2 ^ 52 ≤ m := h.full.resolve_right (by
      have := neg_1074_le_quantum x
      omega)
    have hstep : (2 : ℚ) ^ 53 * 2 ^ quantum x ≤ 2 ^ 52 * 2 ^ e := by
      rw [← zpow_add_natCast, ← zpow_add_natCast]
      exact zpow_mono (by push_cast; omega)
    have hm : (2 : ℚ) ^ 52 * 2 ^ e ≤ m * 2 ^ e :=
      mul_le_mul_of_nonneg_right (by exact_mod_cast hfull) hexp.le
    have hself : x < (2 : ℚ) ^ 53 * 2 ^ quantum x := by
      rw [← zpow_add_natCast]
      exact lt_zpow_quantum x
    have hrounded : rounded x ≤ (2 : ℚ) ^ 53 * 2 ^ quantum x :=
      mul_le_mul_of_nonneg_right (by exact_mod_cast nearestEven_div_quantum_le hx) hquantum.le
    constructor
    · exact fun _ => Or.inl (by nlinarith)
    · exact fun _ => by linarith

/-- A rounded number is a double, apart from its exponent being too great. -/
theorem exists_canonical_rounded (hx : 0 ≤ x) :
    ∃ m e, Canonical m e ∧ rounded x = m * 2 ^ e := by
  rcases hx.eq_or_lt with rfl | hpos
  · exact ⟨0, -1074, ⟨by norm_num, le_rfl, Or.inr rfl⟩, by simp⟩
  rcases (nearestEven_div_quantum_le hx).lt_or_eq with hlt | heq
  · exact ⟨_, _, ⟨hlt, neg_1074_le_quantum x, full_nearestEven_div_quantum hpos⟩, rfl⟩
  · -- The mantissa has been rounded up to 54 digits.
    refine ⟨2 ^ 52, quantum x + 1, ⟨by norm_num, ?_, Or.inl le_rfl⟩, ?_⟩
    · have := neg_1074_le_quantum x
      omega
    · rw [rounded, heq, zpow_add_one₀ two_ne_zero]
      push_cast
      ring

/-- Rounding is monotone. -/
theorem rounded_mono (hx : 0 ≤ x) (hxy : x ≤ y) : rounded x ≤ rounded y := by
  have hy := hx.trans hxy
  obtain ⟨m, e, hcanonical, heq⟩ := exists_canonical_rounded hy
  rw [heq, rounded_le_iff hx hcanonical]
  rcases (rounded_le_iff hy hcanonical).mp heq.le with h | ⟨h, heven⟩
  · exact Or.inl (hxy.trans_lt h)
  · rcases (h ▸ hxy : x ≤ (m + 1 / 2) * 2 ^ e).lt_or_eq with hlt | htie
    · exact Or.inl hlt
    · exact Or.inr ⟨htie, heven⟩

/-- A number with at most 53 digits is kept, unless it lies below the least double. -/
theorem rounded_eq_self (hm : m < 2 ^ 53) (he : -1074 ≤ e) :
    rounded (m * 2 ^ e) = m * 2 ^ e := by
  rcases Nat.eq_zero_or_pos m with rfl | hpos
  · simp
  have hx : (0 : ℚ) < m * 2 ^ e := mul_pos (by exact_mod_cast hpos) (two_zpow_pos e)
  have hquantum : quantum (m * 2 ^ e) ≤ e := by
    by_contra hlt
    have hle := zpow_quantum_le hx (by omega)
    have hstep : (2 : ℚ) ^ (e + (53 : ℕ)) ≤ 2 ^ (quantum (m * 2 ^ e) + 52) :=
      zpow_mono (by push_cast; omega)
    rw [zpow_add_natCast] at hstep
    have : (m : ℚ) * 2 ^ e < 2 ^ 53 * 2 ^ e :=
      mul_lt_mul_of_pos_right (by exact_mod_cast hm) (two_zpow_pos e)
    linarith
  obtain ⟨k, hk⟩ := Int.le.dest hquantum
  -- The number is a whole multiple of its quantum.
  have hmultiple : (m : ℚ) * 2 ^ e = ((m * 2 ^ k : ℕ) : ℚ) * 2 ^ quantum (m * 2 ^ e) := by
    conv_lhs => rw [← hk, zpow_add_natCast]
    push_cast
    ring
  rw [rounded, (div_eq_iff (two_zpow_pos _).ne').mpr hmultiple, nearestEven_natCast, ← hmultiple]

/-- A double with a greater exponent lies behind the end of the binade. -/
theorem Canonical.two_pow_mul_le {m' : ℕ} {e' : ℤ} (h' : Canonical m' e') (he : -1074 ≤ e)
    (hlt : e < e') : (2 : ℚ) ^ 53 * 2 ^ e ≤ m' * 2 ^ e' := by
  have hfull : 2 ^ 52 ≤ m' := h'.full.resolve_right (by omega)
  calc
    (2 : ℚ) ^ 53 * 2 ^ e = 2 ^ (e + (53 : ℕ)) := (zpow_add_natCast e 53).symm
    _ ≤ 2 ^ (e' + (52 : ℕ)) := zpow_mono (by push_cast; omega)
    _ = 2 ^ 52 * 2 ^ e' := zpow_add_natCast e' 52
    _ ≤ m' * 2 ^ e' := mul_le_mul_of_nonneg_right (by exact_mod_cast hfull) (two_zpow_pos e').le

/-- Of two doubles the one with the greater exponent is greater. -/
theorem Canonical.lt_of_lt {m' : ℕ} {e' : ℤ} (h : Canonical m e) (h' : Canonical m' e')
    (hlt : e < e') : (m : ℚ) * 2 ^ e < m' * 2 ^ e' :=
  lt_of_lt_of_le (mul_lt_mul_of_pos_right (by exact_mod_cast h.lt) (two_zpow_pos e))
    (h'.two_pow_mul_le h.le hlt)

/-- No double lies between a double and the next one. -/
theorem Canonical.succ_le {m' : ℕ} {e' : ℤ} (h : Canonical m e) (h' : Canonical m' e')
    (hlt : (m : ℚ) * 2 ^ e < m' * 2 ^ e') : ((m + 1 : ℕ) : ℚ) * 2 ^ e ≤ m' * 2 ^ e' := by
  have hexp := two_zpow_pos e
  have hle : e ≤ e' := by
    by_contra hgt
    exact hlt.not_gt (h'.lt_of_lt h (not_le.mp hgt))
  obtain ⟨k, rfl⟩ := Int.le.dest hle
  rw [zpow_add_natCast, ← mul_assoc, mul_lt_mul_iff_left₀ hexp] at hlt
  rw [zpow_add_natCast, ← mul_assoc, mul_le_mul_iff_left₀ hexp]
  exact_mod_cast hlt

/-- The next double above a double is reached as soon as that one is passed. -/
theorem succ_le_rounded_iff (hx : 0 ≤ x) (h : Canonical m e) :
    ((m + 1 : ℕ) : ℚ) * 2 ^ e ≤ rounded x ↔ m * 2 ^ e < rounded x := by
  constructor
  · intro hle
    refine lt_of_lt_of_le ?_ hle
    exact mul_lt_mul_of_pos_right (by exact_mod_cast m.lt_succ_self) (two_zpow_pos e)
  · intro hlt
    obtain ⟨m', e', h', heq⟩ := exists_canonical_rounded hx
    rw [heq] at hlt ⊢
    exact h.succ_le h' hlt

/-- The quotient of a double by a greater one stays apart from one. -/
theorem Canonical.mul_two_pow_le {m' : ℕ} {e' : ℤ} (h : Canonical m e) (h' : Canonical m' e')
    (hlt : (m : ℚ) * 2 ^ e < m' * 2 ^ e') :
    (m : ℚ) * 2 ^ e * 2 ^ 53 ≤ (2 ^ 53 - 1) * (m' * 2 ^ e') := by
  have hexp := two_zpow_pos e
  have hm : (m : ℚ) + 1 ≤ 2 ^ 53 := by exact_mod_cast h.lt
  have hm' : (m' : ℚ) ≤ 2 ^ 53 := by exact_mod_cast h'.lt.le
  rcases lt_trichotomy e e' with hless | rfl | hgt
  · have hend := h'.two_pow_mul_le h.le hless
    have hself : (m : ℚ) * 2 ^ e ≤ (2 ^ 53 - 1) * 2 ^ e :=
      mul_le_mul_of_nonneg_right (by linarith) hexp.le
    linarith
  · have hsucc := h.succ_le h' hlt
    rw [mul_le_mul_iff_left₀ hexp] at hsucc
    push_cast at hsucc
    have hstep : (m : ℚ) * 2 ^ 53 ≤ (2 ^ 53 - 1) * m' := by linarith
    calc
      (m : ℚ) * 2 ^ e * 2 ^ 53 = m * 2 ^ 53 * 2 ^ e := mul_right_comm _ _ _
      _ ≤ (2 ^ 53 - 1) * m' * 2 ^ e := mul_le_mul_of_nonneg_right hstep hexp.le
      _ = (2 ^ 53 - 1) * (m' * 2 ^ e) := mul_assoc _ _ _
  · exact absurd (h'.lt_of_lt h hgt) hlt.not_gt

/-! ### Whole numbers -/

theorem rounded_natCast (h : n < 2 ^ 53) : rounded n = n := by
  have := rounded_eq_self h (e := 0) (by norm_num)
  rwa [zpow_zero, mul_one] at this

/-- A power of two bounds what is rounded as it bounds what is given. -/
theorem rounded_le_two_pow (hx : 0 ≤ x) {k : ℕ} (h : x ≤ 2 ^ k) : rounded x ≤ 2 ^ k := by
  have hpow : rounded (2 ^ k) = 2 ^ k := by
    have := rounded_eq_self (m := 1) (e := k) (by norm_num) (by omega)
    rwa [Nat.cast_one, one_mul, zpow_natCast] at this
  exact hpow ▸ rounded_mono hx h

theorem one_le_rounded (h : 0 < n) : 1 ≤ rounded n := calc
  1 = rounded ((1 : ℕ) : ℚ) := by rw [rounded_natCast (by norm_num), Nat.cast_one]
  _ ≤ rounded n := rounded_mono (Nat.cast_nonneg 1) (by exact_mod_cast h)

/-- A whole number is not rounded below the end of the exact ones. -/
theorem min_le_rounded (n : ℕ) : ((min n (2 ^ 53) : ℕ) : ℚ) ≤ rounded n := by
  rcases Nat.lt_or_ge n (2 ^ 53) with hfew | hmany
  · rw [min_eq_left hfew.le, rounded_natCast hfew]
  · have hself := rounded_eq_self (m := 1) (e := 53) (by norm_num) (by norm_num)
    have hmono : rounded (((1 : ℕ) : ℚ) * 2 ^ (53 : ℤ)) ≤ rounded n :=
      rounded_mono (by norm_num) (by norm_num; exact_mod_cast hmany)
    rw [hself] at hmono
    rw [min_eq_right hmany]
    norm_num at hmono ⊢
    exact hmono

end OsdLatency.Binary64
