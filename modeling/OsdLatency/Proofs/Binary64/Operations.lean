import OsdLatency.Proofs.Binary64.Unpacked

/-!
# Operations on doubles

The result of an operation on doubles without a minus sign is the exact result, rounded once, and
doubles are ordered like their numbers.

## Main results

* `Denotes.add`, `Denotes.mul`, `Denotes.div`, `denotes_ofNat` — the operations
* `Denotes.compare_eq` — the order
-/

namespace OsdLatency.Binary64

open Float.Model
open Float.Model.UnpackedFloat hiding pack unpack

variable {q r : ℚ} {m n : ℕ} {d e : ℤ} {u v : UnpackedFloat}

theorem Denotes.nonneg (h : Denotes u q) : 0 ≤ q := by
  cases h with
  | zero => exact le_rfl
  | finite => exact mul_nonneg (Nat.cast_nonneg _) (zpow_pos (by norm_num) _).le

/-- Doubles stay as they are. -/
theorem Denotes.rounded_eq (h : Denotes u q) : rounded q = q := by
  cases h with
  | zero => exact rounded_zero
  | finite hm h => exact rounded_eq_self h.lt h.le

/-! ### Arithmetic -/

/-- A mantissa brought to a smaller exponent stands for the same number. -/
theorem decreaseExponent_eq (m : ℕ) (h : d ≤ e) :
    ((decreaseExponent m e d).1 : ℚ) * 2 ^ d = m * 2 ^ e := by
  obtain ⟨k, rfl⟩ := Int.le.dest h
  have hk : (d + k - d).toNat = k := by omega
  simp only [decreaseExponent, Nat.shiftLeft_eq, hk, zpow_add_natCast]
  push_cast
  ring

theorem decreaseExponent_pos (hm : 0 < m) (e d : ℤ) : 0 < (decreaseExponent m e d).1 := by
  simp only [decreaseExponent, Nat.shiftLeft_eq]
  positivity

theorem denotes_normalize (hm : 0 < m) (e : ℤ) (zeroSign : Sign) :
    Denotes (UnpackedFloat.normalize .binary64 m e zeroSign) (rounded (m * 2 ^ e)) := by
  rw [UnpackedFloat.normalize, Int.compare_eq_gt.mpr (by exact_mod_cast hm)]
  exact denotes_round hm e

theorem Denotes.add (hu : Denotes u q) (hv : Denotes v r) :
    Denotes (UnpackedFloat.add .binary64 u v) (rounded (q + r)) := by
  cases hu with
  | zero =>
    rw [zero_add, hv.rounded_eq]
    cases hv with
    | zero => exact .zero
    | finite hm h => exact .finite hm h
  | @finite m e hm h =>
    cases hv with
    | zero =>
      rw [add_zero, rounded_eq_self h.lt h.le]
      exact .finite hm h
    | @finite m' e' hm' h' =>
      -- Both mantissas are brought to the smaller exponent, where they are added.
      rw [← decreaseExponent_eq m (min_le_left e e'), ← decreaseExponent_eq m' (min_le_right e e'),
        ← add_mul, ← Nat.cast_add]
      exact denotes_normalize (Nat.add_pos_left (decreaseExponent_pos hm e _) _) _ _

theorem Denotes.mul (hu : Denotes u q) (hv : Denotes v r) :
    Denotes (UnpackedFloat.mul .binary64 u v) (rounded (q * r)) := by
  cases hu with
  | zero =>
    rw [zero_mul, rounded_zero]
    cases hv <;> exact .zero
  | @finite m e hm h =>
    cases hv with
    | zero =>
      rw [mul_zero, rounded_zero]
      exact .zero
    | @finite m' e' hm' h' =>
      have hpos : 0 < m * m' := Nat.mul_pos hm hm'
      rw [mul_mul_mul_comm, ← zpow_add₀ two_ne_zero, ← Nat.cast_mul]
      refine denotes_roundWithAccuracy (by exact_mod_cast hpos) (describes_exact _) ?_
      -- A product has enough digits unless both factors lie below the normal range.
      rw [Nat.le_log2 hpos.ne']
      rcases h.full with hfull | he
      · exact Or.inl (hfull.trans (Nat.le_mul_of_pos_right _ hm'))
      rcases h'.full with hfull | he'
      · exact Or.inl (hfull.trans (Nat.le_mul_of_pos_left _ hm))
      · exact Or.inr (by omega)

/-- A quotient has enough digits if zeros are put behind the numerator first. -/
theorem le_log2_div (hm : 0 < m) (hn : 0 < n) {k : ℕ} (h : 53 + n.log2 ≤ m.log2 + k) :
    52 ≤ (m * 2 ^ k / n).log2 := by
  have hle : 2 ^ 52 ≤ m * 2 ^ k / n := by
    rw [Nat.le_div_iff_mul_le hn]
    calc
      2 ^ 52 * n ≤ 2 ^ 52 * 2 ^ (n.log2 + 1) := Nat.mul_le_mul_left _ Nat.lt_log2_self.le
      _ = 2 ^ (53 + n.log2) := by rw [← pow_add]; congr 1; omega
      _ ≤ 2 ^ (m.log2 + k) := Nat.pow_le_pow_right (by norm_num) h
      _ = 2 ^ m.log2 * 2 ^ k := pow_add _ _ _
      _ ≤ m * 2 ^ k := Nat.mul_le_mul_right _ (Nat.log2_self_le hm.ne')
  have hpos : m * 2 ^ k / n ≠ 0 := by
    have : 0 < 2 ^ 52 := by norm_num
    omega
  exact (Nat.le_log2 hpos).mpr hle

theorem Denotes.div (hu : Denotes u q) (hv : Denotes v r) (hr : r ≠ 0) :
    Denotes (UnpackedFloat.div .binary64 u v) (rounded (q / r)) := by
  cases hv with
  | zero => exact absurd rfl hr
  | @finite n d hn h' =>
    cases hu with
    | zero =>
      rw [zero_div, rounded_zero]
      exact .zero
    | @finite m e hm h =>
      have hn' : (n : ℚ) ≠ 0 := by exact_mod_cast hn.ne'
      -- Zeros are put behind the numerator, so that the quotient has enough digits.
      obtain ⟨t, ht⟩ : ∃ t, t = min (e - d) (Format.binary64.targetExponent
          (totalExponent m e - totalExponent n d)) := ⟨_, rfl⟩
      have hbound : t ≤ e - d ∧ (t ≤ -1074 ∨ t ≤ m.log2 + e - (n.log2 + d) - 53) := by
        rw [ht, targetExponent_binary64, totalExponent, totalExponent]
        omega
      obtain ⟨k, hk⟩ := Int.le.dest hbound.1
      have hshift : (e - d - t).toNat = k := by omega
      have hvalue : (m * 2 ^ e / (n * 2 ^ d) : ℚ) = ((m * 2 ^ k : ℕ) / n : ℚ) * 2 ^ t := by
        rw [mul_div_mul_comm, ← zpow_sub₀ two_ne_zero, ← hk, zpow_add_natCast]
        push_cast
        ring
      have hcore : divCore .binary64 m e n d =
          (m * 2 ^ k / n, t, accuracyOfFraction (m * 2 ^ k % n) n) := by
        simp only [divCore, ← ht, hshift, Nat.shiftLeft_eq]
      change Denotes (roundWithAccuracy .binary64 .positive (divCore .binary64 m e n d).1
        (divCore .binary64 m e n d).2.1 (divCore .binary64 m e n d).2.2) _
      rw [hcore, hvalue]
      refine denotes_roundWithAccuracy ?_ (describes_fraction hn) ?_
      · have : 0 < m * 2 ^ k := by positivity
        exact div_pos (by exact_mod_cast this) (by exact_mod_cast hn)
      · rcases hbound.2 with hle | hle
        · exact Or.inr hle
        · exact Or.inl (le_log2_div hm hn (by omega))

theorem denotes_ofNat (n : ℕ) : Denotes (UnpackedFloat.ofNat .binary64 n) (rounded n) := by
  rcases Nat.eq_zero_or_pos n with rfl | hn
  · rw [Nat.cast_zero, rounded_zero]
    exact .zero
  · have h := denotes_normalize hn 0 .positive
    rwa [zpow_zero, mul_one] at h

/-! ### Order -/

/-- Doubles without a minus sign are ordered like their numbers. -/
theorem Denotes.compare_eq (hu : Denotes u q) (hv : Denotes v r) :
    u.compare v = some (cmp q r) := by
  have hpos : ∀ {m : ℕ} {e : ℤ}, 0 < m → (0 : ℚ) < m * 2 ^ e := fun hm =>
    mul_pos (by exact_mod_cast hm) (zpow_pos (by norm_num) _)
  cases hu with
  | zero =>
    cases hv with
    | zero => rw [cmp_self_eq_eq]; rfl
    | finite hm h => rw [(hpos hm).cmp_eq_lt]; rfl
  | @finite m e hm h =>
    cases hv with
    | zero => rw [(hpos hm).cmp_eq_gt]; rfl
    | @finite m' e' hm' h' =>
      change some ((compare e e').then (compare m m')) = _
      -- Of two doubles the one with the greater exponent is greater.
      rcases lt_trichotomy e e' with hlt | rfl | hgt
      · rw [Int.compare_eq_lt.mpr hlt, (h.lt_of_lt h' hlt).cmp_eq_lt]
        rfl
      · rw [Int.compare_eq_eq.mpr rfl, cmp_mul_pos_right (zpow_pos (by norm_num) _)]
        rw [(Nat.strictMono_cast (α := ℚ)).cmp_map_eq, cmp_eq_compare]
        rfl
      · rw [Int.compare_eq_gt.mpr hgt, (h'.lt_of_lt h hgt).cmp_eq_gt]
        rfl

end OsdLatency.Binary64
