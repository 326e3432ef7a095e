import OsdLatency.Proofs.Binary64.Value
import OsdLatency.Share

/-!
# The range of a share

A share is cut to 99.99 where the quotient of the two doubles reaches one, and stays as it is
below. So it never reaches a hundred. Between 99.99 and a hundred a gap is left: a value that is
nearly all of its total has a share above the cap.

## Main definitions

* `shareRatio` — the exact quotient behind a share
* `NearlyWhole` — the quotient lies in the gap
* `shareValue` — the number that a share holds

## Main results

* `hasValue_share` — a share as a number
* `shareValue_lt`, `shareValue_le_capValue_iff` — its range, and what the cap leaves out
-/

namespace OsdLatency

open Binary64

variable {value total n : UInt64} {q : ℚ}

/-- The number that the cap holds, the double nearest to 99.99. -/
def capValue : ℚ := (7036170730324623 : ℕ) * 2 ^ (-46 : ℤ)

/-- The quotient above which a percentage is rounded above the cap. -/
def capRatio : ℚ := 18012597069631037 / 2 ^ 54

/-- The quotient of two amounts, taken as doubles. -/
def shareRatio (value total : UInt64) : ℚ := rounded value.toNat / rounded total.toNat

/-- A value is nearly all of its total: less than the whole, and more than the cap stands for. -/
def NearlyWhole (value total : UInt64) : Prop :=
  capRatio < shareRatio value total ∧ shareRatio value total < 1

/-- A quotient in percent, rounded like the quotient itself. -/
def percentOf (q : ℚ) : ℚ := rounded (rounded q * 100)

/-- The number that a share holds. -/
def shareValue (value total : UInt64) : ℚ :=
  if 1 ≤ shareRatio value total then capValue else percentOf (shareRatio value total)

/-! ### Amounts and bounds -/

theorem rounded_toNat_le (n : UInt64) : rounded n.toNat ≤ 2 ^ 64 :=
  rounded_le_two_pow (Nat.cast_nonneg _) (by exact_mod_cast n.toNat_lt.le)

theorem hasValue_toFloat (n : UInt64) : HasValue n.toFloat (rounded n.toNat) :=
  hasValue_ofNat (lt_two_pow_of_le (rounded_toNat_le n) (by norm_num))

theorem one_le_rounded_toNat (h : n ≠ 0) : 1 ≤ rounded n.toNat :=
  one_le_rounded (Nat.pos_of_ne_zero fun hn => h (UInt64.toNat.inj hn))

theorem hasValue_hundred : HasValue 100.0 100 := by
  have hdouble : (100.0 : Float) = ofNat 100 := by decide +kernel
  rw [hdouble]
  exact hasValue_natCast (n := 100) (by norm_num)

theorem canonical_cap : Canonical 7036170730324623 (-46) :=
  ⟨by norm_num, by norm_num, Or.inl (by norm_num)⟩

theorem hasValue_shareCap : HasValue shareCap capValue :=
  .finite (by norm_num) canonical_cap

theorem capValue_lt : capValue < 100 := by
  norm_num [capValue]

/-! ### Quotients -/

theorem shareRatio_nonneg (value total : UInt64) : 0 ≤ shareRatio value total :=
  div_nonneg (rounded_nonneg _) (rounded_nonneg _)

theorem shareRatio_le (h : total ≠ 0) : shareRatio value total ≤ 2 ^ 64 :=
  (div_le_self (rounded_nonneg _) (one_le_rounded_toNat h)).trans (rounded_toNat_le value)

/-- The quotient of two doubles is rounded to one or more only if it is. -/
theorem one_le_rounded_shareRatio (h : total ≠ 0) :
    1 ≤ rounded (shareRatio value total) ↔ 1 ≤ shareRatio value total := by
  have htotal : 0 < rounded total.toNat := one_pos.trans_le (one_le_rounded_toNat h)
  constructor
  · intro hle
    by_contra hlt
    obtain ⟨m, e, hm, hvalue⟩ := exists_canonical_rounded (x := value.toNat) (Nat.cast_nonneg _)
    obtain ⟨m', e', hm', htotal'⟩ := exists_canonical_rounded (x := total.toNat) (Nat.cast_nonneg _)
    rw [shareRatio, one_le_div htotal, not_le, hvalue, htotal'] at hlt
    -- Apart from one the quotient is rounded to the double below one, or to a smaller one.
    have happart : shareRatio value total ≤ ((2 ^ 53 - 1 : ℕ) : ℚ) * 2 ^ (-53 : ℤ) := by
      have hdistance := hm.mul_two_pow_le hm' hlt
      rw [← hvalue, ← htotal'] at hdistance
      rw [shareRatio, div_le_iff₀ htotal]
      norm_num
      linarith
    have hself := rounded_eq_self (m := 2 ^ 53 - 1) (e := -53) (by norm_num) (by norm_num)
    have hbelow := (rounded_mono (shareRatio_nonneg value total) happart).trans_eq hself
    exact absurd (hle.trans hbelow) (by norm_num)
  · intro hle
    have hone := rounded_natCast (n := 1) (by norm_num)
    rw [Nat.cast_one] at hone
    exact hone ▸ rounded_mono zero_le_one hle

/-! ### Percentages -/

/-- A percentage is bounded by a double if the quotient is bounded by a hundredth of it. -/
theorem percentOf_le_iff {m n : ℕ} (hq : 0 ≤ q) (hm : Canonical m (-46)) (hn : Canonical n (-53))
    (hodd : ¬Even m) (hlow : 200 * n < (2 * m + 1) * 2 ^ 7)
    (hhigh : (2 * m + 1) * 2 ^ 7 ≤ 200 * (n + 1)) :
    percentOf q ≤ m * 2 ^ (-46 : ℤ) ↔ rounded q ≤ n * 2 ^ (-53 : ℤ) := by
  have hlow' : (200 : ℚ) * n < (2 * m + 1) * 2 ^ 7 := by exact_mod_cast hlow
  have hhigh' : (2 * m + 1 : ℚ) * 2 ^ 7 ≤ 200 * (n + 1) := by exact_mod_cast hhigh
  have hproduct : 0 ≤ rounded q * 100 := mul_nonneg (rounded_nonneg q) (by norm_num)
  rw [percentOf, rounded_le_iff hproduct hm]
  constructor
  · intro h
    have hbelow : rounded q * 100 < (m + 1 / 2) * 2 ^ (-46 : ℤ) :=
      h.resolve_right fun htie => hodd htie.2
    by_contra hlt
    have hnext := (succ_le_rounded_iff hq hn).mpr (not_le.mp hlt)
    norm_num at hbelow hnext
    linarith
  · intro hle
    refine Or.inl ?_
    norm_num at hle ⊢
    linarith

/-- A percentage reaches a hundred exactly if the rounded quotient reaches one. -/
theorem hundred_le_percentOf_iff (hq : 0 ≤ q) : 100 ≤ percentOf q ↔ 1 ≤ rounded q := by
  have hm : Canonical 7036874417766399 (-46) := ⟨by norm_num, by norm_num, Or.inl (by norm_num)⟩
  have hn : Canonical (2 ^ 53 - 1) (-53) := ⟨by norm_num, by norm_num, Or.inl (by norm_num)⟩
  have hproduct : 0 ≤ rounded q * 100 := mul_nonneg (rounded_nonneg q) (by norm_num)
  -- Both bounds are passed as soon as the doubles in front of them are.
  have hpercent := succ_le_rounded_iff hproduct hm
  have hquotient := succ_le_rounded_iff hq hn
  have hbelow := percentOf_le_iff hq hm hn (by decide) (by norm_num) (by norm_num)
  norm_num at hpercent hquotient hbelow
  rw [percentOf, hpercent, hquotient, ← not_le, ← not_le, not_iff_not]
  exact hbelow

/-- The quotients whose percentage does not pass the cap. -/
theorem percentOf_le_capValue_iff (hq : 0 ≤ q) : percentOf q ≤ capValue ↔ q ≤ capRatio := by
  have hn : Canonical 9006298534815518 (-53) := ⟨by norm_num, by norm_num, Or.inl (by norm_num)⟩
  rw [capValue, percentOf_le_iff hq canonical_cap hn (by decide) (by norm_num) (by norm_num),
    rounded_le_iff hq hn]
  -- The last such quotient has an even mantissa, so that the middle behind it belongs to it.
  have hmiddle : ((9006298534815518 : ℕ) + 1 / 2 : ℚ) * 2 ^ (-53 : ℤ) = capRatio := by
    norm_num [capRatio]
  have heven : Even 9006298534815518 := by decide
  rw [hmiddle, and_iff_left heven, ← le_iff_lt_or_eq]

/-! ### Shares -/

theorem hasValue_percent (value : UInt64) (h : total ≠ 0) :
    HasValue (value.toFloat / total.toFloat * 100.0) (percentOf (shareRatio value total)) := by
  have htotal : rounded total.toNat ≠ 0 := (one_pos.trans_le (one_le_rounded_toNat h)).ne'
  have hquotient : rounded (shareRatio value total) ≤ 2 ^ 64 :=
    rounded_le_two_pow (shareRatio_nonneg value total) (shareRatio_le h)
  have hpercent : percentOf (shareRatio value total) ≤ 2 ^ 71 := by
    refine rounded_le_two_pow (mul_nonneg (rounded_nonneg _) (by norm_num)) ?_
    linarith
  have hratio : HasValue (value.toFloat / total.toFloat) (rounded (shareRatio value total)) :=
    (hasValue_toFloat value).div (hasValue_toFloat total) htotal
      (lt_two_pow_of_le hquotient (by norm_num))
  exact hratio.mul hasValue_hundred (lt_two_pow_of_le hpercent (by norm_num))

/-- A share as a number. -/
theorem hasValue_share (h : total ≠ 0) : HasValue (share value total) (shareValue value total) := by
  have hpercent := hasValue_percent value h
  have hcut : 100.0 ≤ value.toFloat / total.toFloat * 100.0 ↔ 1 ≤ shareRatio value total := by
    rw [hasValue_hundred.le_iff hpercent, hundred_le_percentOf_iff (shareRatio_nonneg _ _),
      one_le_rounded_shareRatio h]
  rw [share, shareValue]
  simp only [hcut]
  split_ifs
  · exact hasValue_shareCap
  · exact hpercent

/-- A share never reaches a hundred. -/
theorem shareValue_lt (h : total ≠ 0) : shareValue value total < 100 := by
  rw [shareValue]
  split_ifs with hwhole
  · exact capValue_lt
  · rw [← not_le, hundred_le_percentOf_iff (shareRatio_nonneg _ _), one_le_rounded_shareRatio h]
    exact hwhole

/-- A share passes the cap exactly if the value is nearly all of its total. -/
theorem shareValue_le_capValue_iff :
    shareValue value total ≤ capValue ↔ ¬NearlyWhole value total := by
  rw [shareValue, NearlyWhole]
  split_ifs with hwhole
  · exact iff_of_true le_rfl fun hnear => hnear.2.not_ge hwhole
  · rw [percentOf_le_capValue_iff (shareRatio_nonneg _ _), and_iff_left (not_le.mp hwhole), not_lt]

end OsdLatency
