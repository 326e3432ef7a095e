import OsdLatency.Proofs.Amounts
import OsdLatency.Proofs.Binary64.Accuracy
import OsdLatency.Proofs.Binary64.Halves

/-!
# Hundredths of milliseconds

A latency in a dump is brought to milliseconds, multiplied by a hundred, rounded to a whole number,
and divided by a hundred again. The double that holds the quotient is shown by the shortest decimal,
which is that of the whole number of hundredths. Between the halves all roundings are harmless, so
only a number of microseconds that ends in five can go wrong. Its quotient by a thousand is rounded
up or down; the product with a hundred makes a loss a hundred times as great, and where it is greater
than half the spacing of doubles below the half, the half is not reached again.

## Main definitions

* `IsHundredths` — a text of at most two places for a number of hundredths
* `FallsShort` — the numbers of microseconds that do not reach their half
* `shownHundredths` — the number of hundredths that is shown

## Main results

* `half_le_productValue_iff` — which halves are reached
* `hundredthsValue_eq` — the number that is shown
* `isHundredths_rounded_iff` — the text of a latency, and which ones are rounded half up
-/

namespace OsdLatency

open Binary64 Text

variable {m n k : ℕ} {e : ℤ} {q : ℚ} {v : UInt64} {x : Float}

/-- A number of hundredths in digits, with one or two places. -/
def IsHundredths (n : ℕ) (text : List Char) : Prop := ∃ places ≤ 2, IsDecimal (n / 100) places text

theorem IsHundredths.unique {text : List Char} (hn : IsHundredths n text)
    (hk : IsHundredths k text) : n = k := by
  obtain ⟨_, -, hn⟩ := hn
  obtain ⟨_, -, hk⟩ := hk
  have heq : (n : ℚ) = k := by linarith [hn.unique hk]
  exact_mod_cast heq

/-- The numbers of microseconds that end in five and do not reach their half. A fifth `j` of such a
number is the number of halves, and its quotient by two hundred lies six binades below them and not
seven, so that the product lacks what the quotient has dropped in parts of 16. Eight parts are made
good, and from 13 on the quotient has been rounded up. -/
def FallsShort (n : ℕ) : Prop :=
  n % 10 = 5 ∧ 25 * 2 ^ (n / 5).log2 ≤ 16 * (n / 5) ∧
    8 < n / 5 * 2 ^ (56 - (n / 5).log2) % 25 ∧ n / 5 * 2 ^ (56 - (n / 5).log2) % 25 < 13

instance : DecidablePred FallsShort := fun _ => inferInstanceAs (Decidable (_ ∧ _ ∧ _ ∧ _))

/-- The number of hundredths of a millisecond that is shown for a number of microseconds. -/
def shownHundredths (n : ℕ) : ℕ := if FallsShort n then n / 10 else (n + 5) / 10

/-! ### Which halves are reached -/

/-- A number of microseconds in hundredths of a millisecond, before it is brought to a whole
number. -/
def productValue (n : ℕ) : ℚ := rounded (rounded (n / 1000) * 100)

/-- A number that ends in five reaches its half unless it falls short. -/
theorem half_le_productValue_iff (hfive : n % 10 = 5) (hlt : n < 2 ^ 40) :
    (n / 10 : ℚ) ≤ productValue n ↔ ¬FallsShort n := by
  obtain ⟨j, rfl⟩ : ∃ j, n = 5 * j := ⟨n / 5, by omega⟩
  have hodd : Odd j := Nat.odd_iff.mpr (by omega)
  have hpos : 0 < j := hodd.pos
  have hlog : j.log2 < 40 := (Nat.log2_lt hpos.ne').mpr (by omega)
  have hthousandth : ((5 * j : ℕ) : ℚ) / 1000 = j / 200 := by
    push_cast
    ring
  have htenth : ((5 * j : ℕ) : ℚ) / 10 = j / 2 := by
    push_cast
    ring
  have hquantum := quantum_div hpos
  have hzeros (i : ℕ) (hi : j.log2 ≤ i) : j * 2 ^ i = j * 2 ^ (i - j.log2) * 2 ^ j.log2 := by
    rw [mul_assoc, ← pow_add, Nat.sub_add_cancel hi]
  rw [productValue, hthousandth, htenth, FallsShort, Nat.mul_div_cancel_left j (by norm_num)]
  by_cases h : 25 * 2 ^ j.log2 ≤ 16 * j
  · rw [if_pos h] at hquantum
    have hone : j = 1 → 13 ≤ j * 2 ^ (56 - j.log2) % 25 := by
      rintro rfl
      exact absurd h (by decide)
    rw [half_le_product_iff hodd (by omega) hquantum (hzeros 56 (by omega)) hone]
    omega
  · rw [if_neg h] at hquantum
    have hone : j = 1 → 13 ≤ j * 2 ^ (57 - j.log2) % 25 := by
      rintro rfl
      decide
    rw [half_le_product_iff hodd (by omega) hquantum (hzeros 57 (by omega)) hone]
    omega

/-! ### The number of hundredths -/

/-- The two operations move a number of hundredths by little. -/
theorem abs_productValue_sub_le (hlt : n < 2 ^ 40) : |productValue n - n / 10| ≤ 1 / 20 := by
  rcases Nat.eq_zero_or_pos n with rfl | hpos
  · norm_num [productValue]
  have hone : (1 : ℚ) ≤ n := by exact_mod_cast hpos
  have hlt' : (n : ℚ) < 2 ^ 40 := by exact_mod_cast hlt
  have hnormal {q : ℚ} (hq : 1 / 2000 ≤ q) : (2 : ℚ) ^ (-1022 : ℤ) ≤ q := calc
    (2 : ℚ) ^ (-1022 : ℤ) ≤ 2 ^ (-11 : ℤ) := zpow_le_zpow_right₀ (by norm_num) (by norm_num)
    _ ≤ 1 / 2000 := by norm_num
    _ ≤ q := hq
  obtain ⟨hlow, hhigh⟩ := abs_le.mp (isWithin_rounded (x := n / 1000) (hnormal (by linarith)))
  obtain ⟨hlow', hhigh'⟩ := abs_le.mp
    (isWithin_rounded (x := rounded (n / 1000) * 100) (hnormal (by linarith)))
  rw [productValue, abs_le]
  constructor <;> linarith

theorem shownHundredths_of_ne (h : n % 10 ≠ 5) : shownHundredths n = (n + 5) / 10 :=
  if_neg fun hshort => h hshort.1

/-- The product is brought to the number of hundredths that is shown. -/
theorem floor_productValue (hlt : n < 2 ^ 40) :
    ⌊productValue n + 1 / 2⌋₊ = shownHundredths n := by
  obtain ⟨hlow, hhigh⟩ := abs_le.mp (abs_productValue_sub_le hlt)
  have hnonneg : 0 ≤ productValue n + 1 / 2 := add_nonneg (rounded_nonneg _) (by norm_num)
  rw [Nat.floor_eq_iff hnonneg]
  by_cases hfive : n % 10 = 5
  · have hhalf := half_le_productValue_iff hfive hlt
    rw [shownHundredths]
    split_ifs with hshort
    · have hbelow := not_le.mp fun hle => hhalf.mp hle hshort
      have hdigits : (10 * (n / 10 : ℕ) + 5 : ℚ) = n := by
        exact_mod_cast (by omega : 10 * (n / 10) + 5 = n)
      constructor <;> linarith
    · have hreached := hhalf.mpr hshort
      have hdigits : (10 * ((n + 5) / 10 : ℕ) : ℚ) = n + 5 := by
        exact_mod_cast (by omega : 10 * ((n + 5) / 10) = n + 5)
      constructor <;> linarith
  · -- No half lies near.
    rw [shownHundredths_of_ne hfive]
    have hlow' : (10 * ((n + 5) / 10 : ℕ) + 1 : ℚ) ≤ n + 5 := by
      exact_mod_cast (by omega : 10 * ((n + 5) / 10) + 1 ≤ n + 5)
    have hhigh' : (n + 5 : ℚ) ≤ 10 * ((n + 5) / 10 : ℕ) + 9 := by
      exact_mod_cast (by omega : n + 5 ≤ 10 * ((n + 5) / 10) + 9)
    constructor <;> linarith

theorem shownHundredths_lt (hlt : n < 2 ^ 40) : shownHundredths n < 2 ^ 40 := by
  rw [shownHundredths]
  split_ifs <;> omega

/-- The double that is shown is the one of the number of hundredths. -/
theorem hundredthsValue_eq (hlt : v.toNat < 2 ^ 40) :
    hundredthsValue (scaledValue .millis v) = rounded (shownHundredths v.toNat / 100) := by
  have hshown := shownHundredths_lt hlt
  rw [hundredthsValue, scaledValue, rounded_natCast (hlt.trans (by norm_num)), ← productValue,
    floor_productValue hlt, rounded_natCast (hshown.trans (by norm_num))]

/-! ### The text -/

/-- The double of some hundredths is not too small and not too great. -/
theorem rounded_hundredths_mem (hpos : 0 < n) (hlt : n < 2 ^ 40) :
    (2 : ℚ) ^ (-7 : ℤ) ≤ rounded (n / 100) ∧ rounded (n / 100) < 2 ^ (41 : ℤ) := by
  have hone : (1 : ℚ) ≤ n := by exact_mod_cast hpos
  have hlt' : (n : ℚ) < 2 ^ 40 := by exact_mod_cast hlt
  constructor
  · have hself := rounded_eq_self (m := 1) (e := -7) (by norm_num) (by norm_num)
    rw [Nat.cast_one, one_mul] at hself
    rw [← hself]
    exact rounded_mono (by positivity) (by norm_num; linarith)
  · have hle : rounded (n / 100) ≤ 2 ^ 40 := rounded_le_two_pow (by positivity) (by linarith)
    exact hle.trans_lt (by norm_num)

/-- The shortest decimal of such a double. -/
theorem isHundredths_positional (h : Canonical m e) (hm : 0 < m) (hpos : 0 < n) (hlt : n < 2 ^ 40)
    (heq : rounded (n / 100) = m * 2 ^ e) :
    IsHundredths n (shortest .up m e).positional := by
  obtain ⟨hlow, hhigh⟩ := rounded_hundredths_mem hpos hlt
  rw [heq] at hlow hhigh
  obtain ⟨hfirst, hlast⟩ := log2_add_of_mem hm hlow hhigh
  have hexponent : e ≤ -12 := by
    rcases h.full with hfull | he
    · have hlog := (Nat.le_log2 hm.ne').mpr hfull
      omega
    · omega
  have hwidth : (2 : ℚ) ^ e < 10 ^ (-2 : ℤ) :=
    (zpow_le_zpow_right₀ (by norm_num) hexponent).trans_lt (by norm_num)
  have hplaces : (n : ℚ) * 10 ^ (-2 : ℤ) = n / 100 := by
    norm_num
    ring
  have hgiven : rounded ((n : ℚ) * 10 ^ (-2 : ℤ)) = m * 2 ^ e := by rw [hplaces, heq]
  obtain ⟨hvalue, hplace⟩ := value_shortest h hm .up hgiven hwidth
    (by rw [coarsePlace]; omega) (by rw [coarsePlace]; omega)
  rw [hplaces] at hvalue
  exact ⟨_, by omega, hvalue ▸ isDecimal_positional _⟩

/-- The text of the double of a number of hundredths. -/
theorem Binary64.HasValue.isHundredths_plain (h : HasValue x q) (hq : rounded (n / 100) = q)
    (hlt : n < 2 ^ 40) : IsHundredths n (Amount.plain x).toList := by
  rw [HasValue] at h
  rw [Amount.plain]
  generalize x.toModel.unpack = u at h ⊢
  rcases Nat.eq_zero_or_pos n with rfl | hpos
  · rw [Nat.cast_zero, zero_div, rounded_zero] at hq
    cases h with
    | zero =>
      exact ⟨1, by norm_num, ['0'], ['0'], by simp [signText], by decide, by decide, rfl,
        by simp [decimalValue, Nat.ofDigits]⟩
    | @finite m e hm h => exact absurd hq (by positivity)
  · cases h with
    | zero =>
      have hlow := (rounded_hundredths_mem hpos hlt).1
      rw [hq] at hlow
      exact absurd hlow (by norm_num)
    | @finite m e hm h => simpa [signText] using isHundredths_positional h hm hpos hlt hq

theorem isHundredths_rounded (hlt : v.toNat < 2 ^ 40) :
    IsHundredths (shownHundredths v.toNat) (TimeUnit.millis.rounded v).toList := by
  obtain ⟨x, htext, hvalue⟩ := exists_hasValue_rounded v
  rw [htext]
  exact hvalue.isHundredths_plain (hundredthsValue_eq hlt).symm (shownHundredths_lt hlt)

/-- A latency below 2 ^ 40 microseconds is shown by a whole number of hundredths of a millisecond: by
the nearest one, a half going up unless it falls short, and down then. -/
theorem isHundredths_rounded_iff (hlt : v.toNat < 2 ^ 40) :
    (∀ n, IsHundredths n (TimeUnit.millis.rounded v).toList ↔ n = shownHundredths v.toNat) ∧
    (IsHundredths ((v.toNat + 5) / 10) (TimeUnit.millis.rounded v).toList ↔
      ¬FallsShort v.toNat) := by
  have hshown := isHundredths_rounded hlt
  have hiff (n : ℕ) : IsHundredths n (TimeUnit.millis.rounded v).toList ↔
      n = shownHundredths v.toNat :=
    ⟨fun h => h.unique hshown, fun h => h ▸ hshown⟩
  refine ⟨hiff, (hiff _).trans ?_⟩
  rw [shownHundredths]
  split_ifs with hshort
  · have hfive := hshort.1
    exact iff_of_false (by omega) (not_not.mpr hshort)
  · exact iff_of_true rfl hshort

theorem isHundredths_rounded_fallen : (145 : UInt64).toNat < 2 ^ 40 ∧ FallsShort 145 ∧
    (∀ n, IsHundredths n (TimeUnit.millis.rounded 145).toList ↔ n = 14) ∧
    ¬IsHundredths 15 (TimeUnit.millis.rounded 145).toList := by
  have hlt : (145 : UInt64).toNat < 2 ^ 40 := by decide
  have hshort : FallsShort (145 : UInt64).toNat := by decide
  have hshown : shownHundredths (145 : UInt64).toNat = 14 := by decide
  obtain ⟨hall, hhalf⟩ := isHundredths_rounded_iff hlt
  rw [hshown] at hall
  exact ⟨hlt, hshort, hall, fun h => hhalf.mp h hshort⟩

example : TimeUnit.millis.rounded 135 = "0.14" ∧ TimeUnit.millis.rounded 145 = "0.14" := by
  decide +kernel

/-- Not every half goes up: 145 microseconds are shown as 14 hundredths of a millisecond. -/
theorem not_forall_isHundredths_rounded : ¬∀ v : UInt64, v.toNat < 2 ^ 40 →
    IsHundredths ((v.toNat + 5) / 10) (TimeUnit.millis.rounded v).toList := by
  intro hlaw
  have heq := (hlaw 145 (by decide)).unique (isHundredths_rounded (by decide))
  exact absurd heq (by decide)

end OsdLatency
