import OsdLatency.Proofs.Binary64.Nearest

/-!
# The model of doubles rounds to the nearest double

The model of a double keeps a mantissa with two more digits while it rounds: the next digit, and
whether any other digit follows. These say on which side of the middle the exact number lies, so
that a mantissa that is shifted and rounded gives the nearest double.

## Main definitions

* `Describes` — the number that an extended mantissa stands for
* `Denotes` — a double without a minus sign stands for a number

## Main results

* `Describes.roundedMantissa` — an extended mantissa is rounded to the nearest whole number
* `denotes_roundWithAccuracy`, `denotes_round` — a number is rounded to the nearest double
-/

namespace OsdLatency.Binary64

open Float.Model
open Float.Model.UnpackedFloat hiding pack unpack

variable {em : ExtendedMantissa} {w : ℚ} {m n : ℕ} {e : ℤ}

/-! ### Extended mantissas -/

/-- An extended mantissa stands for a number: its whole part, the next digit and whether others
follow are those of the number. -/
def Describes : ExtendedMantissa → ℚ → Prop
  | ⟨m, false, false⟩, w => w = m
  | ⟨m, false, true⟩, w => m < w ∧ w < m + 1 / 2
  | ⟨m, true, false⟩, w => w = m + 1 / 2
  | ⟨m, true, true⟩, w => m + 1 / 2 < w ∧ w < m + 1

theorem Describes.floor (h : Describes em w) : ⌊w⌋₊ = em.mantissa := by
  obtain ⟨m, next, others⟩ := em
  have hm : (0 : ℚ) ≤ m := m.cast_nonneg
  have hbounds : (m : ℚ) ≤ w ∧ w < m + 1 := by
    cases next <;> cases others <;> simp only [Describes] at h <;> constructor <;> linarith
  exact (Nat.floor_eq_iff (hm.trans hbounds.1)).mpr hbounds

/-- The rounded mantissa is the nearest whole number. -/
theorem Describes.roundedMantissa (h : Describes em w) : em.roundedMantissa = nearestEven w := by
  have hfloor := h.floor
  obtain ⟨m, next, others⟩ := em
  rw [nearestEven, hfloor]
  cases next <;> cases others <;> simp only [Describes] at h <;>
    simp only [ExtendedMantissa.roundedMantissa, ExtendedMantissa.accuracy,
      Accuracy.roundToNearestEven]
  · rw [if_pos (by linarith)]
  · rw [if_pos h.2]
  · rw [if_neg h.ge.not_gt, if_pos h]
  · rw [if_neg h.1.not_gt, if_neg h.1.ne']

/-- A shift by one place keeps track of the digit that is dropped. -/
theorem Describes.shiftRightOne (h : Describes em w) : Describes em.shiftRightOne (w / 2) := by
  obtain ⟨m, next, others⟩ := em
  have hdiv : (m : ℚ) = 2 * (m / 2 : ℕ) + (m % 2 : ℕ) := by
    exact_mod_cast (Nat.div_add_mod m 2).symm
  rcases Nat.mod_two_eq_zero_or_one m with hmod | hmod
  all_goals
    rw [hmod] at hdiv
    push_cast at hdiv
    cases next <;> cases others
    all_goals
      simp only [Describes] at h
      simp [ExtendedMantissa.shiftRightOne, hmod, Describes]
      grind

/-- Shifts keep track of all digits that are dropped. -/
theorem Describes.shiftRight (h : Describes em w) (k : ℕ) : Describes (em >>> k) (w / 2 ^ k) := by
  change Describes (k.repeat ExtendedMantissa.shiftRightOne em) _
  induction k with
  | zero => simpa [Nat.repeat] using h
  | succ k ih =>
    rw [Nat.repeat, pow_succ, ← div_div]
    exact ih.shiftRightOne

theorem describes_exact (m : ℕ) :
    Describes (ExtendedMantissa.ofMantissaAndAccuracy m .exact) m := rfl

/-- A quotient with what is known about its remainder. -/
theorem describes_fraction (hn : 0 < n) :
    Describes (ExtendedMantissa.ofMantissaAndAccuracy (m / n) (accuracyOfFraction (m % n) n))
      (m / n : ℚ) := by
  have hn' : (0 : ℚ) < n := by exact_mod_cast hn
  have hquotient : (m / n : ℚ) = (m / n : ℕ) + (m % n : ℕ) / n := by
    rw [eq_comm, ← mul_right_inj' hn'.ne', mul_add, mul_div_cancel₀ _ hn'.ne',
      mul_div_cancel₀ _ hn'.ne']
    exact_mod_cast Nat.div_add_mod m n
  have hless : ((m % n : ℕ) : ℚ) / n < 1 := (div_lt_one hn').mpr (by exact_mod_cast Nat.mod_lt m hn)
  rw [hquotient, accuracyOfFraction]
  split_ifs with hzero
  · rw [hzero]
    simp [describes_exact]
  have hpos : (0 : ℚ) < (m % n : ℕ) / n := by
    have : 0 < m % n := Nat.pos_of_ne_zero hzero
    positivity
  -- The remainder is compared with half the divisor.
  cases hcompare : compare (2 * (m % n)) n with
  | lt =>
    have : (m % n : ℕ) / n < (1 / 2 : ℚ) := by
      rw [div_lt_div_iff₀ hn' two_pos, one_mul, mul_comm]
      exact_mod_cast Nat.compare_eq_lt.mp hcompare
    exact ⟨by linarith, by linarith⟩
  | eq =>
    have : (m % n : ℕ) / n = (1 / 2 : ℚ) := by
      rw [div_eq_div_iff hn'.ne' two_ne_zero, one_mul, mul_comm]
      exact_mod_cast Nat.compare_eq_eq.mp hcompare
    exact congrArg _ this
  | gt =>
    have : (1 / 2 : ℚ) < (m % n : ℕ) / n := by
      rw [div_lt_div_iff₀ two_pos hn', one_mul, mul_comm]
      exact_mod_cast Nat.compare_eq_gt.mp hcompare
    exact ⟨by linarith, by linarith⟩

/-! ### Rounding -/

/-- A double without a minus sign stands for a number. -/
inductive Denotes : UnpackedFloat → ℚ → Prop
  | zero : Denotes (.zero .positive) 0
  | finite {m : ℕ} {e : ℤ} (hm : 0 < m) (h : Canonical m e) :
    Denotes (.finite .positive m e hm) (m * 2 ^ e)

theorem targetExponent_binary64 (t : ℤ) :
    Format.binary64.targetExponent t = max (t - 53) (-1074) := rfl

theorem targetExponent_eq (m : ℕ) (e : ℤ) :
    Format.binary64.targetExponent (totalExponent m e) = max (m.log2 + e - 52) (-1074) := by
  rw [targetExponent_binary64, totalExponent]
  omega

/-- The exponent that a described number is shifted to is its quantum, if enough digits are there
to begin with. -/
theorem targetExponent_eq_quantum (hw : 0 < w) (hfloor : ⌊w⌋₊ = m)
    (hdigits : 52 ≤ m.log2 ∨ e ≤ -1074) :
    Format.binary64.targetExponent (totalExponent m e) = quantum (w * 2 ^ e) := by
  have hexp : (0 : ℚ) < 2 ^ e := zpow_pos (by norm_num) e
  obtain ⟨hle, hlt⟩ := (Nat.floor_eq_iff hw.le).mp hfloor
  rw [targetExponent_eq]
  rcases Nat.eq_zero_or_pos m with rfl | hm
  · -- Without a whole part the number lies below the least double with a full mantissa.
    have he : e ≤ -1074 := hdigits.resolve_left (by simp)
    have hleast : quantum (w * 2 ^ e) = -1074 := by
      by_contra hne
      have hlow := zpow_quantum_le (mul_pos hw hexp) hne
      have hstep : (2 : ℚ) ^ e ≤ 2 ^ (quantum (w * 2 ^ e) + 52) :=
        zpow_le_zpow_right₀ (by norm_num) (by have := neg_1074_le_quantum (w * 2 ^ e); omega)
      have : w * 2 ^ e < 1 * 2 ^ e := mul_lt_mul_of_pos_right (by simpa using hlt) hexp
      linarith
    rw [hleast, Nat.log2_zero]
    omega
  · have hlow : (2 : ℚ) ^ m.log2 ≤ m := by exact_mod_cast Nat.log2_self_le hm.ne'
    have hhigh : (m : ℚ) + 1 ≤ 2 ^ (m.log2 + 1) := by exact_mod_cast Nat.lt_log2_self (n := m)
    rw [quantum_eq (e := e + m.log2)]
    · omega
    · rw [zpow_add_natCast]
      exact mul_le_mul_of_nonneg_right (hlow.trans hle) hexp.le
    · rw [add_assoc, show (m.log2 : ℤ) + 1 = (m.log2 + 1 : ℕ) by push_cast; rfl, zpow_add_natCast]
      exact mul_lt_mul_of_pos_right (hlt.trans_le hhigh) hexp

/-- A mantissa that fits is not shifted again. -/
theorem shiftToTargetExponent_of_lt (hm : m < 2 ^ 53) (he : -1074 ≤ e) :
    shiftToTargetExponent .binary64 m e .exact = (⟨m, false, false⟩, e) := by
  have hlog : m.log2 ≤ 52 := by
    rcases Nat.eq_zero_or_pos m with rfl | hpos
    · simp
    · exact Nat.le_of_lt_succ ((Nat.log2_lt hpos.ne').mpr hm)
  have hamount : (Format.binary64.targetExponent (totalExponent m e) - e).toNat = 0 := by
    rw [targetExponent_eq]
    omega
  simp only [shiftToTargetExponent, shiftToExponent, hamount, Nat.cast_zero, add_zero]
  rfl

/-- A mantissa that has been rounded up to 54 digits is shifted by one place. -/
theorem shiftToTargetExponent_carry (he : -1074 ≤ e) :
    shiftToTargetExponent .binary64 (2 ^ 53) e .exact = (⟨2 ^ 52, false, false⟩, e + 1) := by
  have hamount :
      (Format.binary64.targetExponent (totalExponent (2 ^ 53) e) - e).toNat = 1 := by
    rw [targetExponent_eq, Nat.log2_two_pow]
    omega
  simp only [shiftToTargetExponent, shiftToExponent, hamount, Nat.cast_one]
  rfl

/-- A mantissa is shifted, rounded and shifted again. -/
theorem roundWithAccuracy_of_shifts {spec : Format} {sign : Sign} {accuracy : Accuracy}
    {em' : ExtendedMantissa} {d d' : ℤ} (h : shiftToTargetExponent spec m e accuracy = (em, d))
    (hrounded : em.roundedMantissa = n)
    (h' : shiftToTargetExponent spec n d .exact = (em', d')) :
    roundWithAccuracy spec sign m e accuracy =
      if hzero : em'.mantissa = 0 then .zero sign
      else .finite sign em'.mantissa d' (Nat.pos_of_ne_zero hzero) := by
  unfold roundWithAccuracy
  rw [h]
  dsimp only
  rw [hrounded, h']

/-- A described number is rounded to the nearest double. -/
theorem denotes_roundWithAccuracy {accuracy : Accuracy} (hw : 0 < w)
    (h : Describes (ExtendedMantissa.ofMantissaAndAccuracy m accuracy) w)
    (hdigits : 52 ≤ m.log2 ∨ e ≤ -1074) :
    Denotes (roundWithAccuracy .binary64 .positive m e accuracy) (rounded (w * 2 ^ e)) := by
  have hfloor : ⌊w⌋₊ = m := by
    rw [h.floor]
    cases accuracy with
    | exact => rfl
    | inexact ordering => cases ordering <;> rfl
  have hx : 0 < w * 2 ^ e := mul_pos hw (zpow_pos (by norm_num) e)
  have htarget := targetExponent_eq_quantum hw hfloor hdigits
  obtain ⟨k, hk⟩ : ∃ k : ℕ, e + k = quantum (w * 2 ^ e) := by
    refine Int.le.dest ?_
    rw [← htarget, targetExponent_eq]
    omega
  -- The first shift brings the number to its quantum, where it is rounded.
  have hshift : shiftToTargetExponent .binary64 m e accuracy =
      (ExtendedMantissa.ofMantissaAndAccuracy m accuracy >>> k, quantum (w * 2 ^ e)) := by
    simp only [shiftToTargetExponent, shiftToExponent, htarget]
    rw [show (quantum (w * 2 ^ e) - e).toNat = k by omega, hk]
  have hrounded : (ExtendedMantissa.ofMantissaAndAccuracy m accuracy >>> k).roundedMantissa =
      nearestEven (w * 2 ^ e / 2 ^ quantum (w * 2 ^ e)) := by
    rw [(h.shiftRight k).roundedMantissa, ← hk, zpow_add_natCast,
      mul_div_mul_right _ _ (zpow_ne_zero e two_ne_zero)]
  have hle := neg_1074_le_quantum (w * 2 ^ e)
  have hfull := full_nearestEven_div_quantum hx
  rw [rounded]
  -- The second shift takes back a carry into a 54th digit.
  rcases (nearestEven_div_quantum_le hx.le).lt_or_eq with hlt | heq
  · rw [roundWithAccuracy_of_shifts hshift hrounded (shiftToTargetExponent_of_lt hlt hle)]
    by_cases hzero : nearestEven (w * 2 ^ e / 2 ^ quantum (w * 2 ^ e)) = 0
    · rw [dif_pos hzero, hzero, Nat.cast_zero, zero_mul]
      exact .zero
    · rw [dif_neg hzero]
      exact .finite _ ⟨hlt, hle, hfull⟩
  · rw [roundWithAccuracy_of_shifts hshift (hrounded.trans heq) (shiftToTargetExponent_carry hle),
      dif_neg (by norm_num), heq, show ((2 ^ 53 : ℕ) : ℚ) * 2 ^ quantum (w * 2 ^ e) =
        ((2 ^ 52 : ℕ) : ℚ) * 2 ^ (quantum (w * 2 ^ e) + 1) by
          rw [zpow_add_one₀ two_ne_zero]; push_cast; ring]
    exact .finite _ ⟨by norm_num, by omega, Or.inl le_rfl⟩

theorem log2_mul_two_pow (hm : 0 < m) (k : ℕ) : (m * 2 ^ k).log2 = m.log2 + k := by
  refine (Nat.log2_eq_iff (by positivity)).mpr ⟨?_, ?_⟩
  · rw [pow_add]
    exact Nat.mul_le_mul_right _ (Nat.log2_self_le hm.ne')
  · rw [add_right_comm, pow_add]
    exact Nat.mul_lt_mul_of_pos_right Nat.lt_log2_self (by positivity)

/-- A smaller exponent makes up for a mantissa with zeros behind it. -/
theorem mul_two_pow_mul_zpow (m k : ℕ) (e : ℤ) :
    ((m * 2 ^ k : ℕ) : ℚ) * 2 ^ (e - k) = m * 2 ^ e := by
  conv_rhs => rw [← sub_add_cancel e (k : ℤ), zpow_add_natCast]
  push_cast
  ring

/-- A mantissa with any exponent is rounded to the nearest double. -/
theorem denotes_round (hm : 0 < m) (e : ℤ) :
    Denotes (UnpackedFloat.round .binary64 .positive m e) (rounded (m * 2 ^ e)) := by
  have htarget := targetExponent_eq m e
  unfold UnpackedFloat.round decreaseExponent
  simp only [Nat.shiftLeft_eq]
  -- Zeros are put behind the mantissa until it has 53 digits.
  generalize hk : (e - Format.binary64.targetExponent (totalExponent m e)).toNat = k
  rw [← mul_two_pow_mul_zpow m k e]
  refine denotes_roundWithAccuracy ?_ (describes_exact _) ?_
  · exact_mod_cast (by positivity : 0 < m * 2 ^ k)
  · rw [log2_mul_two_pow hm]
    omega

end OsdLatency.Binary64
