import OsdLatency.Proofs.Binary64.TotalOrder
import OsdLatency.Proofs.Binary64.Value

/-!
# Bit patterns and the numbers behind them

The patterns of doubles without a minus sign count up with the numbers they hold: the pattern of a
mantissa and an exponent is the number of doubles below. So the total order of patterns is the order
of numbers there, and a number is held by one pattern only.

## Main results

* `Denotes.exists_pattern` — the pattern of a double that holds a number
* `HasValue.key_le_iff` — such doubles are in total order like their numbers
* `HasValue.eq_iff`, `HasValue.isFinite` — there is one double for a number, and it is finite
-/

namespace OsdLatency.Binary64

open Float.Model
open Float.Model.UnpackedFloat hiding pack unpack

variable {q r : ℚ} {m n : ℕ} {d e : ℤ} {x y : Float} {b : BitVec 64}

/-! ### Patterns -/

/-- A pattern is a sign, an exponent and a mantissa, one behind the other. -/
theorem toNat_pattern (b : BitVec Format.binary64.numBits) :
    b.toNat = (unpackSign b).toNat * 2 ^ 63 + (unpackExponent b).toNat * 2 ^ 52 +
      (unpackMantissa b).toNat := by
  have hlt : b.toNat < 2 ^ 64 := b.isLt
  change b.toNat = b.toNat >>> 63 % 2 ^ 1 * 2 ^ 63 + b.toNat >>> 52 % 2 ^ 11 * 2 ^ 52 +
    b.toNat >>> 0 % 2 ^ 52
  simp only [Nat.shiftRight_eq_div_pow]
  omega

theorem toNat_eq_zero_of_positive {s : BitVec 1} (h : Sign.ofBitVec s = .positive) :
    s.toNat = 0 := by
  rw [Sign.ofBitVec] at h
  split_ifs at h with hzero
  rw [hzero]
  rfl

/-- The pattern of a number counts the doubles below it, and it lies below all patterns with a minus
sign. -/
theorem Denotes.exists_pattern {b : BitVec Format.binary64.numBits}
    (h : Denotes (UnpackedFloat.unpack .binary64 b) q) : ∃ m e, Canonical m e ∧ q = m * 2 ^ e ∧
      (b.toNat : ℤ) = (e + 1074) * 2 ^ 52 + m ∧ b.toNat < 2 ^ 63 := by
  have hpattern := toNat_pattern b
  have hexponent : (unpackExponent b).toNat < 2 ^ 11 := (unpackExponent b).isLt
  have hmantissa : (unpackMantissa b).toNat < 2 ^ 52 := (unpackMantissa b).isLt
  have hunpacks := unpacks b
  generalize UnpackedFloat.unpack .binary64 b = u at h hunpacks
  -- A number has no minus sign, which is the leading digit of its pattern.
  generalize hsign : Sign.ofBitVec (unpackSign b) = s at hunpacks
  cases hunpacks with
  | infinity => nomatch h
  | notANumber => nomatch h
  | zero hd hv =>
    cases h
    have hpositive := toNat_eq_zero_of_positive hsign
    have hnull : b.toNat = 0 := by omega
    exact ⟨0, -1074, ⟨by norm_num, le_rfl, Or.inr rfl⟩, by simp, by simp [hnull], by omega⟩
  | subnormal hm hd hv he =>
    cases h with
    | finite hm hcanonical =>
      have hpositive := toNat_eq_zero_of_positive hsign
      exact ⟨_, _, hcanonical, rfl, by omega, by omega⟩
  | normal hm hd hlast hv he =>
    cases h with
    | finite hm hcanonical =>
      have hpositive := toNat_eq_zero_of_positive hsign
      exact ⟨_, _, hcanonical, rfl, by omega, by omega⟩

/-! ### The order of numbers -/

/-- Patterns count up with the numbers they hold. -/
theorem Canonical.pattern_le_iff (h : Canonical m e) (h' : Canonical n d) :
    (e + 1074) * 2 ^ 52 + m ≤ (d + 1074) * 2 ^ 52 + n ↔ (m : ℚ) * 2 ^ e ≤ n * 2 ^ d := by
  have hm := h.lt
  have hn := h'.lt
  have he := h.le
  have hd := h'.le
  rcases lt_trichotomy e d with hlt | rfl | hgt
  · have hfull : 2 ^ 52 ≤ n := h'.full.resolve_right (by omega)
    exact iff_of_true (by omega) (h.lt_of_lt h' hlt).le
  · rw [add_le_add_iff_left, mul_le_mul_iff_left₀ (zpow_pos two_pos e)]
    norm_cast
  · have hfull : 2 ^ 52 ≤ m := h.full.resolve_right (by omega)
    exact iff_of_false (by omega) (h'.lt_of_lt h hgt).not_ge

theorem key_of_lt (h : x.toBits.toNat < 2 ^ 63) : key x = x.toBits.toNat + 2 ^ 63 := if_pos h

/-- Doubles that hold numbers are in total order like those. -/
theorem HasValue.key_le_iff (hx : HasValue x q) (hy : HasValue y r) : key x ≤ key y ↔ q ≤ r := by
  obtain ⟨m, e, hcanonical, rfl, hpattern, hlow⟩ := Denotes.exists_pattern hx
  obtain ⟨n, d, hcanonical', rfl, hpattern', hlow'⟩ := Denotes.exists_pattern hy
  change x.toBits.toNat < 2 ^ 63 at hlow
  change y.toBits.toNat < 2 ^ 63 at hlow'
  change (x.toBits.toNat : ℤ) = _ at hpattern
  change (y.toBits.toNat : ℤ) = _ at hpattern'
  rw [key_of_lt hlow, key_of_lt hlow', Nat.add_le_add_iff_right,
    ← hcanonical.pattern_le_iff hcanonical', ← hpattern, ← hpattern', Nat.cast_le]

/-- A number is held by one double, and a double holds one number. -/
theorem HasValue.eq_iff (hx : HasValue x q) (hy : HasValue y r) : x = y ↔ q = r := by
  rw [← key_injective.eq_iff, le_antisymm_iff, hx.key_le_iff hy, hy.key_le_iff hx,
    ← le_antisymm_iff]

theorem HasValue.isFinite (h : HasValue x q) : x.isFinite = true := by
  rw [HasValue] at h
  change x.toModel.unpack.isFinite = true
  generalize x.toModel.unpack = u at h ⊢
  cases h <;> rfl

end OsdLatency.Binary64
