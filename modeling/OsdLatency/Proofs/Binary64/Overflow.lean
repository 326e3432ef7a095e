import OsdLatency.Proofs.Binary64.Ceiling

/-!
# Doubles of any kind

Doubles come with a minus sign, as infinities and as what is not a number. A product or quotient by
a double above zero lies above zero only if the other operand does, and a ceiling that is brought
into an interval leaves the lower end only there. A result beyond the range is infinite, which lies
above all numbers, so rounded results keep their order also where they leave the range.

## Main definitions

* `IsAbove` — a double above zero, infinity among them
* `Reaches` — a double holds a number, or is infinite if the number lies beyond the range

## Main results

* `IsAbove.exists_hasValue` — what lies above zero holds a number or is infinite
* `HasValue.lt_two_pow` — doubles hold numbers within the range
* `Reaches.clampedCeil_mono` — ceilings of doubles that reach greater numbers
-/

namespace OsdLatency.Binary64

open Float.Model
open Float.Model.UnpackedFloat hiding pack unpack

variable {q r : ℚ} {m n low high : ℕ} {e : ℤ} {u v : UnpackedFloat} {x y : Float}

/-- A double above zero, infinity among them. -/
inductive IsAbove : UnpackedFloat → Prop
  | finite {m : ℕ} {e : ℤ} (hm : 0 < m) : IsAbove (.finite .positive m e hm)
  | infinity : IsAbove (.infinity .positive)

/-! ### Unpacked patterns -/

/-- A finite double is canonical and lies within the range. -/
theorem canonical_of_unpack {s : Sign} {hm : 0 < m} {b : BitVec Format.binary64.numBits}
    (h : UnpackedFloat.unpack .binary64 b = .finite s m e hm) : Canonical m e ∧ e ≤ 971 := by
  have hexponent : (unpackExponent b).toNat < 2 ^ 11 := (unpackExponent b).isLt
  have hmantissa : (unpackMantissa b).toNat < 2 ^ 52 := (unpackMantissa b).isLt
  have hunpacks := unpacks b
  rw [h] at hunpacks
  cases hunpacks with
  | subnormal _ hd hv he => exact ⟨⟨by omega, he.ge, Or.inr he⟩, by omega⟩
  | normal _ hd hlast hv he => exact ⟨⟨by omega, by omega, Or.inl (by omega)⟩, by omega⟩

/-- What lies above zero holds a number or is infinite. -/
theorem IsAbove.exists_hasValue (h : IsAbove x.toModel.unpack) :
    (∃ q, 0 < q ∧ HasValue x q) ∨ x.toModel.unpack = .infinity .positive := by
  generalize hu : x.toModel.unpack = u at h
  cases h with
  | infinity => exact Or.inr rfl
  | @finite m e hm =>
    have hpos : (0 : ℚ) < m * 2 ^ e :=
      mul_pos (by exact_mod_cast hm) (zpow_pos (by norm_num) e)
    refine Or.inl ⟨m * 2 ^ e, hpos, ?_⟩
    rw [HasValue, hu]
    exact .finite hm (canonical_of_unpack hu).1

/-- Doubles hold numbers within the range. -/
theorem HasValue.lt_two_pow (h : HasValue x q) : q < 2 ^ 1024 := by
  rw [HasValue] at h
  generalize hu : x.toModel.unpack = u at h
  cases h with
  | zero => norm_num
  | finite hm hcanonical => exact hcanonical.lt_two_pow_iff.mpr (canonical_of_unpack hu).2

/-- Of the doubles that hold a number, those that hold a positive one lie above zero. -/
theorem HasValue.isAbove_iff (h : HasValue x q) : IsAbove x.toModel.unpack ↔ 0 < q := by
  rw [HasValue] at h
  generalize x.toModel.unpack = u at h ⊢
  cases h with
  | zero => exact iff_of_false (fun habove => by cases habove) (lt_irrefl 0)
  | finite hm =>
    exact iff_of_true (.finite hm) (mul_pos (by exact_mod_cast hm) (zpow_pos (by norm_num) _))

/-- A quotient by one or more stays within the range. -/
theorem HasValue.div_of_one_le (hx : HasValue x q) (hy : HasValue y r) (hr : 1 ≤ r) :
    HasValue (x / y) (rounded (q / r)) := by
  refine hx.div hy (one_pos.trans_le hr).ne' ?_
  have hle : rounded (q / r) ≤ rounded q :=
    rounded_mono (div_nonneg hx.nonneg hy.nonneg) (div_le_self hx.nonneg hr)
  exact (hle.trans_eq (Denotes.rounded_eq hx)).trans_lt hx.lt_two_pow

/-! ### Order -/

/-- What lies no lower than a double above zero lies above zero as well. -/
theorem IsAbove.of_le (h : x ≤ y) (hx : IsAbove x.toModel.unpack) : IsAbove y.toModel.unpack := by
  have hle : x.toModel.unpack.le y.toModel.unpack = true := of_decide_eq_true h
  generalize x.toModel.unpack = u at hle hx
  generalize y.toModel.unpack = v at hle ⊢
  cases v with
  | notANumber => cases hx <;> nomatch hle
  | zero s => cases hx <;> cases s <;> nomatch hle
  | infinity s =>
    cases s with
    | positive => exact .infinity
    | negative => cases hx <;> nomatch hle
  | finite s m e hm =>
    cases s with
    | positive => exact .finite hm
    | negative => cases hx <;> nomatch hle

/-- Nothing but infinity lies above infinity. -/
theorem infinite_of_le (h : x ≤ y) (hx : x.toModel.unpack = .infinity .positive) :
    y.toModel.unpack = .infinity .positive := by
  have hle : x.toModel.unpack.le y.toModel.unpack = true := of_decide_eq_true h
  rw [hx] at hle
  generalize y.toModel.unpack = v at hle ⊢
  cases v with
  | notANumber => nomatch hle
  | zero s => cases s <;> nomatch hle
  | infinity s =>
    cases s with
    | positive => rfl
    | negative => nomatch hle
  | finite s => cases s <;> nomatch hle

/-! ### Signs -/

theorem isAbove_finite_iff {s : Sign} {hm : 0 < m} :
    IsAbove (.finite s m e hm) ↔ s = .positive := by
  constructor
  · intro h
    cases h
    rfl
  · rintro rfl
    exact .finite hm

theorem isAbove_infinity_iff {s : Sign} : IsAbove (.infinity s) ↔ s = .positive := by
  constructor
  · intro h
    cases h
    rfl
  · rintro rfl
    exact .infinity

/-- A pattern that lies above zero has no minus sign. -/
theorem IsAbove.unpackSign_eq {b : BitVec Format.binary64.numBits}
    (h : IsAbove (UnpackedFloat.unpack .binary64 b)) :
    Sign.ofBitVec (unpackSign b) = .positive := by
  have hunpacks := unpacks b
  generalize UnpackedFloat.unpack .binary64 b = u at h hunpacks
  generalize Sign.ofBitVec (unpackSign b) = s at hunpacks ⊢
  cases hunpacks with
  | infinity => exact isAbove_infinity_iff.mp h
  | notANumber => nomatch h
  | zero => nomatch h
  | subnormal => exact isAbove_finite_iff.mp h
  | normal => exact isAbove_finite_iff.mp h

theorem unpackSign_pack (s : Sign) (m : ℕ) (e : ℤ) (hm : 0 < m) :
    Sign.ofBitVec (unpackSign (UnpackedFloat.pack .binary64 (.finite s m e hm))) = s := by
  rw [pack_finite]
  split_ifs <;> exact ofBitVec_unpackSign

/-- A double that is packed lies above zero only if it did before. -/
theorem IsAbove.of_unpack_pack (h : IsAbove (Float.Model.pack u).unpack) : IsAbove u := by
  cases u with
  | notANumber => nomatch h
  | infinity s =>
    cases s with
    | negative => nomatch h
    | positive => exact .infinity
  | zero s => cases s <;> nomatch h
  | finite s m e hm =>
    exact isAbove_finite_iff.mpr ((unpackSign_pack s m e hm).symm.trans h.unpackSign_eq)

theorem isAbove_roundWithAccuracy {s : Sign} {accuracy : Accuracy}
    (h : IsAbove (roundWithAccuracy .binary64 s m e accuracy)) : s = .positive := by
  obtain ⟨em, d, hfirst⟩ : ∃ em d, shiftToTargetExponent .binary64 m e accuracy = (em, d) :=
    ⟨_, _, rfl⟩
  obtain ⟨em', d', hsecond⟩ : ∃ em' d',
      shiftToTargetExponent .binary64 em.roundedMantissa d .exact = (em', d') := ⟨_, _, rfl⟩
  rw [roundWithAccuracy_of_shifts hfirst rfl hsecond] at h
  by_cases hzero : em'.mantissa = 0
  · rw [dif_pos hzero] at h
    nomatch h
  · rw [dif_neg hzero] at h
    exact isAbove_finite_iff.mp h

/-- A product by a double above zero lies above zero only if the other factor does. -/
theorem IsAbove.of_mul (h : IsAbove (UnpackedFloat.mul .binary64 u v)) (hv : IsAbove v) :
    IsAbove u := by
  cases u with
  | notANumber => nomatch h
  | zero s => cases hv <;> nomatch h
  | infinity s =>
    cases s with
    | positive => exact .infinity
    | negative => cases hv <;> nomatch h
  | finite s m e hm =>
    cases s with
    | positive => exact .finite hm
    | negative =>
      cases hv with
      | infinity => nomatch h
      -- A finite result has the sign of the operands, also where it is rounded to an infinity.
      | finite => nomatch (isAbove_roundWithAccuracy h : Sign.negative = .positive)

/-- A quotient by a double above zero lies above zero only if the dividend does. -/
theorem IsAbove.of_div (h : IsAbove (UnpackedFloat.div .binary64 u v)) (hv : IsAbove v) :
    IsAbove u := by
  cases u with
  | notANumber => nomatch h
  | zero s => cases hv <;> nomatch h
  | infinity s =>
    cases s with
    | positive => exact .infinity
    | negative => cases hv <;> nomatch h
  | finite s m e hm =>
    cases s with
    | positive => exact .finite hm
    | negative =>
      cases hv with
      | infinity => nomatch h
      | finite => nomatch (isAbove_roundWithAccuracy h : Sign.negative = .positive)

/-- A ceiling leaves the lower end of its interval only above zero. -/
theorem isAbove_of_clampedCeil_ne (h : clampedCeil low high x ≠ low) :
    IsAbove x.toModel.unpack := by
  rw [clampedCeil] at h
  split at h
  · next m e hm hu =>
    rw [hu]
    exact .finite hm
  · next hu =>
    rw [hu]
    exact .infinity
  · exact absurd rfl h

/-! ### Overflow -/

/-- A double holds a number, or is infinite if the number lies beyond the range. -/
def Reaches (x : Float) (q : ℚ) : Prop :=
  if q < 2 ^ 1024 then HasValue x q else x.toModel.unpack = .infinity .positive

theorem reaches_pack (h : Denotes u q) : Reaches ⟨Float.Model.pack u⟩ q := by
  rw [Reaches]
  split_ifs with hq
  · exact hasValue_pack h hq
  · exact h.unpack_pack_of_le (not_lt.mp hq)

theorem clampedCeil_of_infinity (h : x.toModel.unpack = .infinity .positive) (low high : ℕ) :
    clampedCeil low high x = max low high := by
  rw [clampedCeil, h]

/-- Greater numbers have no smaller ceilings, also beyond the range. -/
theorem Reaches.clampedCeil_mono (hx : Reaches x q) (hy : Reaches y r) (hqr : q ≤ r)
    (hle : low ≤ high) : clampedCeil low high x ≤ clampedCeil low high y := by
  rw [Reaches] at hx hy
  by_cases hr : r < 2 ^ 1024
  · rw [if_pos (hqr.trans_lt hr)] at hx
    rw [if_pos hr] at hy
    rw [hx.clampedCeil_eq, hy.clampedCeil_eq]
    exact max_le_max_left _ (min_le_min_right _ (Nat.ceil_mono hqr))
  · rw [if_neg hr] at hy
    rw [clampedCeil_of_infinity hy, max_eq_right hle]
    exact clampedCeil_le hle x

/-! ### Infinite operands -/

theorem unpack_ofNat_of_le (h : 2 ^ 1024 ≤ rounded n) :
    (ofNat n).toModel.unpack = .infinity .positive :=
  (denotes_ofNat n).unpack_pack_of_le h

theorem isAbove_ofNat (hn : 0 < n) : IsAbove (ofNat n).toModel.unpack := by
  by_cases hlt : rounded n < 2 ^ 1024
  · exact (hasValue_ofNat hlt).isAbove_iff.mpr (one_pos.trans_le (one_le_rounded hn))
  · rw [unpack_ofNat_of_le (not_lt.mp hlt)]
    exact .infinity

theorem unpack_pack_infinity :
    (Float.Model.pack (.infinity .positive)).unpack = .infinity .positive := rfl

theorem IsAbove.mul_infinity (h : IsAbove u) :
    UnpackedFloat.mul .binary64 u (.infinity .positive) = .infinity .positive := by
  cases h <;> rfl

theorem IsAbove.infinity_mul (h : IsAbove u) :
    UnpackedFloat.mul .binary64 (.infinity .positive) u = .infinity .positive := by
  cases h <;> rfl

theorem infinity_div_finite (m : ℕ) (e : ℤ) (hm : 0 < m) :
    UnpackedFloat.div .binary64 (.infinity .positive) (.finite .positive m e hm) =
      .infinity .positive := rfl

theorem HasValue.infinity_div (h : HasValue y r) (hpos : 0 < r)
    (hx : x.toModel.unpack = .infinity .positive) :
    (x / y).toModel.unpack = .infinity .positive := by
  change (Float.Model.pack (UnpackedFloat.div .binary64 _ _)).unpack = _
  rw [hx]
  rw [HasValue] at h
  generalize y.toModel.unpack = v at h ⊢
  cases h with
  | zero => exact absurd hpos (lt_irrefl 0)
  | finite => rw [infinity_div_finite, unpack_pack_infinity]

/-- A greater factor of a whole number of any size gives no smaller ceiling. -/
theorem HasValue.clampedCeil_mul_mono (hx : HasValue x q) (hy : HasValue y r) (hqr : q ≤ r)
    (hle : low ≤ high) (n : ℕ) :
    clampedCeil low high (x * ofNat n) ≤ clampedCeil low high (y * ofNat n) := by
  by_cases hn : rounded n < 2 ^ 1024
  · have hcount := hasValue_ofNat hn
    refine (reaches_pack (Denotes.mul hx hcount)).clampedCeil_mono
      (reaches_pack (Denotes.mul hy hcount)) ?_ hle
    exact rounded_mono (mul_nonneg hx.nonneg (rounded_nonneg _))
      (mul_le_mul_of_nonneg_right hqr (rounded_nonneg _))
  · have hinfinite := unpack_ofNat_of_le (not_lt.mp hn)
    by_cases hlow : clampedCeil low high (x * ofNat n) = low
    · rw [hlow]
      exact le_clampedCeil _ _ _
    · -- The smaller factor lies above zero, so the other product is infinite.
      have hfactor : IsAbove x.toModel.unpack :=
        (isAbove_of_clampedCeil_ne hlow).of_unpack_pack.of_mul (hinfinite ▸ .infinity)
      have hother := hy.isAbove_iff.mpr ((hx.isAbove_iff.mp hfactor).trans_le hqr)
      have hproduct : (y * ofNat n).toModel.unpack = .infinity .positive := by
        change (Float.Model.pack (UnpackedFloat.mul .binary64 _ _)).unpack = _
        rw [hinfinite, hother.mul_infinity, unpack_pack_infinity]
      rw [clampedCeil_of_infinity hproduct, max_eq_right hle]
      exact clampedCeil_le hle _

end OsdLatency.Binary64
