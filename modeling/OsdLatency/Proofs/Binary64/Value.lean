import OsdLatency.Binary64.Rounding
import OsdLatency.Proofs.Binary64.Operations

/-!
# The numbers that doubles hold

A double that is packed and unpacked again is the same, unless its exponent is too great: then it
has become an infinity. So an operation on doubles holds the exact result, rounded once, as long as
that lies below the end of the range.

## Main definitions

* `Unpacks` — a double is unpacked from a sign, an exponent and a mantissa
* `HasValue` — a double without a minus sign holds a number

## Main results

* `Denotes.unpack_pack` — packing keeps every double within the range
* `HasValue.add`, `HasValue.mul`, `HasValue.div`, `hasValue_ofNat` — the operations
* `HasValue.le_iff`, `HasValue.lt_iff` — the order
* `HasValue.div_ofNat` — a quotient by a whole number of any size
* `HasValue.div_ofNat_le_iff` — when such a quotient lies at or below a double
-/

namespace OsdLatency.Binary64

open Float.Model
open Float.Model.UnpackedFloat hiding pack unpack

variable {q r : ℚ} {m n : ℕ} {e : ℤ} {u v : UnpackedFloat} {x y : Float}

/-! ### Packed doubles -/

/-- The end of the range is passed by the exponent alone. -/
theorem Canonical.lt_two_pow_iff (h : Canonical m e) : (m : ℚ) * 2 ^ e < 2 ^ 1024 ↔ e ≤ 971 := by
  have hend : Canonical (2 ^ 52) 972 := ⟨by norm_num, by norm_num, Or.inl le_rfl⟩
  have hpow : (2 : ℚ) ^ 1024 = ((2 ^ 52 : ℕ) : ℚ) * 2 ^ (972 : ℤ) := by
    rw [Nat.cast_pow, Nat.cast_ofNat, ← zpow_add_natCast]
    exact (zpow_natCast 2 1024).symm
  rw [hpow]
  constructor
  · intro hlt
    by_contra hgt
    rcases (show (972 : ℤ) ≤ e by omega).lt_or_eq with hless | rfl
    · exact hlt.not_gt (hend.lt_of_lt h hless)
    · have hfull : 2 ^ 52 ≤ m := h.full.resolve_right (by norm_num)
      have : ((2 ^ 52 : ℕ) : ℚ) ≤ m := by exact_mod_cast hfull
      exact hlt.not_ge (mul_le_mul_of_nonneg_right this (zpow_pos (by norm_num) _).le)
  · exact fun hle => h.lt_of_lt hend (by omega)

theorem toNat_ofNat_of_lt {w : ℕ} (h : m < 2 ^ w) : (BitVec.ofNat w m).toNat = m := by
  rw [BitVec.toNat_ofNat, Nat.mod_eq_of_lt h]

theorem ofNat_ne_ofNat {w : ℕ} (hm : m < 2 ^ w) (hn : n < 2 ^ w) (hne : m ≠ n) :
    BitVec.ofNat w m ≠ BitVec.ofNat w n := fun heq => hne <| by
  have := congrArg BitVec.toNat heq
  rwa [toNat_ofNat_of_lt hm, toNat_ofNat_of_lt hn] at this

/-- The leading digit that is not packed counts like any other. -/
theorem toNat_one_append (v : BitVec 52) : (1#1 ++ v).toNat = 2 ^ 52 + v.toNat := by
  rw [BitVec.toNat_append, ← Nat.shiftLeft_add_eq_or_of_lt v.isLt, Nat.shiftLeft_eq]
  rfl

/-- The leading digit of a full mantissa is not packed, and put back when it is unpacked. -/
theorem toNat_append_ofNat (hlow : 2 ^ 52 ≤ m) (hhigh : m < 2 ^ 53) :
    (1#1 ++ BitVec.ofNat 52 m).toNat = m := by
  rw [toNat_one_append, BitVec.toNat_ofNat]
  omega

/-- The test by which packing tells full mantissas. -/
theorem log2_add_one_eq_iff (hm : 0 < m) (hlt : m < 2 ^ 53) : m.log2 + 1 = 53 ↔ 2 ^ 52 ≤ m := by
  change m.log2 + 1 = 52 + 1 ↔ _
  rw [Nat.add_right_cancel_iff, Nat.log2_eq_iff hm.ne']
  omega

/-- The sign of what is packed comes back. -/
theorem ofBitVec_unpackSign {spec : Format} {sign : Sign} {exponent mantissa} :
    Sign.ofBitVec (unpackSign (packComponents spec sign exponent mantissa)) = sign := by
  have hbit : unpackSign (packComponents spec sign exponent mantissa) = sign.toBitVec := by
    ext i hi
    obtain rfl : i = 0 := by omega
    delta unpackSign
    simp [packComponents, BitVec.getLsbD_append, BitVec.getElem_append]
  rw [hbit]
  cases sign <;> rfl

/-- What is packed for a finite double. -/
theorem pack_finite (s : Sign) (m : ℕ) (e : ℤ) (hm : 0 < m) :
    UnpackedFloat.pack .binary64 (.finite s m e hm) =
      if 2 ^ 11 ≤ (e + (1023 : ℕ) + (52 : ℕ)).toNat + 1 then packedInfinity .binary64 s
      else if m.log2 + 1 = 53 then
        packComponents .binary64 s (BitVec.ofNat 11 (e + (1023 : ℕ) + (52 : ℕ)).toNat)
          (BitVec.ofNat 52 m)
      else packComponents .binary64 s 0#11 (BitVec.ofNat 52 m) := rfl

/-- What is unpacked from a sign, an exponent and a mantissa. -/
theorem unpack_eq {b : BitVec Format.binary64.numBits} {s : Sign} {d : BitVec 11} {v : BitVec 52}
    (hs : Sign.ofBitVec (unpackSign b) = s) (hd : unpackExponent b = d)
    (hv : unpackMantissa b = v) :
    UnpackedFloat.unpack .binary64 b =
      if d = -1#11 then if v = 0#52 then .infinity s else .notANumber
      else if d = 0#11 then
        if hzero : v = 0#52 then .zero s
        else .finite s v.toNat (d.toNat - (1023 + 52 : ℤ) + 1)
          (Nat.pos_of_ne_zero fun heq => hzero (BitVec.eq_of_toNat_eq heq))
      else .finite s (1#1 ++ v).toNat (d.toNat - (1023 + 52 : ℤ))
        (by rw [toNat_one_append]; omega) := by
  subst hs hd hv
  rfl

/-- The double that is unpacked from a sign, an exponent and a mantissa. -/
inductive Unpacks (s : Sign) (d v : ℕ) : UnpackedFloat → Prop
  | infinity : Unpacks s d v (.infinity s)
  | notANumber : Unpacks s d v .notANumber
  | zero (hd : d = 0) (hv : v = 0) : Unpacks s d v (.zero s)
  | subnormal {m : ℕ} {e : ℤ} (hm : 0 < m) (hd : d = 0) (hv : m = v) (he : e = -1074) :
    Unpacks s d v (.finite s m e hm)
  | normal {m : ℕ} {e : ℤ} (hm : 0 < m) (hd : d ≠ 0) (hlast : d ≠ 2047) (hv : m = 2 ^ 52 + v)
      (he : e = d - 1075) : Unpacks s d v (.finite s m e hm)

theorem unpacks (b : BitVec Format.binary64.numBits) :
    Unpacks (Sign.ofBitVec (unpackSign b)) (unpackExponent b).toNat (unpackMantissa b).toNat
      (UnpackedFloat.unpack .binary64 b) := by
  rw [unpack_eq rfl rfl rfl]
  by_cases hlast : unpackExponent b = -1#11
  · rw [if_pos hlast]
    by_cases hv : unpackMantissa b = 0#52
    · rw [if_pos hv]
      exact .infinity
    · rw [if_neg hv]
      exact .notANumber
  rw [if_neg hlast]
  by_cases hd : unpackExponent b = 0#11
  · rw [if_pos hd]
    have hleast : (unpackExponent b).toNat = 0 := congrArg BitVec.toNat hd
    by_cases hv : unpackMantissa b = 0#52
    · rw [dif_pos hv]
      exact .zero hleast (congrArg BitVec.toNat hv)
    · rw [dif_neg hv]
      exact .subnormal _ hleast rfl (by omega)
  · rw [if_neg hd]
    exact .normal _ (fun heq => hd (BitVec.eq_of_toNat_eq heq))
      (fun heq => hlast (BitVec.eq_of_toNat_eq heq)) (toNat_one_append _) (by omega)

/-- A double within the range is the same when it is packed and unpacked. -/
theorem Denotes.unpack_pack (h : Denotes u q) (hq : q < 2 ^ 1024) :
    (Float.Model.pack u).unpack = u := by
  cases h with
  | zero => rfl
  | @finite m e hm h =>
    have he := h.lt_two_pow_iff.mp hq
    have hle := h.le
    have hlt := h.lt
    have hfull := h.full
    change UnpackedFloat.unpack .binary64 (UnpackedFloat.pack .binary64 _) = _
    -- The exponent is packed as a natural number, its smallest and its greatest one set apart.
    obtain ⟨b, hb⟩ : ∃ b, b = (e + (1023 : ℕ) + (52 : ℕ)).toNat := ⟨_, rfl⟩
    have hexponent : e + 1075 = b := by omega
    have hrange : ¬2 ^ 11 ≤ b + 1 := by omega
    rw [pack_finite, ← hb, if_neg hrange]
    by_cases hnormal : 2 ^ 52 ≤ m
    · have hlast : BitVec.ofNat 11 b ≠ -1#11 :=
        ofNat_ne_ofNat (n := 2047) (by omega) (by omega) (by omega)
      have hfirst : BitVec.ofNat 11 b ≠ 0#11 := ofNat_ne_ofNat (by omega) (by omega) (by omega)
      rw [if_pos ((log2_add_one_eq_iff hm hlt).mpr hnormal), unpack_eq ofBitVec_unpackSign
        unpackExponent_packComponents unpackMantissa_packComponents, if_neg hlast, if_neg hfirst]
      congr 1
      · exact toNat_append_ofNat hnormal hlt
      · rw [toNat_ofNat_of_lt (by omega)]
        omega
    · have hpos : BitVec.ofNat 52 m ≠ 0#52 := ofNat_ne_ofNat (by omega) (by omega) hm.ne'
      rw [if_neg (mt (log2_add_one_eq_iff hm hlt).mp hnormal), unpack_eq ofBitVec_unpackSign
        unpackExponent_packComponents unpackMantissa_packComponents, if_neg (by decide),
        if_pos rfl, dif_neg hpos]
      congr 1
      · exact toNat_ofNat_of_lt (by omega)
      · change (0 : ℤ) - (1023 + 52) + 1 = e
        omega

/-- A double above the range is an infinity when it is packed. -/
theorem Denotes.unpack_pack_of_le (h : Denotes u q) (hq : 2 ^ 1024 ≤ q) :
    (Float.Model.pack u).unpack = .infinity .positive := by
  cases h with
  | zero => exact absurd hq (by norm_num)
  | @finite m e hm h =>
    have he : ¬e ≤ 971 := fun hle => hq.not_gt (h.lt_two_pow_iff.mpr hle)
    have hrange : 2 ^ 11 ≤ (e + (1023 : ℕ) + (52 : ℕ)).toNat + 1 := by omega
    change UnpackedFloat.unpack .binary64 (UnpackedFloat.pack .binary64 _) = _
    rw [pack_finite, if_pos hrange]
    rfl

/-! ### Values -/

/-- A double without a minus sign holds a number. -/
def HasValue (x : Float) (q : ℚ) : Prop := Denotes x.toModel.unpack q

theorem hasValue_pack (h : Denotes u q) (hq : q < 2 ^ 1024) : HasValue ⟨Float.Model.pack u⟩ q := by
  rw [HasValue, h.unpack_pack hq]
  exact h

/-- A bound that lies within the range. -/
theorem lt_two_pow_of_le {k : ℕ} (h : q ≤ 2 ^ k) (hk : k < 1024) : q < 2 ^ 1024 :=
  h.trans_lt (pow_lt_pow_right₀ (by norm_num) hk)

theorem HasValue.nonneg (h : HasValue x q) : 0 ≤ q := Denotes.nonneg h

theorem HasValue.add (hx : HasValue x q) (hy : HasValue y r) (hlt : rounded (q + r) < 2 ^ 1024) :
    HasValue (x + y) (rounded (q + r)) :=
  hasValue_pack (Denotes.add hx hy) hlt

theorem HasValue.mul (hx : HasValue x q) (hy : HasValue y r) (hlt : rounded (q * r) < 2 ^ 1024) :
    HasValue (x * y) (rounded (q * r)) :=
  hasValue_pack (Denotes.mul hx hy) hlt

theorem HasValue.div (hx : HasValue x q) (hy : HasValue y r) (hr : r ≠ 0)
    (hlt : rounded (q / r) < 2 ^ 1024) : HasValue (x / y) (rounded (q / r)) :=
  hasValue_pack (Denotes.div hx hy hr) hlt

theorem hasValue_ofNat (hlt : rounded n < 2 ^ 1024) : HasValue (ofNat n) (rounded n) :=
  hasValue_pack (denotes_ofNat n) hlt

/-- Small whole numbers are held as they are. -/
theorem hasValue_natCast (h : n < 2 ^ 53) : HasValue (ofNat n) n := by
  have hself := rounded_natCast h
  have hrange : (n : ℚ) ≤ 2 ^ 53 := by exact_mod_cast h.le
  have := hasValue_ofNat (hself.trans_lt (lt_two_pow_of_le hrange (by norm_num)))
  rwa [hself] at this

theorem HasValue.le_iff (hx : HasValue x q) (hy : HasValue y r) : x ≤ y ↔ q ≤ r := by
  change decide (x.toModel.unpack.le y.toModel.unpack = true) = true ↔ _
  rw [decide_eq_true_iff, UnpackedFloat.le, Denotes.compare_eq hx hy, Option.any_some]
  rcases lt_trichotomy q r with hlt | rfl | hgt
  · rw [hlt.cmp_eq_lt]
    exact iff_of_true rfl hlt.le
  · rw [cmp_self_eq_eq]
    exact iff_of_true rfl le_rfl
  · rw [hgt.cmp_eq_gt]
    exact iff_of_false Bool.false_ne_true hgt.not_ge

theorem HasValue.lt_iff (hx : HasValue x q) (hy : HasValue y r) : x < y ↔ q < r := by
  change decide (x.toModel.unpack.lt y.toModel.unpack = true) = true ↔ _
  rw [decide_eq_true_iff, UnpackedFloat.lt, Denotes.compare_eq hx hy, beq_iff_eq, Option.some_inj,
    cmp_eq_lt_iff]

/-! ### Quotients by whole numbers -/

theorem Denotes.div_infinity (h : Denotes u q) :
    UnpackedFloat.div .binary64 u (.infinity .positive) = .zero .positive := by
  cases h <;> rfl

/-- The number that a quotient by a whole number holds. A whole number above the range is an
infinity, and the quotient is zero then. -/
def wholeQuotient (q : ℚ) (n : ℕ) : ℚ := if rounded n < 2 ^ 1024 then rounded (q / rounded n) else 0

theorem wholeQuotient_mono (hq : 0 ≤ q) (hqr : q ≤ r) (n : ℕ) :
    wholeQuotient q n ≤ wholeQuotient r n := by
  rw [wholeQuotient, wholeQuotient]
  split_ifs
  · exact rounded_mono (div_nonneg hq (rounded_nonneg _))
      (div_le_div_of_nonneg_right hqr (rounded_nonneg _))
  · exact le_rfl

/-- A quotient by a whole number of any size. -/
theorem HasValue.div_ofNat {k : ℕ} (hx : HasValue x q) (hq : q ≤ 2 ^ k) (hk : k < 1024)
    (hn : 0 < n) : HasValue (x / ofNat n) (wholeQuotient q n) := by
  have hone : 1 ≤ rounded n := one_le_rounded hn
  rw [wholeQuotient]
  split_ifs with hlt
  · refine hx.div (hasValue_ofNat hlt) (one_pos.trans_le hone).ne' ?_
    have hle : q / rounded n ≤ 2 ^ k := (div_le_self hx.nonneg hone).trans hq
    exact lt_two_pow_of_le
      (rounded_le_two_pow (div_nonneg hx.nonneg (rounded_nonneg _)) hle) hk
  · have hinfinite : (ofNat n).toModel.unpack = .infinity .positive :=
      (denotes_ofNat n).unpack_pack_of_le (not_lt.mp hlt)
    change Denotes (Float.Model.pack (UnpackedFloat.div .binary64 _ _)).unpack 0
    rw [hinfinite, Denotes.div_infinity hx]
    exact .zero

/-- A quotient by a whole number lies at or below a double exactly if the exact quotient lies below
the middle between that double and the next. -/
theorem HasValue.div_ofNat_le_iff {k : ℕ} (hx : HasValue x q) (hq : q ≤ 2 ^ k) (hk : k < 1024)
    (hn : 0 < n) (hy : HasValue y (m * 2 ^ e)) (h : Canonical m e) (hbound : 1 ≤ (m : ℚ) * 2 ^ e) :
    x / ofNat n ≤ y ↔ q / rounded n < (m + 1 / 2) * 2 ^ e ∨
      q / rounded n = (m + 1 / 2) * 2 ^ e ∧ Even m := by
  rw [(hx.div_ofNat hq hk hn).le_iff hy, wholeQuotient]
  split_ifs with hlt
  · exact rounded_le_iff (div_nonneg hx.nonneg (rounded_nonneg _)) h
  · have hsmall : q / rounded n < 1 := by
      rw [div_lt_one (one_pos.trans_le (one_le_rounded hn))]
      exact (lt_two_pow_of_le hq hk).trans_le (not_lt.mp hlt)
    have hexp : (0 : ℚ) < 2 ^ e := zpow_pos (by norm_num) e
    exact iff_of_true (by linarith) (Or.inl (by linarith))

end OsdLatency.Binary64
