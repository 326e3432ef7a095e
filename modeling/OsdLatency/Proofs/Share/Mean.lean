import OsdLatency.Proofs.Binary64.Sum
import OsdLatency.Proofs.Share.Pooling
import OsdLatency.Proofs.Share.Single

/-!
# Mean shares

A mean share is the rounded sum of the shares of a group over the number of its operations. Every
share lies below a hundred, so a mean does not pass a hundred as long as the sums up to it are
exact, and never the next power of two. The cap is passed where one share passes it, or where
enough shares at the cap have been rounded upwards in their sum.

## Main definitions

* `shareValues` — the numbers that some shares hold
* `meanValue` — the number that a mean share holds
* `capMiddle` — the middle between the cap and the next double
* `MeanStays` — what keeps a mean at or below the cap

## Main results

* `meanShare_le_iff` — when a mean lies at or below a double
* `meanShare_le_shareCap` — short groups without a share above the cap have no mean above it
* `meanShare_le_hundred`, `meanShare_le` — what bounds the means of longer groups
-/

namespace OsdLatency

open Binary64

variable {component : Component} {records group : List Record} {y : Float} {m n : ℕ} {e : ℤ}

/-! ### Sums of shares -/

/-- The numbers that the shares of a component hold. -/
def shareValues (component : Component) (records : List Record) : List ℚ :=
  records.map fun r => shareValue (r.component component) r.final

theorem shareValue_nonneg (value total : UInt64) : 0 ≤ shareValue value total := by
  rw [shareValue]
  split_ifs
  · exact hasValue_shareCap.nonneg
  · exact rounded_nonneg _

theorem length_shareValues (component : Component) (records : List Record) :
    (shareValues component records).length = records.length := List.length_map _

theorem final_ne_zero {r : Record} (h : r.hasShares = true) : r.final ≠ 0 := by
  simpa [Record.hasShares] using h

theorem mem_shareValues (h : ∀ r ∈ records, r.hasShares = true) :
    ∀ q ∈ shareValues component records, 0 ≤ q ∧ q < 100 := by
  intro q hq
  obtain ⟨r, hr, rfl⟩ := List.mem_map.mp hq
  exact ⟨shareValue_nonneg _ _, shareValue_lt (final_ne_zero (h r hr))⟩

/-- Every share is small enough for a sum of any length. -/
theorem shareValues_small (h : ∀ r ∈ records, r.hasShares = true) :
    ∀ q ∈ shareValues component records, 0 ≤ q ∧ q < 2 ^ 7 := by
  intro q hq
  obtain ⟨hnonneg, hlt⟩ := mem_shareValues h q hq
  exact ⟨hnonneg, by linarith⟩

theorem hasValue_shareSum (h : ∀ r ∈ records, r.hasShares = true) :
    HasValue (shareSum component records) (roundedSum (shareValues component records)) := by
  have hshares : List.Forall₂ HasValue
      (records.map fun r => share (r.component component) r.final)
      (shareValues component records) := by
    rw [shareValues, List.forall₂_map_left_iff, List.forall₂_map_right_iff, List.forall₂_same]
    exact fun r hr => hasValue_share (final_ne_zero (h r hr))
  have hsum := hasValue_foldl_add hshares (shareValues_small h)
  rwa [List.foldl_map] at hsum

/-! ### Means -/

/-- The number that a mean share holds. -/
def meanValue (component : Component) (group : List Record) : ℚ :=
  wholeQuotient (roundedSum (shareValues component group)) group.length

theorem hasValue_meanShare (h : ∀ r ∈ group, r.hasShares = true) (hne : group ≠ []) :
    HasValue (meanShare component group) (meanValue component group) :=
  (hasValue_shareSum h).div_ofNat (roundedSum_le_two_pow (shareValues_small h)) (by norm_num)
    (List.length_pos_iff.mpr hne)

theorem meanShare_nonneg (h : ∀ r ∈ group, r.hasShares = true) (hne : group ≠ []) :
    0.0 ≤ meanShare component group := by
  have hzero : HasValue 0.0 0 := .zero
  have hmean : HasValue (meanShare component group) _ := hasValue_meanShare h hne
  exact (hzero.le_iff hmean).mpr hmean.nonneg

/-- A mean share lies at or below a double exactly if the quotient of the sum and the number of
operations lies below the middle between that double and the next. -/
theorem meanShare_le_iff (h : ∀ r ∈ group, r.hasShares = true) (hne : group ≠ [])
    (hy : HasValue y (m * 2 ^ e)) (hcanonical : Canonical m e) (hbound : 1 ≤ (m : ℚ) * 2 ^ e) :
    meanShare component group ≤ y ↔
      roundedSum (shareValues component group) / rounded group.length < (m + 1 / 2) * 2 ^ e ∨
        roundedSum (shareValues component group) / rounded group.length =
          (m + 1 / 2) * 2 ^ e ∧ Even m :=
  (hasValue_shareSum h).div_ofNat_le_iff (roundedSum_le_two_pow (shareValues_small h))
    (by norm_num) (List.length_pos_iff.mpr hne) hy hcanonical hbound

/-- A mean that does not pass a double lies at or below it. -/
theorem meanShare_le_of_div_le (h : ∀ r ∈ group, r.hasShares = true) (hne : group ≠ [])
    (hy : HasValue y (m * 2 ^ e)) (hcanonical : Canonical m e) (hbound : 1 ≤ (m : ℚ) * 2 ^ e)
    (hle : roundedSum (shareValues component group) ≤ m * 2 ^ e * rounded group.length) :
    meanShare component group ≤ y := by
  have hlength : 0 < rounded group.length :=
    one_pos.trans_le (one_le_rounded (List.length_pos_iff.mpr hne))
  rw [meanShare_le_iff h hne hy hcanonical hbound]
  refine Or.inl (((div_le_iff₀ hlength).mpr hle).trans_lt ?_)
  exact mul_lt_mul_of_pos_right (by linarith) (zpow_pos (by norm_num) e)

/-- The first power of two above all shares bounds every mean. -/
theorem meanShare_le (h : ∀ r ∈ group, r.hasShares = true) (hne : group ≠ []) :
    meanShare component group ≤ 128.0 := by
  have hcanonical : Canonical (2 ^ 52) (-45) := ⟨by norm_num, by norm_num, Or.inl le_rfl⟩
  have hbound : HasValue 128.0 ((2 ^ 52 : ℕ) * 2 ^ (-45 : ℤ)) := .finite (by norm_num) hcanonical
  refine meanShare_le_of_div_le h hne hbound hcanonical (by norm_num) ?_
  have hsum := roundedSum_le_two_pow_mul (@shareValues_small component group h)
  rw [length_shareValues] at hsum
  calc
    roundedSum (shareValues component group) ≤ (min group.length (2 ^ 53) : ℕ) * 2 ^ 7 := hsum
    _ ≤ rounded group.length * 2 ^ 7 :=
      mul_le_mul_of_nonneg_right (min_le_rounded group.length) (by norm_num)
    _ = (2 ^ 52 : ℕ) * 2 ^ (-45 : ℤ) * rounded group.length := by norm_num; ring

/-- A mean does not pass a hundred as long as the sums of that many hundreds are exact. -/
theorem meanShare_le_hundred (h : ∀ r ∈ group, r.hasShares = true) (hne : group ≠ [])
    (hlength : group.length ≤ 2 ^ 46) : meanShare component group ≤ 100.0 := by
  have hcanonical : Canonical 7036874417766400 (-46) :=
    ⟨by norm_num, by norm_num, Or.inl (by norm_num)⟩
  have hbound : HasValue 100.0 ((7036874417766400 : ℕ) * 2 ^ (-46 : ℤ)) :=
    .finite (by norm_num) hcanonical
  refine meanShare_le_of_div_le h hne hbound hcanonical (by norm_num) ?_
  have hsum : roundedSum (shareValues component group) ≤
      ((shareValues component group).length * 100 : ℕ) := by
    refine roundedSum_le_mul (fun q hq => ?_) (by rw [length_shareValues]; omega)
    exact ⟨(mem_shareValues h q hq).1, by exact_mod_cast (mem_shareValues h q hq).2.le⟩
  rw [length_shareValues] at hsum
  rw [rounded_natCast (by omega)]
  push_cast at hsum
  norm_num
  linarith

/-! ### The cap -/

/-- The middle between the cap and the next double. -/
def capMiddle : ℚ := ((7036170730324623 : ℕ) + 1 / 2) * 2 ^ (-46 : ℤ)

/-- The sum of the shares of a group, divided by their number, stays below the middle behind the
cap. -/
def MeanStays (component : Component) (group : List Record) : Prop :=
  roundedSum (shareValues component group) / rounded group.length < capMiddle

theorem meanStays_nil (component : Component) : MeanStays component [] := by
  norm_num [MeanStays, shareValues, capMiddle]

/-- A mean stays at or below the cap exactly if its sum stays below the middle behind the cap. -/
theorem meanShare_le_shareCap_iff (h : ∀ r ∈ group, r.hasShares = true) (hne : group ≠ []) :
    meanShare component group ≤ shareCap ↔ MeanStays component group := by
  have hodd : ¬Even 7036170730324623 := by decide
  rw [meanShare_le_iff h hne hasValue_shareCap canonical_cap (by norm_num), MeanStays, capMiddle]
  exact or_iff_left fun htie => hodd htie.2

/-- Whether a mean of shares at the cap stays at the cap while some more of them are added. -/
def capMeansStay (sum : Float) (count : ℕ) : ℕ → Bool
  | 0 => true
  | more + 1 =>
    decide ((sum + shareCap) / ofNat (count + 1) ≤ shareCap) &&
      capMeansStay (sum + shareCap) (count + 1) more

theorem capValue_small (count : ℕ) :
    ∀ q ∈ List.replicate count capValue, 0 ≤ q ∧ q < 2 ^ 7 := by
  intro q hq
  rw [List.eq_of_mem_replicate hq]
  exact ⟨hasValue_shareCap.nonneg, capValue_lt.trans (by norm_num)⟩

/-- The sum of shares at the cap, for as many as have been looked at. -/
theorem roundedSum_replicate_lt {more : ℕ} : ∀ {sum : Float} {count : ℕ},
    HasValue sum (roundedSum (List.replicate count capValue)) →
      capMeansStay sum count more = true → count < n → n ≤ count + more →
        roundedSum (List.replicate n capValue) / rounded n < capMiddle := by
  induction more with
  | zero =>
    intro sum count _ _ hlow hhigh
    omega
  | succ more ih =>
    intro sum count hsum hstay hlow hhigh
    rw [capMeansStay, Bool.and_eq_true, decide_eq_true_iff] at hstay
    have hle := roundedSum_le_two_pow (capValue_small (count + 1))
    have hnext : HasValue (sum + shareCap) (roundedSum (List.replicate (count + 1) capValue)) := by
      rw [List.replicate_succ', roundedSum_concat] at hle ⊢
      exact hsum.add hasValue_shareCap (lt_two_pow_of_le hle (by norm_num))
    rcases (Nat.succ_le_of_lt hlow).eq_or_lt with rfl | hmore
    · have hodd : ¬Even 7036170730324623 := by decide
      have hmean := (hnext.div_ofNat_le_iff hle (by norm_num) count.succ_pos hasValue_shareCap
        canonical_cap (by norm_num)).mp hstay.1
      exact hmean.resolve_right fun htie => hodd htie.2
    · exact ih hnext hstay.2 hmore (by omega)

theorem capMeansStay_first : capMeansStay 0.0 0 182 = true := by decide +kernel

/-- Short groups without a share above the cap have no mean above it. -/
theorem meanShare_le_shareCap (h : ∀ r ∈ group, r.hasShares = true) (hne : group ≠ [])
    (hlength : group.length ≤ 182)
    (hshares : ∀ r ∈ group, ¬NearlyWhole (r.component component) r.final) :
    meanShare component group ≤ shareCap := by
  have hlow : ∀ q ∈ shareValues component group, 0 ≤ q ∧ q ≤ capValue := by
    intro q hq
    obtain ⟨r, hr, rfl⟩ := List.mem_map.mp hq
    exact ⟨shareValue_nonneg _ _, shareValue_le_capValue_iff.mpr (hshares r hr)⟩
  have hpos := List.length_pos_iff.mpr hne
  have hstart : HasValue 0.0 (roundedSum (List.replicate 0 capValue)) := .zero
  have hcapped := roundedSum_replicate_lt hstart capMeansStay_first hpos (by omega)
  rw [meanShare_le_shareCap_iff h hne, MeanStays]
  refine lt_of_le_of_lt ?_ hcapped
  have hsum := roundedSum_le_replicate hlow
  rw [length_shareValues] at hsum
  exact div_le_div_of_nonneg_right hsum (rounded_nonneg _)

/-- An operation that spends all of its time in one component. -/
def wholeRecord : Record where
  osd := 5
  pg := "2.a"
  kind := .write
  size := 4096
  client := 4174
  tid := 31
  throttle := 0
  recv := 0
  dispatch := 0
  queue := 1
  osdLatency := 100000
  peers := []
  bluestore := 0
  details := ∅
  finalKind := .op
  final := 100000

/-- The next length is the first at which rounding lifts a mean of shares at the cap above it. -/
example : shareCap < meanShare .osd (List.replicate 183 wholeRecord) := by decide +kernel

end OsdLatency
