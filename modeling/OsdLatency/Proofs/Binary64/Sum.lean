import OsdLatency.Proofs.Binary64.Value

/-!
# Sums of doubles

A sum that is taken in doubles is rounded after every term. It grows with its terms, and it keeps
below what whole numbers bound it by, since those are doubles themselves. A very long sum stands
still where its terms are lost in rounding.

## Main definitions

* `roundedSum` — the sum of some terms, rounded after every one of them

## Main results

* `roundedSum_map_le` — greater terms give a greater sum
* `roundedSum_le_mul`, `roundedSum_le_two_pow_mul` — bounds by the number of terms
* `hasValue_foldl_add` — the sum of doubles
-/

namespace OsdLatency.Binary64

variable {x : Float} {xs : List Float} {terms front : List ℚ} {c : ℚ} {k : ℕ}

/-- The sum of some terms, rounded after every one of them. -/
def roundedSum (terms : List ℚ) : ℚ := terms.foldl (fun sum q => rounded (sum + q)) 0

@[simp] theorem roundedSum_nil : roundedSum [] = 0 := rfl

theorem roundedSum_concat (terms : List ℚ) (q : ℚ) :
    roundedSum (terms ++ [q]) = rounded (roundedSum terms + q) := by
  rw [roundedSum, List.foldl_append]
  rfl

theorem roundedSum_nonneg (terms : List ℚ) : 0 ≤ roundedSum terms := by
  induction terms using List.reverseRecOn with
  | nil => exact le_rfl
  | append_singleton terms q _ =>
    rw [roundedSum_concat]
    exact rounded_nonneg _

/-- Greater terms give a greater sum. -/
theorem roundedSum_map_le {α : Type*} {f g : α → ℚ} {l : List α}
    (h : ∀ a ∈ l, 0 ≤ f a ∧ f a ≤ g a) : roundedSum (l.map f) ≤ roundedSum (l.map g) := by
  induction l using List.reverseRecOn with
  | nil => exact le_rfl
  | append_singleton l a ih =>
    obtain ⟨hf, hle⟩ := h a (by simp)
    have hsum := ih fun b hb => h b (by simp [hb])
    rw [List.map_append, List.map_append, List.map_singleton, List.map_singleton,
      roundedSum_concat, roundedSum_concat]
    exact rounded_mono (add_nonneg (roundedSum_nonneg _) hf) (add_le_add hsum hle)

theorem roundedSum_le_replicate (h : ∀ q ∈ terms, 0 ≤ q ∧ q ≤ c) :
    roundedSum terms ≤ roundedSum (List.replicate terms.length c) := by
  rw [← List.map_const']
  have hle := roundedSum_map_le (f := id) (g := fun _ => c) h
  rwa [List.map_id] at hle

/-- Terms below a whole number give a sum below its multiple. -/
theorem roundedSum_le_mul (h : ∀ q ∈ terms, 0 ≤ q ∧ q ≤ k) (hlength : terms.length * k < 2 ^ 53) :
    roundedSum terms ≤ (terms.length * k : ℕ) := by
  induction terms using List.reverseRecOn with
  | nil => simp
  | append_singleton terms q ih =>
    obtain ⟨hq, hle⟩ := h q (by simp)
    rw [List.length_append, List.length_singleton, add_mul, one_mul] at hlength ⊢
    have hsum := ih (fun r hr => h r (by simp [hr])) (by omega)
    rw [roundedSum_concat, ← rounded_natCast hlength, Nat.cast_add]
    exact rounded_mono (add_nonneg (roundedSum_nonneg _) hq) (add_le_add hsum hle)

/-- A sum of small terms stands still once a term is less than half its quantum. -/
theorem rounded_add_le_two_pow {s q : ℚ} (hs : 0 ≤ s) (hq : 0 ≤ q) (hsum : s ≤ 2 ^ 60)
    (hlt : q < 2 ^ 7) : rounded (s + q) ≤ 2 ^ 60 := by
  have hcanonical : Canonical (2 ^ 52) 8 := ⟨by norm_num, by norm_num, Or.inl le_rfl⟩
  have hself : ((2 ^ 52 : ℕ) : ℚ) * 2 ^ (8 : ℤ) = 2 ^ 60 := by norm_num
  rw [← hself, rounded_le_iff (add_nonneg hs hq) hcanonical]
  exact Or.inl (by norm_num; linarith)

/-- The sum that is reached at most before it stands still. -/
theorem min_mul_le_two_pow (n : ℕ) : ((min n (2 ^ 53) : ℕ) : ℚ) * 2 ^ 7 ≤ 2 ^ 60 := calc
  ((min n (2 ^ 53) : ℕ) : ℚ) * 2 ^ 7 ≤ (2 ^ 53 : ℕ) * 2 ^ 7 :=
    mul_le_mul_of_nonneg_right (by exact_mod_cast min_le_right _ _) (by norm_num)
  _ = 2 ^ 60 := by norm_num

/-- Small terms give a sum below a multiple of their number, however many there are. -/
theorem roundedSum_le_two_pow_mul (h : ∀ q ∈ terms, 0 ≤ q ∧ q < 2 ^ 7) :
    roundedSum terms ≤ (min terms.length (2 ^ 53) : ℕ) * 2 ^ 7 := by
  induction terms using List.reverseRecOn with
  | nil => simp
  | append_singleton terms q ih =>
    obtain ⟨hq, hlt⟩ := h q (by simp)
    have hsum := ih fun r hr => h r (by simp [hr])
    have hnonneg := roundedSum_nonneg terms
    rw [roundedSum_concat, List.length_append, List.length_singleton]
    rcases Nat.lt_or_ge (terms.length + 1) (2 ^ 53) with hfew | hmany
    · rw [min_eq_left (by omega)] at hsum ⊢
      have hself := rounded_eq_self (e := 7) hfew (by norm_num)
      have hexact : roundedSum terms + q ≤ (terms.length + 1 : ℕ) * 2 ^ 7 := by
        rw [Nat.cast_add_one, add_mul, one_mul]
        exact add_le_add hsum hlt.le
      exact (rounded_mono (add_nonneg hnonneg hq) hexact).trans_eq hself
    · rw [min_eq_right hmany]
      have hbelow := hsum.trans (min_mul_le_two_pow terms.length)
      exact (rounded_add_le_two_pow hnonneg hq hbelow hlt).trans_eq (by norm_num)

theorem roundedSum_le_two_pow (h : ∀ q ∈ terms, 0 ≤ q ∧ q < 2 ^ 7) :
    roundedSum terms ≤ 2 ^ 60 :=
  (roundedSum_le_two_pow_mul h).trans (min_mul_le_two_pow terms.length)

/-- Some more doubles are added to a sum. -/
theorem HasValue.foldl_add (hx : HasValue x (roundedSum front))
    (hxs : List.Forall₂ HasValue xs terms) (h : ∀ q ∈ front ++ terms, 0 ≤ q ∧ q < 2 ^ 7) :
    HasValue (xs.foldl (· + ·) x) (roundedSum (front ++ terms)) := by
  induction hxs generalizing x front with
  | nil => rwa [List.append_nil]
  | @cons y q ys terms hy _ ih =>
    rw [List.append_cons] at h ⊢
    refine ih ?_ h
    have hle := roundedSum_le_two_pow fun r hr => h r (List.mem_append_left terms hr)
    rw [roundedSum_concat] at hle ⊢
    exact hx.add hy (lt_two_pow_of_le hle (by norm_num))

/-- The sum of doubles. -/
theorem hasValue_foldl_add (hxs : List.Forall₂ HasValue xs terms)
    (h : ∀ q ∈ terms, 0 ≤ q ∧ q < 2 ^ 7) : HasValue (xs.foldl (· + ·) 0.0) (roundedSum terms) := by
  have hstart : HasValue 0.0 (roundedSum []) := .zero
  exact hstart.foldl_add hxs h

end OsdLatency.Binary64
