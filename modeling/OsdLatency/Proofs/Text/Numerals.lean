import Mathlib.Data.Nat.Digits.Defs
import OsdLatency.Proofs.Text.Scanning
import OsdLatency.Text.Decimal

/-!
# Numerals

A numeral is a run of ASCII digits. Its value is that of its digits in base ten, so leading zeros do
not matter. Reading a number accepts exactly the numerals whose value fits the word.

## Main definitions

* `decimalValue` — the value of a text in base ten
* `IsNumeral` — a text of ASCII digits with a given value
* `IsUnsigned` — a numeral that may have a plus sign in front
* `numeral` — a number in ASCII digits

## Main results

* `natural?_eq_some_iff`, `uint32?_eq_some_iff`, `uint64?_eq_some_iff` — what is read as a number
* `uint32?_isSome_iff`, `uint64?_isSome_iff` — which texts are read as a number
* `IsNumeral.front` — the front of a numeral is a numeral that is no larger
* `IsNumeral.zeros_append`, `IsNumeral.append_zeros` — zeros in front of a numeral and behind it
* `isNumeral_numeral` — a number is written as a numeral of it
-/

namespace OsdLatency.Text

/-- Whether a character is an ASCII digit. -/
def isAsciiDigit (c : Char) : Bool := decide ('0' ≤ c ∧ c ≤ '9')

/-- The value of a text in base ten. -/
def decimalValue (text : List Char) : ℕ :=
  Nat.ofDigits 10 (text.reverse.map fun c => c.toNat - '0'.toNat)

/-- The text is the number in ASCII digits, perhaps with leading zeros. -/
def IsNumeral (n : ℕ) (text : List Char) : Prop :=
  IsRun isAsciiDigit text ∧ decimalValue text = n

instance (n : ℕ) (text : List Char) : Decidable (IsNumeral n text) :=
  inferInstanceAs (Decidable (_ ∧ _))

/-- The text is a number below `bound` in ASCII digits. -/
def FitsBelow (bound : ℕ) (text : List Char) : Prop := ∃ n < bound, IsNumeral n text

theorem isDigit_of_isAsciiDigit {c : Char} (h : isAsciiDigit c = true) : isDigit c = true :=
  isDigit_of_ascii (by simpa [isAsciiDigit] using h)

theorem IsNumeral.isDigits {n : ℕ} {text : List Char} (h : IsNumeral n text) :
    IsRun isDigit text :=
  h.1.imp fun _ => isDigit_of_isAsciiDigit

@[simp] theorem decimalValue_nil : decimalValue [] = 0 := rfl

theorem decimalValue_append (first second : List Char) :
    decimalValue (first ++ second) =
      decimalValue first * 10 ^ second.length + decimalValue second := by
  simp only [decimalValue, List.reverse_append, List.map_append, Nat.ofDigits_append,
    List.length_map, List.length_reverse]
  ring

theorem decimalValue_cons (c : Char) (text : List Char) :
    decimalValue (c :: text) =
      (c.toNat - '0'.toNat) * 10 ^ text.length + decimalValue text := by
  have := decimalValue_append [c] text
  simpa [decimalValue] using this

@[simp] theorem decimalValue_replicate_zero (k : ℕ) : decimalValue (List.replicate k '0') = 0 := by
  induction k with
  | zero => rfl
  | succ k ih => rw [List.replicate_succ, decimalValue_cons, ih, Nat.sub_self, Nat.zero_mul]

theorem digitValue?_eq_some_iff {c : Char} {n : ℕ} :
    digitValue? c = some n ↔ isAsciiDigit c = true ∧ c.toNat - '0'.toNat = n := by
  simp [digitValue?, isAsciiDigit, and_assoc]

/-- Digits are read behind a number exactly if they are ASCII digits. -/
theorem readDigits_eq_some_iff {value n : ℕ} {text : List Char} :
    readDigits value text = some n ↔
      (∀ c ∈ text, isAsciiDigit c = true) ∧ value * 10 ^ text.length + decimalValue text = n := by
  induction text generalizing value with
  | nil => simp [readDigits]
  | cons c text ih =>
    simp only [readDigits, Option.bind_eq_some_iff, digitValue?_eq_some_iff, ih,
      List.mem_cons, forall_eq_or_imp, decimalValue_cons, List.length_cons, pow_succ]
    constructor
    · rintro ⟨digit, ⟨hc, rfl⟩, htext, rfl⟩
      exact ⟨⟨hc, htext⟩, by ring⟩
    · rintro ⟨⟨hc, htext⟩, rfl⟩
      exact ⟨_, ⟨hc, rfl⟩, htext, by ring⟩

theorem natural?_eq_some_iff {n : ℕ} {text : List Char} :
    natural? text = some n ↔ IsNumeral n text := by
  unfold natural? IsNumeral IsRun
  cases text with
  | nil => simp
  | cons c text => simp [readDigits_eq_some_iff]

theorem uint32?_eq_some_iff {text : List Char} {v : UInt32} :
    uint32? text = some v ↔ IsNumeral v.toNat text := by
  simp only [uint32?, Option.bind_eq_some_iff, natural?_eq_some_iff]
  constructor
  · rintro ⟨n, hn, hv⟩
    split at hv
    · rename_i hlt
      obtain rfl := Option.some.inj hv
      rwa [UInt32.toNat_ofNat_of_lt' hlt]
    · simp at hv
  · intro h
    exact ⟨v.toNat, h, by simp [v.toNat_lt_size]⟩

theorem uint64?_eq_some_iff {text : List Char} {v : UInt64} :
    uint64? text = some v ↔ IsNumeral v.toNat text := by
  simp only [uint64?, Option.bind_eq_some_iff, natural?_eq_some_iff]
  constructor
  · rintro ⟨n, hn, hv⟩
    split at hv
    · rename_i hlt
      obtain rfl := Option.some.inj hv
      rwa [UInt64.toNat_ofNat_of_lt' hlt]
    · simp at hv
  · intro h
    exact ⟨v.toNat, h, by simp [v.toNat_lt_size]⟩

theorem uint32?_isSome_iff {text : List Char} :
    (uint32? text).isSome ↔ FitsBelow (2 ^ 32) text := by
  rw [Option.isSome_iff_exists]
  constructor
  · rintro ⟨v, hv⟩
    exact ⟨v.toNat, v.toNat_lt, uint32?_eq_some_iff.mp hv⟩
  · rintro ⟨n, hn, htext⟩
    refine ⟨UInt32.ofNat n, uint32?_eq_some_iff.mpr ?_⟩
    rwa [UInt32.toNat_ofNat_of_lt' hn]

theorem uint64?_isSome_iff {text : List Char} :
    (uint64? text).isSome ↔ FitsBelow (2 ^ 64) text := by
  rw [Option.isSome_iff_exists]
  constructor
  · rintro ⟨v, hv⟩
    exact ⟨v.toNat, v.toNat_lt, uint64?_eq_some_iff.mp hv⟩
  · rintro ⟨n, hn, htext⟩
    refine ⟨UInt64.ofNat n, uint64?_eq_some_iff.mpr ?_⟩
    rwa [UInt64.toNat_ofNat_of_lt' hn]

/-- The text is the number in ASCII digits, perhaps with a plus sign in front. -/
def IsUnsigned (n : ℕ) (text : List Char) : Prop :=
  IsNumeral n text ∨ ∃ digits, text = '+' :: digits ∧ IsNumeral n digits

theorem isNumeral_dropPlus_iff {n : ℕ} {text : List Char} :
    IsNumeral n (dropPlus text) ↔ IsUnsigned n text := by
  unfold IsUnsigned dropPlus
  split
  · rename_i digits
    have hplus : ¬IsNumeral n ('+' :: digits) := fun h =>
      absurd (h.1.2 '+' List.mem_cons_self) (by decide)
    simp [hplus]
  · rename_i hplus
    exact ⟨Or.inl, fun h => h.elim id fun ⟨digits, htext, _⟩ => absurd htext (hplus digits)⟩

/-- The front of a numeral is a numeral that is no larger. -/
theorem IsNumeral.front {n : ℕ} {front rest : List Char} (h : IsNumeral n (front ++ rest))
    (hne : front ≠ []) : ∃ m ≤ n, IsNumeral m front := by
  refine ⟨decimalValue front, ?_, ⟨hne, fun c hc => h.1.2 c (by simp [hc])⟩, rfl⟩
  rw [← h.2, decimalValue_append]
  have : 0 < 10 ^ rest.length := by positivity
  nlinarith

theorem isAsciiDigit_of_mem_append_zeros {text : List Char} {c : Char} {k : ℕ}
    (h : ∀ d ∈ text, isAsciiDigit d = true) (hc : c ∈ text ∨ c ∈ List.replicate k '0') :
    isAsciiDigit c = true := by
  rcases hc with hc | hc
  · exact h c hc
  · rw [List.eq_of_mem_replicate hc]
    decide

/-- Zeros in front of a numeral do not matter. -/
theorem IsNumeral.zeros_append {n : ℕ} {text : List Char} (h : IsNumeral n text) (k : ℕ) :
    IsNumeral n (List.replicate k '0' ++ text) := by
  refine ⟨⟨List.append_ne_nil_of_right_ne_nil _ h.1.1, fun c hc => ?_⟩, ?_⟩
  · exact isAsciiDigit_of_mem_append_zeros h.1.2 (List.mem_append.mp hc).symm
  · rw [decimalValue_append, decimalValue_replicate_zero, h.2, Nat.zero_mul, Nat.zero_add]

/-- Zeros behind a numeral multiply it. -/
theorem IsNumeral.append_zeros {n : ℕ} {text : List Char} (h : IsNumeral n text) (k : ℕ) :
    IsNumeral (n * 10 ^ k) (text ++ List.replicate k '0') := by
  refine ⟨⟨List.append_ne_nil_of_left_ne_nil h.1.1 _, fun c hc => ?_⟩, ?_⟩
  · exact isAsciiDigit_of_mem_append_zeros h.1.2 (List.mem_append.mp hc)
  · rw [decimalValue_append, decimalValue_replicate_zero, h.2, List.length_replicate, Nat.add_zero]

/-! ### Writing numbers -/

/-- A number in ASCII digits. -/
def numeral (n : ℕ) : List Char := Nat.toDigits 10 n

theorem isAsciiDigit_digitChar :
    ∀ d < 10, isAsciiDigit d.digitChar = true ∧ d.digitChar.toNat - '0'.toNat = d := by
  decide

theorem isNumeral_numeral (n : ℕ) : IsNumeral n (numeral n) := by
  have hdigit (d : ℕ) (hd : d < 10) : IsNumeral d [d.digitChar] := by
    obtain ⟨hascii, hvalue⟩ := isAsciiDigit_digitChar d hd
    refine ⟨⟨by simp, by simpa using hascii⟩, ?_⟩
    rw [decimalValue_cons, hvalue]
    simp
  -- All digits but the last are those of a tenth of the number.
  induction n using Nat.strong_induction_on with
  | _ n ih =>
    rw [numeral, Nat.toDigits_eq_if (by decide)]
    split
    · exact hdigit n ‹_›
    · obtain ⟨⟨hne, hfront⟩, hvalue⟩ := ih (n / 10) (by omega)
      obtain ⟨⟨-, hlast⟩, hvalue'⟩ := hdigit (n % 10) (Nat.mod_lt n (by decide))
      rw [numeral] at hfront hvalue
      refine ⟨⟨by simp, ?_⟩, ?_⟩
      · intro c hc
        rcases List.mem_append.mp hc with hc | hc
        · exact hfront c hc
        · exact hlast c hc
      · rw [decimalValue_append, hvalue, hvalue']
        simp
        omega

theorem isDigits_numeral (n : ℕ) : IsRun isDigit (numeral n) := (isNumeral_numeral n).isDigits

theorem numeral_injective : Function.Injective numeral := fun m n h => by
  rw [← (isNumeral_numeral m).2, h, (isNumeral_numeral n).2]

end OsdLatency.Text
