import Mathlib.Data.Nat.Init
import Mathlib.Order.Basic
import OsdLatency.Proofs.Text.Encoding
import OsdLatency.Run.Delivery

/-!
# Well-formed byte strings

A byte string is well formed if it is the encoding of a text, and then this text is read from it. So
nothing is replaced in a file that is well formed, and reading it with replacements and reading it
without come to the same.

## Main definitions

* `IsSequence` — the bytes of a character, told from its code point
* `encode` — the bytes of a text

## Main results

* `IsSequence.symbols_append` — the bytes of a character are read as the character
* `decode_encode` — a text is read from its bytes
* `isValid_iff` — the byte strings without a fault are those of texts
* `bytesOf_eq_iff` — the encoding of a text is read as the text, without a fault
-/

namespace OsdLatency.Text.Utf8

open String (utf8EncodeChar)

/-- The bytes of a character, by the size of its code point. -/
inductive IsSequence (c : Char) : List UInt8 → Prop
  | one {b : UInt8} (hc : c.toNat < 0x80) (h : b.toNat = c.toNat) : IsSequence c [b]
  | two {b b₁ : UInt8} (hlow : 0x80 ≤ c.toNat) (hhigh : c.toNat < 0x800)
      (h : b.toNat = c.toNat / 64 + 0xC0) (h₁ : b₁.toNat = c.toNat % 64 + 0x80) :
      IsSequence c [b, b₁]
  | three {b b₁ b₂ : UInt8} (hlow : 0x800 ≤ c.toNat) (hhigh : c.toNat < 0x10000)
      (h : b.toNat = c.toNat / 4096 + 0xE0) (h₁ : b₁.toNat = c.toNat / 64 % 64 + 0x80)
      (h₂ : b₂.toNat = c.toNat % 64 + 0x80) : IsSequence c [b, b₁, b₂]
  | four {b b₁ b₂ b₃ : UInt8} (hlow : 0x10000 ≤ c.toNat)
      (h : b.toNat = c.toNat / 262144 + 0xF0) (h₁ : b₁.toNat = c.toNat / 4096 % 64 + 0x80)
      (h₂ : b₂.toNat = c.toNat / 64 % 64 + 0x80) (h₃ : b₃.toNat = c.toNat % 64 + 0x80) :
      IsSequence c [b, b₁, b₂, b₃]

variable {b : UInt8} {bytes more : List UInt8} {c : Char}

/-- The bytes of a text. -/
def encode (text : List Char) : List UInt8 := text.flatMap utf8EncodeChar

theorem bytesOf_eq_encode (text : String) : bytesOf text = encode text.toList := by
  rw [bytesOf, String.toUTF8_eq_toByteArray, ← String.utf8Encode_toList, List.utf8Encode,
    List.data_toByteArray]
  rfl

/-! ### The bytes of a character -/

/-- The code point of a character is no surrogate. -/
theorem toNat_range (c : Char) : c.toNat < 0xD800 ∨ 0xE000 ≤ c.toNat ∧ c.toNat < 0x110000 :=
  c.valid

theorem IsSequence.utf8EncodeChar_eq (h : IsSequence c bytes) : utf8EncodeChar c = bytes := by
  have hrange := toNat_range c
  unfold utf8EncodeChar
  simp only [Char.toNat_val]
  cases h with
  | one hc h => rw [if_pos (by omega), ← h, UInt8.ofNat_toNat]
  | two hlow hhigh h h₁ =>
    rw [if_neg (by omega), if_pos (by omega), Nat.mod_eq_of_lt (by omega), ← h, ← h₁]
    simp only [UInt8.ofNat_toNat]
  | three hlow hhigh h h₁ h₂ =>
    rw [if_neg (by omega), if_neg (by omega), if_pos (by omega), Nat.mod_eq_of_lt (by omega),
      ← h, ← h₁, ← h₂]
    simp only [UInt8.ofNat_toNat]
  | four hlow h h₁ h₂ h₃ =>
    rw [if_neg (by omega), if_neg (by omega), if_neg (by omega), Nat.mod_eq_of_lt (by omega),
      ← h, ← h₁, ← h₂, ← h₃]
    simp only [UInt8.ofNat_toNat]

theorem exists_isSequence (c : Char) : ∃ bytes, IsSequence c bytes := by
  have hrange := toNat_range c
  have hbyte : ∀ n < 256, (UInt8.ofNat n).toNat = n := fun n hn => UInt8.toNat_ofNat_of_lt' hn
  rcases Nat.lt_or_ge c.toNat 0x80 with h₁ | h₁
  · exact ⟨_, .one h₁ (hbyte _ (by omega))⟩
  rcases Nat.lt_or_ge c.toNat 0x800 with h₂ | h₂
  · exact ⟨_, .two h₁ h₂ (hbyte _ (by omega)) (hbyte _ (by omega))⟩
  rcases Nat.lt_or_ge c.toNat 0x10000 with h₃ | h₃
  · exact ⟨_, .three h₂ h₃ (hbyte _ (by omega)) (hbyte _ (by omega)) (hbyte _ (by omega))⟩
  · exact ⟨_, .four h₃ (hbyte _ (by omega)) (hbyte _ (by omega)) (hbyte _ (by omega))
      (hbyte _ (by omega))⟩

/-! ### The first byte of a sequence -/

theorem first_two (hlow : 0xC2 ≤ b.toNat) (hhigh : b.toNat < 0xE0) :
    first b = (.inside 0 0x80 0xBF (b.toNat - 0xC0), []) := by
  simp only [first, UInt8.lt_iff_toNat_lt, UInt8.reduceToNat]
  rw [if_neg (by omega), if_neg (by omega), if_pos hhigh]

/-- The bounds of the second of three bytes leave out overlong forms and surrogates. -/
theorem first_three (hlow : 0xE0 ≤ b.toNat) (hhigh : b.toNat < 0xF0) :
    ∃ low high, first b = (.inside 1 low high (b.toNat - 0xE0), []) ∧
      ∀ next, low ≤ next ∧ next ≤ high ↔
        (0x80 ≤ next.toNat ∧ next.toNat ≤ 0xBF) ∧
          0x20 ≤ (b.toNat - 0xE0) * 64 + (next.toNat - 0x80) ∧
          ((b.toNat - 0xE0) * 64 + (next.toNat - 0x80) < 0x360 ∨
            0x380 ≤ (b.toNat - 0xE0) * 64 + (next.toNat - 0x80)) := by
  simp only [first, UInt8.lt_iff_toNat_lt, UInt8.le_iff_toNat_le, ← UInt8.toNat_inj,
    UInt8.reduceToNat]
  rw [if_neg (by omega), if_neg (by omega), if_neg (by omega)]
  split_ifs with h₁ h₂
  · exact ⟨0xA0, 0xBF, by rw [h₁], fun next => by simp only [UInt8.reduceToNat]; omega⟩
  · exact ⟨0x80, 0x9F, by rw [h₂], fun next => by simp only [UInt8.reduceToNat]; omega⟩
  · exact ⟨0x80, 0xBF, rfl, fun next => by simp only [UInt8.reduceToNat]; omega⟩

/-- The bounds of the second of four bytes leave out overlong forms and what lies above U+10FFFF. -/
theorem first_four (hlow : 0xF0 ≤ b.toNat) (hhigh : b.toNat < 0xF5) :
    ∃ low high, first b = (.inside 2 low high (b.toNat - 0xF0), []) ∧
      ∀ next, low ≤ next ∧ next ≤ high ↔
        (0x80 ≤ next.toNat ∧ next.toNat ≤ 0xBF) ∧
          0x10 ≤ (b.toNat - 0xF0) * 64 + (next.toNat - 0x80) ∧
          (b.toNat - 0xF0) * 64 + (next.toNat - 0x80) < 0x110 := by
  simp only [first, UInt8.lt_iff_toNat_lt, UInt8.le_iff_toNat_le, ← UInt8.toNat_inj,
    UInt8.reduceToNat]
  rw [if_neg (by omega), if_neg (by omega), if_neg (by omega), if_neg (by omega),
    if_neg (by omega), if_neg (by omega)]
  split_ifs with h₁ h₂ h₃
  · exact ⟨0x90, 0xBF, by rw [h₁], fun next => by simp only [UInt8.reduceToNat]; omega⟩
  · exact ⟨0x80, 0xBF, rfl, fun next => by simp only [UInt8.reduceToNat]; omega⟩
  · exact ⟨0x80, 0x8F, by rw [h₃], fun next => by simp only [UInt8.reduceToNat]; omega⟩
  · omega

/-- Any other byte is a fault. -/
theorem first_none (h : 0x80 ≤ b.toNat ∧ b.toNat < 0xC2 ∨ 0xF5 ≤ b.toNat) :
    first b = (.start, [none]) := by
  simp only [first, UInt8.lt_iff_toNat_lt, ← UInt8.toNat_inj, UInt8.reduceToNat]
  rw [if_neg (by omega)]
  rcases h with h | h
  · rw [if_pos h.2]
  · repeat rw [if_neg (by omega)]

/-! ### Reading a sequence -/

theorem symbols_cons (b : UInt8) (bytes : List UInt8) :
    symbols (b :: bytes) = (first b).2 ++ symbolsFrom (first b).1 bytes :=
  symbolsFrom_cons .start b bytes

/-- The last byte of a sequence gives the character. -/
theorem symbolsFrom_last {low high : UInt8} {point : ℕ} (hb : low ≤ b ∧ b ≤ high)
    (hpoint : point * 64 + (b.toNat - 0x80) = c.toNat) (more : List UInt8) :
    symbolsFrom (.inside 0 low high point) (b :: more) = some c :: symbols more := by
  rw [symbolsFrom_cons, step_inside hb.1 hb.2, hpoint, Char.ofNat_toNat]
  rfl

theorem symbolsFrom_next {low high : UInt8} {k point : ℕ} (hb : low ≤ b ∧ b ≤ high)
    (more : List UInt8) :
    symbolsFrom (.inside (k + 1) low high point) (b :: more) =
      symbolsFrom (.inside k 0x80 0xBF (point * 64 + (b.toNat - 0x80))) more := by
  rw [symbolsFrom_cons, step_inside hb.1 hb.2]
  rfl

theorem isContinuation_iff : 0x80 ≤ b ∧ b ≤ 0xBF ↔ 0x80 ≤ b.toNat ∧ b.toNat ≤ 0xBF := by
  rw [UInt8.le_iff_toNat_le, UInt8.le_iff_toNat_le]
  rfl

/-- The bytes of a character are read as the character. -/
theorem IsSequence.symbols_append (h : IsSequence c bytes) (more : List UInt8) :
    symbols (bytes ++ more) = some c :: symbols more := by
  have hrange := toNat_range c
  cases h with
  | one hc h =>
    rw [List.singleton_append, symbols_cons,
      first_of_ascii (UInt8.lt_iff_toNat_lt.mpr (h.trans_lt hc)), h, Char.ofNat_toNat]
    rfl
  | two hlow hhigh h h₁ =>
    rw [List.cons_append, List.singleton_append, symbols_cons, first_two (by omega) (by omega)]
    exact symbolsFrom_last (isContinuation_iff.mpr (by omega)) (by omega) more
  | @three b b₁ b₂ hlow hhigh h h₁ h₂ =>
    obtain ⟨low, high, hfirst, hnext⟩ := first_three (b := b) (by omega) (by omega)
    rw [List.cons_append, List.cons_append, List.singleton_append, symbols_cons, hfirst]
    refine (symbolsFrom_next ((hnext _).mpr (by omega)) _).trans ?_
    exact symbolsFrom_last (isContinuation_iff.mpr (by omega)) (by omega) more
  | @four b b₁ b₂ b₃ hlow h h₁ h₂ h₃ =>
    obtain ⟨low, high, hfirst, hnext⟩ := first_four (b := b) (by omega) (by omega)
    rw [List.cons_append, List.cons_append, List.cons_append, List.singleton_append, symbols_cons,
      hfirst]
    refine (symbolsFrom_next ((hnext _).mpr (by omega)) _).trans ?_
    refine (symbolsFrom_next (isContinuation_iff.mpr (by omega)) _).trans ?_
    exact symbolsFrom_last (isContinuation_iff.mpr (by omega)) (by omega) more

/-- Where no fault is found within a sequence, it goes on. -/
theorem exists_cons_of_none_not_mem {k point : ℕ} {low high : UInt8}
    (h : none ∉ symbolsFrom (.inside k low high point) bytes) :
    ∃ b more, bytes = b :: more ∧ (low ≤ b ∧ b ≤ high) ∧
      none ∉ symbolsFrom (step (.inside k low high point) b).1 more := by
  cases bytes with
  | nil => exact absurd List.mem_cons_self h
  | cons b more =>
    rw [symbolsFrom_cons, List.mem_append, not_or] at h
    refine ⟨b, more, rfl, ?_, h.2⟩
    by_contra hb
    rw [step_outside hb] at h
    exact h.1 List.mem_cons_self

theorem exists_last_of_none_not_mem {point : ℕ} {low high : UInt8}
    (h : none ∉ symbolsFrom (.inside 0 low high point) bytes) :
    ∃ b more, bytes = b :: more ∧ (low ≤ b ∧ b ≤ high) ∧ none ∉ symbols more := by
  obtain ⟨b, more, rfl, hb, hmore⟩ := exists_cons_of_none_not_mem h
  rw [step_inside hb.1 hb.2] at hmore
  exact ⟨b, more, rfl, hb, hmore⟩

theorem exists_next_of_none_not_mem {k point : ℕ} {low high : UInt8}
    (h : none ∉ symbolsFrom (.inside (k + 1) low high point) bytes) :
    ∃ b more, bytes = b :: more ∧ (low ≤ b ∧ b ≤ high) ∧
      none ∉ symbolsFrom (.inside k 0x80 0xBF (point * 64 + (b.toNat - 0x80))) more := by
  obtain ⟨b, more, rfl, hb, hmore⟩ := exists_cons_of_none_not_mem h
  rw [step_inside hb.1 hb.2] at hmore
  exact ⟨b, more, rfl, hb, hmore⟩

/-- The bytes of a character come first, and there is no fault behind them. -/
def BeginsWithSequence (bytes : List UInt8) : Prop :=
  ∃ c sequence more, IsSequence c sequence ∧ bytes = sequence ++ more ∧ none ∉ symbols more

theorem exists_char {n : ℕ} (h : n < 0xD800 ∨ 0xE000 ≤ n ∧ n < 0x110000) :
    ∃ c : Char, c.toNat = n :=
  ⟨Char.ofNat n, toNat_ofNat h⟩

theorem beginsWithSequence_two (hlow : 0xC2 ≤ b.toNat) (hhigh : b.toNat < 0xE0)
    (h : none ∉ symbolsFrom (first b).1 bytes) : BeginsWithSequence (b :: bytes) := by
  rw [first_two hlow hhigh] at h
  obtain ⟨b₁, more, rfl, hb₁, hmore⟩ := exists_last_of_none_not_mem h
  rw [isContinuation_iff] at hb₁
  obtain ⟨c, hc⟩ := exists_char (n := (b.toNat - 0xC0) * 64 + (b₁.toNat - 0x80)) (by omega)
  exact ⟨c, [b, b₁], more, .two (by omega) (by omega) (by omega) (by omega), rfl, hmore⟩

theorem beginsWithSequence_three (hlow : 0xE0 ≤ b.toNat) (hhigh : b.toNat < 0xF0)
    (h : none ∉ symbolsFrom (first b).1 bytes) : BeginsWithSequence (b :: bytes) := by
  obtain ⟨low, high, hfirst, hnext⟩ := first_three hlow hhigh
  rw [hfirst] at h
  obtain ⟨b₁, more, rfl, hb₁, hmore⟩ := exists_next_of_none_not_mem h
  obtain ⟨b₂, more, rfl, hb₂, hmore⟩ := exists_last_of_none_not_mem hmore
  rw [hnext] at hb₁
  rw [isContinuation_iff] at hb₂
  obtain ⟨c, hc⟩ := exists_char
    (n := ((b.toNat - 0xE0) * 64 + (b₁.toNat - 0x80)) * 64 + (b₂.toNat - 0x80)) (by omega)
  exact ⟨c, [b, b₁, b₂], more,
    .three (by omega) (by omega) (by omega) (by omega) (by omega), rfl, hmore⟩

theorem beginsWithSequence_four (hlow : 0xF0 ≤ b.toNat) (hhigh : b.toNat < 0xF5)
    (h : none ∉ symbolsFrom (first b).1 bytes) : BeginsWithSequence (b :: bytes) := by
  obtain ⟨low, high, hfirst, hnext⟩ := first_four hlow hhigh
  rw [hfirst] at h
  obtain ⟨b₁, more, rfl, hb₁, hmore⟩ := exists_next_of_none_not_mem h
  obtain ⟨b₂, more, rfl, hb₂, hmore⟩ := exists_next_of_none_not_mem hmore
  obtain ⟨b₃, more, rfl, hb₃, hmore⟩ := exists_last_of_none_not_mem hmore
  rw [hnext] at hb₁
  rw [isContinuation_iff] at hb₂ hb₃
  obtain ⟨c, hc⟩ := exists_char (n := (((b.toNat - 0xF0) * 64 + (b₁.toNat - 0x80)) * 64 +
    (b₂.toNat - 0x80)) * 64 + (b₃.toNat - 0x80)) (by omega)
  exact ⟨c, [b, b₁, b₂, b₃], more,
    .four (by omega) (by omega) (by omega) (by omega) (by omega), rfl, hmore⟩

/-- Where no fault is found, the bytes of a character come first. -/
theorem beginsWithSequence_of_none_not_mem (h : none ∉ symbols (b :: bytes)) :
    BeginsWithSequence (b :: bytes) := by
  rw [symbols_cons, List.mem_append, not_or] at h
  obtain ⟨hread, hmore⟩ := h
  -- The first byte tells the length of its sequence.
  rcases Nat.lt_or_ge b.toNat 0x80 with h1 | h1
  · rw [first_of_ascii (UInt8.lt_iff_toNat_lt.mpr h1)] at hmore
    exact ⟨Char.ofNat b.toNat, [b], bytes,
      .one (by rwa [toNat_ofNat_byte]) (toNat_ofNat_byte b).symm, rfl, hmore⟩
  by_cases h2 : b.toNat < 0xC2 ∨ 0xF5 ≤ b.toNat
  · rw [first_none (h2.imp_left fun h => ⟨h1, h⟩)] at hread
    exact absurd List.mem_cons_self hread
  rcases Nat.lt_or_ge b.toNat 0xE0 with h3 | h3
  · exact beginsWithSequence_two (by omega) h3 hmore
  rcases Nat.lt_or_ge b.toNat 0xF0 with h4 | h4
  · exact beginsWithSequence_three h3 h4 hmore
  · exact beginsWithSequence_four h4 (by omega) hmore

/-! ### Texts and their bytes -/

theorem encode_cons (c : Char) (text : List Char) :
    encode (c :: text) = utf8EncodeChar c ++ encode text := List.flatMap_cons

/-- The bytes of a text are read as the text. -/
theorem symbols_encode (text : List Char) : symbols (encode text) = text.map some := by
  induction text with
  | nil => rfl
  | cons c text ih =>
    obtain ⟨sequence, hsequence⟩ := exists_isSequence c
    rw [encode_cons, hsequence.utf8EncodeChar_eq, hsequence.symbols_append, ih, List.map_cons]

theorem decode_encode (text : List Char) : decode (encode text) = text := by
  rw [decode, symbols_encode, List.map_map]
  exact List.map_id text

theorem isValid_eq_true_iff : isValid bytes = true ↔ none ∉ symbols bytes := by
  rw [isValid, List.all_eq_true]
  constructor
  · exact fun h hmem => absurd (h none hmem) (by decide)
  · intro h symbol hsymbol
    rw [Option.isSome_iff_ne_none]
    rintro rfl
    exact h hsymbol

/-- An ASCII character is well formed, whatever stands before it. -/
theorem isValid_append_cons_ascii (h : b < 0x80) (bytes more : List UInt8) :
    isValid (bytes ++ b :: more) = (isValid bytes && isValid more) := by
  unfold isValid symbols
  rw [symbolsFrom_append_cons_ascii State.proper_start h, List.all_append, List.all_cons,
    Option.isSome_some, Bool.true_and]
  rfl

/-- The byte strings without a fault are the bytes of texts. -/
theorem isValid_iff : isValid bytes = true ↔ ∃ text, encode text = bytes := by
  rw [isValid_eq_true_iff]
  constructor
  · intro h
    induction hn : bytes.length using Nat.strong_induction_on generalizing bytes with
    | _ n ih =>
      subst hn
      cases bytes with
      | nil => exact ⟨[], rfl⟩
      | cons b bytes =>
        obtain ⟨c, sequence, more, hsequence, hsplit, hmore⟩ := beginsWithSequence_of_none_not_mem h
        have hlength : more.length < (b :: bytes).length := by
          rw [hsplit, List.length_append, ← hsequence.utf8EncodeChar_eq,
            String.length_utf8EncodeChar]
          exact Nat.lt_add_of_pos_left c.utf8Size_pos
        obtain ⟨text, rfl⟩ := ih more.length hlength hmore rfl
        exact ⟨c :: text, by rw [encode_cons, hsequence.utf8EncodeChar_eq, hsplit]⟩
  · rintro ⟨text, rfl⟩
    rw [symbols_encode]
    simp

/-- A byte string is the encoding of a text exactly if it has no fault and is read as this text. -/
theorem bytesOf_eq_iff {text : String} :
    bytesOf text = bytes ↔ isValid bytes = true ∧ decode bytes = text.toList := by
  rw [bytesOf_eq_encode, isValid_iff]
  constructor
  · rintro rfl
    exact ⟨⟨_, rfl⟩, decode_encode _⟩
  · rintro ⟨⟨text', rfl⟩, hdecode⟩
    rw [← hdecode, decode_encode]

end OsdLatency.Text.Utf8
