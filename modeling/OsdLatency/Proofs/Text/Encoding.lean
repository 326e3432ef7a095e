import Mathlib.Algebra.Group.Nat.Defs
import Mathlib.Data.List.Basic
import OsdLatency.Text.Utf8

/-!
# Where characters of a byte string come from

The bytes of ASCII characters end every sequence that is not complete and stand for themselves
wherever they occur, and no other byte takes part in an ASCII character. So a byte string may be cut
at any of them and read piece by piece.

## Main definitions

* `State.Proper` — the states that reading reaches

## Main results

* `decode_append_cons_ascii` — reading starts anew behind an ASCII character
* `mem_of_mem_decode` — ASCII characters are read from their own bytes only
* `getLast?_decode_eq_some_iff` — an ASCII character ends a text exactly if its byte ends the bytes
-/

namespace OsdLatency.Text.Utf8

variable {s : State} {b : UInt8} {bytes more : List UInt8} {c : Char}

/-! ### States within a sequence -/

/-- A state that reading reaches: whatever continues the sequence, a code point comes out that is
neither in the range of ASCII nor a surrogate. The first bound is the least code point that the
sequence can still give, the last one lies above the greatest. -/
def State.Proper : State → Prop
  | .start => True
  | .inside more low high point =>
    0x80 ≤ low.toNat ∧ low ≤ high ∧ high.toNat ≤ 0xBF ∧
      0x80 ≤ (point * 64 + (low.toNat - 0x80)) * 64 ^ more ∧
      ((point * 64 + (high.toNat - 0x80) + 1) * 64 ^ more ≤ 0xD800 ∨
        0xE000 ≤ (point * 64 + (low.toNat - 0x80)) * 64 ^ more ∧
          (point * 64 + (high.toNat - 0x80) + 1) * 64 ^ more ≤ 0x110000)

theorem State.proper_start : State.start.Proper := trivial

theorem proper_first (b : UInt8) : (first b).1.Proper := by
  unfold first
  simp only [UInt8.lt_iff_toNat_lt, ← UInt8.toNat_inj, UInt8.reduceToNat]
  split_ifs
  any_goals exact State.proper_start
  -- A sequence begins: what its bounds leave room for is a matter of arithmetic.
  all_goals
    refine ⟨by decide, by decide, by decide, ?_, ?_⟩
    all_goals
      simp only [UInt8.reduceToNat]
      omega

/-- A byte within its bounds goes on with the sequence or completes it. -/
theorem step_inside {k point : ℕ} {low high : UInt8} (hlow : low ≤ b) (hhigh : b ≤ high) :
    step (.inside k low high point) b = match k with
      | 0 => (.start, [some (Char.ofNat (point * 64 + (b.toNat - 0x80)))])
      | k + 1 => (.inside k 0x80 0xBF (point * 64 + (b.toNat - 0x80)), []) := by
  cases k with
  | zero => exact if_pos ⟨hlow, hhigh⟩
  | succ k => exact if_pos ⟨hlow, hhigh⟩

/-- Any other byte makes a fault of the sequence and is read as a first byte. -/
theorem step_outside {k point : ℕ} {low high : UInt8} (h : ¬(low ≤ b ∧ b ≤ high)) :
    step (.inside k low high point) b = ((first b).1, none :: (first b).2) := if_neg h

theorem proper_step (hs : s.Proper) (b : UInt8) : (step s b).1.Proper := by
  cases s with
  | start => exact proper_first b
  | inside k low high point =>
    by_cases hb : low ≤ b ∧ b ≤ high
    · rw [step_inside hb.1 hb.2]
      cases k with
      | zero => trivial
      | succ k =>
        obtain ⟨hlow, hle, hhigh, hleast, hrange⟩ := hs
        rw [UInt8.le_iff_toNat_le, UInt8.le_iff_toNat_le] at hb
        -- The new bounds lie within the old ones.
        set next := point * 64 + (b.toNat - 0x80) with hnext
        have hmore : (64 : ℕ) ^ (k + 1) = 64 * 64 ^ k := Nat.pow_succ'
        have habove : (point * 64 + (low.toNat - 0x80)) * 64 ^ (k + 1) ≤ next * 64 ^ (k + 1) :=
          Nat.mul_le_mul_right _ (by omega)
        have hbelow : (next + 1) * 64 ^ (k + 1) ≤
            (point * 64 + (high.toNat - 0x80) + 1) * 64 ^ (k + 1) :=
          Nat.mul_le_mul_right _ (by omega)
        have hnewLeast : (next * 64 + ((0x80 : UInt8).toNat - 0x80)) * 64 ^ k =
            next * 64 ^ (k + 1) := by
          have hfirst : (0x80 : UInt8).toNat - 0x80 = 0 := by decide
          rw [hmore, ← Nat.mul_assoc, hfirst, Nat.add_zero]
        have hnewEnd : (next * 64 + ((0xBF : UInt8).toNat - 0x80) + 1) * 64 ^ k =
            (next + 1) * 64 ^ (k + 1) := by
          have hlast : (0xBF : UInt8).toNat - 0x80 + 1 = 1 * 64 := by decide
          rw [hmore, ← Nat.mul_assoc, Nat.add_mul next 1 64, Nat.add_assoc, hlast]
        refine ⟨by decide, by decide, by decide, ?_, ?_⟩
        · rw [hnewLeast]
          exact Nat.le_trans hleast habove
        · rw [hnewLeast, hnewEnd]
          exact hrange.imp (Nat.le_trans hbelow) fun h =>
            ⟨Nat.le_trans h.1 habove, Nat.le_trans hbelow h.2⟩
    · rw [step_outside hb]
      exact proper_first b

/-! ### Bytes of ASCII characters -/

/-- A code point that is no surrogate is that of a character. -/
theorem toNat_ofNat {n : ℕ} (h : n.isValidChar) : (Char.ofNat n).toNat = n := by
  rw [Char.ofNat, dif_pos h]
  rfl

theorem toNat_ofNat_byte (b : UInt8) : (Char.ofNat b.toNat).toNat = b.toNat := by
  have := b.toNat_lt
  exact toNat_ofNat (Or.inl (by omega))

theorem first_of_ascii (h : b < 0x80) : first b = (.start, [some (Char.ofNat b.toNat)]) := if_pos h

/-- An ASCII character ends a sequence that is not complete. -/
theorem step_of_ascii (hs : s.Proper) (h : b < 0x80) :
    step s b = (.start, rest s ++ [some (Char.ofNat b.toNat)]) := by
  cases s with
  | start => exact first_of_ascii h
  | inside k low high point =>
    have hout : ¬(low ≤ b ∧ b ≤ high) := fun hin => by
      have hlow : 0x80 ≤ low.toNat := hs.1
      have := UInt8.le_iff_toNat_le.mp hin.1
      have : b.toNat < 0x80 := UInt8.lt_iff_toNat_lt.mp h
      omega
    rw [step_outside hout, first_of_ascii h]
    rfl

theorem not_mem_first (h : ¬b < 0x80) : some c ∉ (first b).2 := by
  unfold first
  rw [if_neg h]
  split_ifs <;> simp

/-- No other byte completes an ASCII character. -/
theorem le_toNat_of_mem_step (hs : s.Proper) (h : ¬b < 0x80) (hc : some c ∈ (step s b).2) :
    0x80 ≤ c.toNat := by
  cases s with
  | start => exact absurd hc (not_mem_first h)
  | inside k low high point =>
    by_cases hb : low ≤ b ∧ b ≤ high
    · rw [step_inside hb.1 hb.2] at hc
      cases k with
      | zero =>
        obtain ⟨hlow, hle, hhigh, hleast, hrange⟩ := hs
        rw [UInt8.le_iff_toNat_le, UInt8.le_iff_toNat_le] at hb
        rw [List.mem_singleton, Option.some_inj] at hc
        have hvalid : (point * 64 + (b.toNat - 0x80)).isValidChar := by
          unfold Nat.isValidChar
          omega
        rw [hc, toNat_ofNat hvalid]
        omega
      | succ k => exact absurd hc List.not_mem_nil
    · rw [step_outside hb] at hc
      rcases List.mem_cons.mp hc with hc | hc
      · exact absurd hc nofun
      · exact absurd hc (not_mem_first h)

/-! ### Reading piece by piece -/

/-- Reading may be interrupted anywhere. -/
theorem exists_symbolsFrom_append (hs : s.Proper) (bytes : List UInt8) :
    ∃ read s', s'.Proper ∧ symbolsFrom s bytes = read ++ rest s' ∧
      ∀ more, symbolsFrom s (bytes ++ more) = read ++ symbolsFrom s' more := by
  induction bytes generalizing s with
  | nil => exact ⟨[], s, hs, symbolsFrom_nil s, fun _ => rfl⟩
  | cons b bytes ih =>
    obtain ⟨read, s', hs', hend, hmore⟩ := ih (proper_step hs b)
    refine ⟨(step s b).2 ++ read, s', hs', ?_, fun more => ?_⟩
    · rw [symbolsFrom_cons, hend, List.append_assoc]
    · rw [List.cons_append, symbolsFrom_cons, hmore, List.append_assoc]

/-- Behind an ASCII character reading starts anew. -/
theorem symbolsFrom_append_cons_ascii (hs : s.Proper) (h : b < 0x80) (bytes more : List UInt8) :
    symbolsFrom s (bytes ++ b :: more) =
      symbolsFrom s bytes ++ some (Char.ofNat b.toNat) :: symbols more := by
  obtain ⟨read, s', hs', hend, hmore⟩ := exists_symbolsFrom_append hs bytes
  rw [hmore, hend, symbolsFrom_cons, step_of_ascii hs' h]
  simp [symbols]

theorem decode_append_cons_ascii (h : b < 0x80) (bytes more : List UInt8) :
    decode (bytes ++ b :: more) = decode bytes ++ Char.ofNat b.toNat :: decode more := by
  unfold decode symbols
  rw [symbolsFrom_append_cons_ascii State.proper_start h, List.map_append]
  rfl

/-- What is left at the end is no character. -/
theorem not_mem_rest (s : State) (c : Char) : some c ∉ rest s := by
  cases s <;> simp [rest]

theorem mem_of_mem_symbolsFrom (hs : s.Proper) (hc : c.toNat < 0x80)
    (hmem : some c ∈ symbolsFrom s bytes) : UInt8.ofNat c.toNat ∈ bytes := by
  induction bytes generalizing s with
  | nil =>
    rw [symbolsFrom_nil] at hmem
    exact absurd hmem (not_mem_rest s c)
  | cons b bytes ih =>
    rw [symbolsFrom_cons, List.mem_append] at hmem
    rcases hmem with hmem | hmem
    · by_cases hb : b < 0x80
      · have hchar : c = Char.ofNat b.toNat := by
          rw [step_of_ascii hs hb] at hmem
          cases s <;> simpa [rest] using hmem
        have hvalue : c.toNat = b.toNat := by
          rw [hchar, toNat_ofNat_byte]
        rw [hvalue, UInt8.ofNat_toNat]
        exact List.mem_cons_self
      · exact absurd hc (Nat.not_lt.mpr (le_toNat_of_mem_step hs hb hmem))
    · exact List.mem_cons_of_mem _ (ih (proper_step hs b) hmem)

/-- ASCII characters are read from their own bytes only. -/
theorem mem_of_mem_decode (hc : c.toNat < 0x80) (hmem : c ∈ decode bytes) :
    UInt8.ofNat c.toNat ∈ bytes := by
  obtain ⟨symbol, hsymbol, hchar⟩ := List.mem_map.mp hmem
  cases symbol with
  | none =>
    rw [← hchar] at hc
    exact absurd hc (by decide)
  | some c' =>
    obtain rfl : c' = c := hchar
    exact mem_of_mem_symbolsFrom State.proper_start hc hsymbol

/-! ### The last character -/

/-- A byte is never passed over. -/
theorem symbolsFrom_singleton_ne_nil (s : State) (b : UInt8) : symbolsFrom s [b] ≠ [] := by
  have hfirst : (first b).2 ++ rest (first b).1 ≠ [] := by
    unfold first
    split_ifs <;> simp [rest]
  rw [symbolsFrom_cons, symbolsFrom_nil]
  cases s with
  | start => exact hfirst
  | inside k low high point =>
    by_cases hb : low ≤ b ∧ b ≤ high
    · rw [step_inside hb.1 hb.2]
      cases k <;> simp [rest]
    · rw [step_outside hb]
      exact List.cons_ne_nil _ _

/-- The last byte ends what is read last. -/
theorem exists_decode_concat (bytes : List UInt8) (b : UInt8) :
    ∃ read s, s.Proper ∧ decode (bytes ++ [b]) =
      read ++ (symbolsFrom s [b]).map (·.getD replacement) := by
  obtain ⟨read, s, hs, _, hmore⟩ := exists_symbolsFrom_append State.proper_start bytes
  exact ⟨read.map (·.getD replacement), s, hs, by rw [decode, symbols, hmore, List.map_append]⟩

theorem decode_eq_nil_iff : decode bytes = [] ↔ bytes = [] := by
  constructor
  · intro h
    rcases List.eq_nil_or_concat' bytes with rfl | ⟨front, b, rfl⟩
    · rfl
    · obtain ⟨read, s, _, hdecode⟩ := exists_decode_concat front b
      rw [hdecode, List.append_eq_nil_iff, List.map_eq_nil_iff] at h
      exact absurd h.2 (symbolsFrom_singleton_ne_nil s b)
  · rintro rfl
    rfl

theorem le_toNat_of_mem_map_symbolsFrom (hs : s.Proper) (h : ¬b < 0x80)
    (hc : c ∈ (symbolsFrom s [b]).map (·.getD replacement)) : 0x80 ≤ c.toNat := by
  rw [List.mem_map] at hc
  obtain ⟨symbol, hmem, rfl⟩ := hc
  cases symbol with
  | none => decide
  | some c =>
    rw [symbolsFrom_cons, symbolsFrom_nil, List.mem_append] at hmem
    rcases hmem with hmem | hmem
    · exact le_toNat_of_mem_step hs h hmem
    · exact absurd hmem (not_mem_rest _ c)

/-- An ASCII character is the last one exactly if its byte is. -/
theorem getLast?_decode_eq_some_iff (hc : c.toNat < 0x80) :
    (decode bytes).getLast? = some c ↔ bytes.getLast? = some (UInt8.ofNat c.toNat) := by
  have hbyte : (UInt8.ofNat c.toNat).toNat = c.toNat :=
    UInt8.toNat_ofNat_of_lt' (Nat.lt_trans hc (by decide))
  rcases List.eq_nil_or_concat' bytes with rfl | ⟨front, b, rfl⟩
  · exact ⟨nofun, nofun⟩
  rw [List.getLast?_concat, Option.some_inj]
  by_cases hb : b < 0x80
  · rw [decode_append_cons_ascii hb, decode_nil, List.getLast?_concat, Option.some_inj]
    constructor
    · rintro rfl
      rw [toNat_ofNat_byte, UInt8.ofNat_toNat]
    · rintro rfl
      rw [hbyte, Char.ofNat_toNat]
  · obtain ⟨read, s, hs, hdecode⟩ := exists_decode_concat front b
    rw [hdecode, List.getLast?_append_of_ne_nil _
      (mt List.map_eq_nil_iff.mp (symbolsFrom_singleton_ne_nil s b))]
    constructor
    · intro hlast
      have := le_toNat_of_mem_map_symbolsFrom hs hb (List.mem_of_getLast? hlast)
      omega
    · rintro rfl
      rw [UInt8.lt_iff_toNat_lt, hbyte] at hb
      exact absurd hc hb

end OsdLatency.Text.Utf8
