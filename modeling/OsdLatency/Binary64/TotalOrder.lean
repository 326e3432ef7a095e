/-!
# The total order of doubles

The order of the IEEE standard on bit patterns: by sign first, a negative pattern standing lower the
greater its magnitude, with -0.0 before 0.0 and the NaNs outside the infinities. Each pattern has a
key of its own, so that two doubles in the same place are the same pattern.

## Main definitions

* `orderKey` — the place of a bit pattern in the order
* `sortedBy` — a list in ascending order of keys, equal keys in their given order

## Main results

* `orderKey_injective` — patterns with one key are equal
-/

namespace OsdLatency.Binary64

/-- The place of a bit pattern: non-negative patterns count up from `2 ^ 63`, negative ones count
down from it. -/
def orderKey (bits : UInt64) : Nat :=
  if bits.toNat < 0x8000000000000000 then bits.toNat + 0x8000000000000000
  else 0xFFFFFFFFFFFFFFFF - bits.toNat

/-- The place of a double. -/
def key (x : Float) : Nat := orderKey x.toBits

/-- Stable ascending sort by a key. -/
def sortedBy (key : α → Nat) (values : List α) : List α :=
  values.mergeSort fun a b => decide (key a ≤ key b)

theorem orderKey_injective {a b : UInt64} (h : orderKey a = orderKey b) : a = b := by
  have ha := a.toNat_lt
  have hb := b.toNat_lt
  unfold orderKey at h
  apply UInt64.toNat_inj.mp
  split at h <;> split at h <;> omega

/-- -0.0 has a place of its own, directly below 0.0. -/
example : orderKey 0x8000000000000000 + 1 = orderKey 0 := by decide

@[simp] theorem length_sortedBy (key : α → Nat) (values : List α) :
    (sortedBy key values).length = values.length := by
  simp [sortedBy]

theorem mem_sortedBy {key : α → Nat} {values : List α} {a : α} :
    a ∈ sortedBy key values ↔ a ∈ values := by
  simp [sortedBy]

end OsdLatency.Binary64
