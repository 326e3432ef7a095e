import OsdLatency.Suspect.HostMap
import OsdLatency.Suspect.SlowOp

/-!
# Ranking of suspects

The OSD named most often by the slow operations is the first suspect. The operations it took part in
are dropped, and the search goes on with the others until none of them names an OSD. Of OSDs named
equally often the one named first is taken.

## Main definitions

* `occurrences` — how often each OSD is named, in the order of the first mentions
* `mostNamed?` — the first of the entries with the greatest count
* `without` — the operations that an OSD took no part in
* `Suspect`, `suspects` — the suspects of some slow operations

## Main results

* `mem_keys_occurrences` — the OSDs that are counted are those that are named
* `mem_of_mostNamed?` — the entry that is taken is one of the entries
-/

namespace OsdLatency

/-- Count one more mention. -/
def countMention (counts : Table UInt32 Nat) (osd : UInt32) : Table UInt32 Nat :=
  counts.insert osd ((counts.get? osd).getD 0 + 1)

/-- How often each OSD is named, in the order of the first mentions. -/
def occurrences (ops : List SlowOp) : Table UInt32 Nat :=
  ops.flatten.foldl countMention Table.empty

/-- The first of the entries with the greatest count. -/
def mostNamed? (counts : List (UInt32 × Nat)) : Option (UInt32 × Nat) :=
  counts.foldl (fun best entry =>
    match best with
    | none => some entry
    | some top => if top.2 < entry.2 then some entry else some top) none

/-- The operations that an OSD took no part in. -/
def without (osd : UInt32) (ops : List SlowOp) : List SlowOp :=
  ops.filter fun op => !op.contains osd

/-- One suspect: the OSD, how often it is named, its host, and the round it was found in. -/
structure Suspect where
  osd : UInt32
  count : Nat
  host : String
  round : Nat
deriving DecidableEq

theorem mem_keys_foldl_countMention (osds : List UInt32) (counts : Table UInt32 Nat)
    (osd : UInt32) :
    osd ∈ (osds.foldl countMention counts).keys ↔ osd ∈ counts.keys ∨ osd ∈ osds := by
  induction osds generalizing counts with
  | nil => simp
  | cons head osds ih =>
    rw [List.foldl_cons, ih, countMention, Table.keys_insert]
    split <;> simp only [List.mem_append, List.mem_cons, List.not_mem_nil, or_false]
    · rename_i h
      constructor
      · rintro (h' | h') <;> simp [h']
      · rintro (h' | rfl | h') <;> simp_all
    · constructor
      · rintro ((h' | h') | h') <;> simp [h']
      · rintro (h' | h' | h') <;> simp [h']

/-- The OSDs that are counted are those that are named. -/
theorem mem_keys_occurrences (ops : List SlowOp) (osd : UInt32) :
    osd ∈ (occurrences ops).keys ↔ ∃ op ∈ ops, osd ∈ op := by
  rw [occurrences, mem_keys_foldl_countMention]
  simp [Table.keys, Table.empty]

/-- The entry that is taken is one of the entries. -/
theorem mem_of_mostNamed? {counts : List (UInt32 × Nat)} {entry : UInt32 × Nat}
    (h : mostNamed? counts = some entry) : entry ∈ counts := by
  have general : ∀ (rest : List (UInt32 × Nat)) (best : Option (UInt32 × Nat)),
      rest.foldl (fun best entry =>
        match best with
        | none => some entry
        | some top => if top.2 < entry.2 then some entry else some top) best = some entry →
      best = some entry ∨ entry ∈ rest := by
    intro rest
    induction rest with
    | nil => exact fun best h => Or.inl h
    | cons head rest ih =>
      intro best h
      rcases ih _ h with h' | h'
      · cases best with
        | none => exact Or.inr (by simp_all)
        | some top =>
          simp only at h'
          split at h'
          · exact Or.inr (by simp_all)
          · exact Or.inl h'
      · exact Or.inr (List.mem_cons_of_mem _ h')
  rcases general counts none h with h' | h'
  · simp at h'
  · exact h'

/-- An operation that names the OSD taken is dropped, so fewer remain. -/
theorem length_without_lt_of_mostNamed? {ops : List SlowOp} {entry : UInt32 × Nat}
    (h : mostNamed? (occurrences ops).toList = some entry) :
    (without entry.1 ops).length < ops.length := by
  have hkey : entry.1 ∈ (occurrences ops).keys :=
    List.mem_map.mpr ⟨entry, mem_of_mostNamed? h, rfl⟩
  obtain ⟨op, hop, hmem⟩ := (mem_keys_occurrences ops entry.1).mp hkey
  rw [without, ← List.countP_eq_length_filter]
  refine Nat.lt_of_le_of_ne List.countP_le_length fun hall => ?_
  have := List.countP_eq_length.mp hall op hop
  simp [hmem] at this

/-- The suspects of some slow operations, from a round on. -/
def suspectsFrom (hosts : HostMap) (round : Nat) (ops : List SlowOp) : List Suspect :=
  match h : mostNamed? (occurrences ops).toList with
  | none => []
  | some entry =>
    { osd := entry.1, count := entry.2, host := hosts.hostOf entry.1, round } ::
      suspectsFrom hosts (round + 1) (without entry.1 ops)
termination_by ops.length
decreasing_by exact length_without_lt_of_mostNamed? h

/-- The suspects of some slow operations. Rounds are counted from one. -/
def suspects (ops : List SlowOp) (hosts : HostMap) : List Suspect := suspectsFrom hosts 1 ops

end OsdLatency
