import Mathlib.Data.List.Basic
import Mathlib.Data.List.Induction
import Mathlib.Tactic.Common
import OsdLatency.Proofs.Table
import OsdLatency.Suspect.Ranking

/-!
# The leader of a round

The mentions of OSDs are counted in one pass, and the first of the greatest counts is taken. What is
taken leads in the list of mentions: no other OSD is mentioned more often, and those mentioned as
often are first mentioned later.

## Main definitions

* `mentions` — the OSDs that some operations name, as often and in the order they are named
* `tally` — the counting table
* `Leads` — an OSD leads in a list of mentions

## Main results

* `get?_tally`, `pairwise_keys_tally` — counts and order of the counting table
* `exists_split_of_mostNamed?` — the first of the greatest counts
* `mostNamed?_occurrences_iff` — what is taken is the leader with its count
* `Leads.unique` — there is one leader at most
-/

namespace OsdLatency

variable {ops : List SlowOp} {osds : List UInt32} {osd other : UInt32} {count : ℕ}
  {entries : List (UInt32 × ℕ)} {top entry : UInt32 × ℕ}

/-- The OSDs that some operations name, as often and in the order they are named. -/
def mentions (ops : List SlowOp) : List UInt32 := ops.flatten

/-- An OSD leads in a list of mentions: it is mentioned most often, and of those mentioned as often
it is mentioned first. -/
def Leads (osds : List UInt32) (osd : UInt32) : Prop :=
  osd ∈ osds ∧ ∀ other ∈ osds, osds.count other < osds.count osd ∨
    osds.count other = osds.count osd ∧ osds.idxOf osd ≤ osds.idxOf other

/-- There is one leader at most. -/
theorem Leads.unique (h : Leads osds osd) (h' : Leads osds other) : osd = other := by
  have hother := h.2 other h'.1
  have hosd := h'.2 osd h.1
  have hplace : osds.idxOf osd = osds.idxOf other := by omega
  exact (List.idxOf_inj h.1).mp hplace

/-! ### The counting table -/

/-- The mentions of some OSDs, counted. -/
def tally (osds : List UInt32) : Table UInt32 ℕ := osds.foldl countMention Table.empty

theorem occurrences_eq_tally (ops : List SlowOp) : occurrences ops = tally (mentions ops) := rfl

theorem tally_concat (osds : List UInt32) (osd : UInt32) :
    tally (osds ++ [osd]) = countMention (tally osds) osd := by
  rw [tally, List.foldl_append]
  rfl

theorem mem_keys_tally : osd ∈ (tally osds).keys ↔ osd ∈ osds := by
  rw [tally, mem_keys_foldl_countMention]
  exact or_iff_right List.not_mem_nil

/-- Every OSD is counted as often as it is mentioned. -/
theorem get?_tally (osds : List UInt32) (osd : UInt32) :
    (tally osds).get? osd = if osd ∈ osds then some (osds.count osd) else none := by
  induction osds using List.reverseRecOn with
  | nil => rfl
  | append_singleton osds last ih =>
    rw [tally_concat, countMention, Table.get?_insert]
    by_cases hlast : last = osd
    · subst hlast
      rw [if_pos rfl, if_pos (by simp), ih, List.count_append, List.count_singleton_self]
      split_ifs with hmem
      · rfl
      · rw [List.count_eq_zero_of_not_mem hmem]
        rfl
    · simp [hlast, ih, List.count_append, Ne.symm hlast]

/-- The counting table is in the order of the first mentions. -/
theorem pairwise_keys_tally (osds : List UInt32) :
    (tally osds).keys.Pairwise fun a b => osds.idxOf a < osds.idxOf b := by
  induction osds using List.reverseRecOn with
  | nil => exact List.Pairwise.nil
  | append_singleton osds last ih =>
    -- A mention more does not move the first mentions before it.
    have hkept : (tally osds).keys.Pairwise fun a b =>
        (osds ++ [last]).idxOf a < (osds ++ [last]).idxOf b := by
      refine ih.imp_of_mem fun ha hb hlt => ?_
      rwa [List.idxOf_append_of_mem (mem_keys_tally.mp ha),
        List.idxOf_append_of_mem (mem_keys_tally.mp hb)]
    rw [tally_concat, countMention, Table.keys_insert]
    split_ifs with hlast
    · exact hkept
    · rw [List.pairwise_append]
      refine ⟨hkept, List.pairwise_singleton _ _, fun a ha b hb => ?_⟩
      rw [List.mem_singleton.mp hb, List.idxOf_append_of_mem (mem_keys_tally.mp ha),
        List.idxOf_append_of_notMem fun hmem => hlast (mem_keys_tally.mpr hmem)]
      have := List.idxOf_lt_length_of_mem (mem_keys_tally.mp ha)
      omega

/-! ### The first of the greatest counts -/

theorem mostNamed?_concat (entries : List (UInt32 × ℕ)) (entry : UInt32 × ℕ) :
    mostNamed? (entries ++ [entry]) =
      match mostNamed? entries with
      | none => some entry
      | some top => if top.2 < entry.2 then some entry else some top := by
  rw [mostNamed?, List.foldl_append]
  rfl

theorem mostNamed?_eq_none_iff : mostNamed? entries = none ↔ entries = [] := by
  constructor
  · induction entries using List.reverseRecOn with
    | nil => exact fun _ => rfl
    | append_singleton entries entry _ =>
      intro h
      rw [mostNamed?_concat] at h
      split at h
      · exact absurd h (Option.some_ne_none _)
      · split at h <;> exact absurd h (Option.some_ne_none _)
  · intro h
    rw [h]
    rfl

/-- The entry that is taken has a greater count than those before it, and none behind it has a
greater one. -/
theorem exists_split_of_mostNamed? (h : mostNamed? entries = some top) :
    ∃ front back, entries = front ++ top :: back ∧ (∀ entry ∈ front, entry.2 < top.2) ∧
      ∀ entry ∈ back, entry.2 ≤ top.2 := by
  induction entries using List.reverseRecOn generalizing top with
  | nil => exact absurd h.symm (Option.some_ne_none _)
  | append_singleton entries last ih =>
    rw [mostNamed?_concat] at h
    cases hbest : mostNamed? entries with
    | none =>
      rw [hbest] at h
      rw [mostNamed?_eq_none_iff.mp hbest, ← Option.some_inj.mp h]
      exact ⟨[], [], rfl, by simp, by simp⟩
    | some best =>
      obtain ⟨front, back, rfl, hfront, hback⟩ := ih hbest
      rw [hbest] at h
      dsimp only at h
      split_ifs at h with hlt
      · -- A greater count takes the place of the best one so far.
        rw [← Option.some_inj.mp h]
        refine ⟨front ++ best :: back, [], rfl, fun entry hentry => ?_, by simp⟩
        rcases List.mem_append.mp hentry with hmem | hmem
        · exact Nat.lt_trans (hfront entry hmem) hlt
        · rcases List.mem_cons.mp hmem with rfl | hmem
          · exact hlt
          · exact Nat.lt_of_le_of_lt (hback entry hmem) hlt
      · rw [← Option.some_inj.mp h]
        refine ⟨front, back ++ [last], by simp, hfront, fun entry hentry => ?_⟩
        rcases List.mem_append.mp hentry with hmem | hmem
        · exact hback entry hmem
        · rw [List.mem_singleton.mp hmem]
          exact Nat.le_of_not_lt hlt

/-! ### The leader -/

theorem mem_tally_iff :
    (osd, count) ∈ (tally osds).toList ↔ osd ∈ osds ∧ count = osds.count osd := by
  rw [Table.mem_toList_iff, get?_tally]
  split_ifs with h
  · rw [Option.some_inj, and_iff_right h, eq_comm]
  · exact iff_of_false nofun fun hmem => h hmem.1

/-- What is taken leads in the mentions. -/
theorem leads_of_mostNamed? (h : mostNamed? (tally osds).toList = some top) :
    Leads osds top.1 ∧ top.2 = osds.count top.1 := by
  obtain ⟨front, back, hsplit, hfront, hback⟩ := exists_split_of_mostNamed? h
  have hentry : ∀ entry, entry ∈ (tally osds).toList ↔
      entry.1 ∈ osds ∧ entry.2 = osds.count entry.1 := fun _ => mem_tally_iff
  have hmem : ∀ entry, entry ∈ (tally osds).toList ↔
      entry ∈ front ∨ entry = top ∨ entry ∈ back := by
    intro entry
    rw [hsplit, List.mem_append, List.mem_cons]
  obtain ⟨htop, hcount⟩ := (hentry top).mp ((hmem top).mpr (Or.inr (Or.inl rfl)))
  have horder := pairwise_keys_tally osds
  rw [Table.keys, hsplit, List.map_append, List.map_cons, List.pairwise_append,
    List.pairwise_cons] at horder
  refine ⟨⟨htop, fun other hother => ?_⟩, hcount⟩
  rw [← hcount]
  rcases (hmem (other, osds.count other)).mp ((hentry _).mpr ⟨hother, rfl⟩) with hin | heq | hin
  · exact Or.inl (hfront _ hin)
  · rw [← heq]
    exact Or.inr ⟨rfl, Nat.le_refl _⟩
  · -- An entry behind the leader is first mentioned behind it.
    have hbehind := horder.2.1.1 other (List.mem_map.mpr ⟨_, hin, rfl⟩)
    rcases Nat.lt_or_eq_of_le (hback _ hin) with hless | hequal
    · exact Or.inl hless
    · exact Or.inr ⟨hequal, Nat.le_of_lt hbehind⟩

/-- The leader of a round, with its count. -/
theorem mostNamed?_occurrences_iff :
    mostNamed? (occurrences ops).toList = some top ↔
      Leads (mentions ops) top.1 ∧ top.2 = (mentions ops).count top.1 := by
  rw [occurrences_eq_tally]
  constructor
  · exact leads_of_mostNamed?
  · rintro ⟨hleads, hcount⟩
    cases h : mostNamed? (tally (mentions ops)).toList with
    | none =>
      have hentry := mem_tally_iff.mpr ⟨hleads.1, hcount⟩
      rw [mostNamed?_eq_none_iff.mp h] at hentry
      exact absurd hentry List.not_mem_nil
    | some best =>
      obtain ⟨hbest, hcount'⟩ := leads_of_mostNamed? h
      have hosd := hbest.unique hleads
      rw [Option.some_inj, Prod.ext_iff, hcount, hcount', hosd]
      exact ⟨rfl, rfl⟩

/-- No OSD is taken exactly if no operation names one. -/
theorem mostNamed?_occurrences_eq_none_iff :
    mostNamed? (occurrences ops).toList = none ↔ ∀ op ∈ ops, op = [] := by
  rw [mostNamed?_eq_none_iff, occurrences_eq_tally, ← List.flatten_eq_nil_iff, ← mentions]
  constructor
  · intro h
    refine List.eq_nil_iff_forall_not_mem.mpr fun osd hosd => ?_
    have hentry := mem_tally_iff.mpr ⟨hosd, rfl⟩
    rw [h] at hentry
    exact List.not_mem_nil hentry
  · intro h
    rw [h]
    rfl

end OsdLatency
