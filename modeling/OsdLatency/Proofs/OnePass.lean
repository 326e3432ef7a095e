import Mathlib.Data.List.Basic
import Mathlib.Tactic.Common
import OsdLatency.OsdMap
import OsdLatency.Proofs.Table

/-!
# One pass over many elements

A pass that fills a map takes its elements one after the other, and each of them changes what stands
in one place. So every place ends up with what a pass over its own elements leaves there, however
these are mixed with others, and a key is there exactly if it comes with an element.

## Main results

* `get_foldl` — what stands in a place after a pass
* `OsdMap.mem_osds_foldl_modify` — the OSDs of a map after a pass
* `Table.keys_foldl_modify` — the keys of a table after a pass, in their order
* `OsdMap.toList_eq_map` — the entries of a map, each as its OSD with its value
-/

namespace OsdLatency

section Places

variable {σ β κ ν : Type*} [DecidableEq κ] {step : σ → β → σ} {keyOf : β → κ}

/-- If each element changes what stands in its own place alone, a pass leaves in a place what the
pass over the elements of that place leaves there. -/
theorem get_foldl (get : σ → κ → ν) (change : ν → β → ν)
    (h : ∀ s b key, get (step s b) key = if keyOf b = key then change (get s key) b else get s key)
    (s : σ) (l : List β) (key : κ) :
    get (l.foldl step s) key = (l.filter (keyOf · = key)).foldl change (get s key) := by
  induction l generalizing s with
  | nil => rfl
  | cons b l ih =>
    rw [List.foldl_cons, ih, h, List.filter_cons]
    by_cases hb : keyOf b = key
    · simp only [hb, decide_true, if_true, List.foldl_cons]
    · simp only [hb, decide_false, if_false, Bool.false_eq_true]

/-- A pass that puts one element behind the other keeps them all. -/
theorem foldl_concat_singleton (l : List β) : l.foldl (fun kept b => kept ++ [b]) [] = l := by
  rw [List.foldl_append_eq_append, List.nil_append, ← List.flatMap_def, List.flatMap_singleton']

end Places

section Maps

variable {β ν : Type*} {start : ν} {change : ν → β → ν} {osd : UInt32} {osdOf : β → UInt32}

namespace OsdMap

/-- The value of an OSD after a pass. -/
theorem getD_foldl_modify (m : OsdMap ν) (l : List β) :
    (l.foldl (fun m b => m.modify (osdOf b) start (change · b)) m).getD osd start =
      (l.filter (osdOf · = osd)).foldl change (m.getD osd start) :=
  get_foldl (fun m osd => getD m osd start) change
    (fun m b osd => getD_modify m (osdOf b) osd start (change · b)) m l osd

/-- The OSDs after a pass are those that were there and those of the elements. -/
theorem mem_osds_foldl_modify (m : OsdMap ν) (l : List β) :
    osd ∈ (l.foldl (fun m b => m.modify (osdOf b) start (change · b)) m).osds ↔
      osd ∈ m.osds ∨ ∃ b ∈ l, osdOf b = osd := by
  induction l generalizing m with
  | nil => simp
  | cons b l ih =>
    rw [List.foldl_cons, ih, mem_osds_modify, List.exists_mem_cons_iff, eq_comm]
    tauto

theorem nodup_osds (m : OsdMap ν) : m.osds.Nodup := m.ascending.imp UInt32.ne_of_lt

/-- The entries, each as its OSD with its value. -/
theorem toList_eq_map (m : OsdMap ν) (start : ν) :
    m.toList = m.osds.map fun osd => (osd, m.getD osd start) :=
  Table.eq_map_find m.nodup_osds start

end OsdMap

namespace Table

variable {κ : Type*} [DecidableEq κ] {key : κ} {keyOf : β → κ}

/-- What stands under a key after a pass. -/
theorem getD_foldl_modify (t : Table κ ν) (l : List β) :
    (l.foldl (fun t b => t.modify (keyOf b) start (change · b)) t).getD key start =
      (l.filter (keyOf · = key)).foldl change (t.getD key start) :=
  get_foldl (fun t key => getD t key start) change
    (fun t b key => getD_modify t (keyOf b) key start (change · b)) t l key

/-- The keys after a pass: one that is not there yet is put behind the others. -/
theorem keys_foldl_modify (t : Table κ ν) (l : List β) :
    (l.foldl (fun t b => t.modify (keyOf b) start (change · b)) t).keys =
      l.foldl (fun keys b => if keyOf b ∈ keys then keys else keys ++ [keyOf b]) t.keys := by
  induction l generalizing t with
  | nil => rfl
  | cons b l ih => rw [List.foldl_cons, ih, keys_modify, List.foldl_cons]

end Table

end Maps

end OsdLatency
