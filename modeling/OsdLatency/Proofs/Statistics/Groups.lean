import Mathlib.Algebra.Ring.Nat
import Mathlib.Data.List.Perm.Basic
import Mathlib.Data.List.ProdSigma
import OsdLatency.Grouping
import OsdLatency.Proofs.Grouping

/-!
# The samples of a field

The values of a field are collected by OSD and kind in one pass. It loses none of them and makes
none up: every record that has the field leaves one value, in the slot of its own OSD and kind, and
every slot that is not empty is found through the OSDs and their kinds.

## Main definitions

* `LatencyGroups.listed` — the values of all groups, found through the OSDs and their kinds
* `LatencyGroups.AccountFor` — groups hold what some records say of a field

## Main results

* `perm_flatMap_filter` — a list falls into the parts of its keys
* `LatencyGroups.samples_ofRecords` — what the pass leaves in a slot
* `LatencyGroups.accountFor_ofRecords` — grouping loses nothing and makes nothing up
-/

namespace OsdLatency

/-! ### Parts by key -/

section Keys

variable {α β κ : Type*} [DecidableEq κ] {keys : List κ} {keyOf : α → κ} {key : κ} {l : List α}

/-- Only one of distinct keys has a part. -/
theorem flatMap_if_eq (hkeys : keys.Nodup) (hmem : key ∈ keys) (part : List β) :
    (keys.flatMap fun k => if k = key then part else []) = part := by
  have hone : keys.filter (· = key) = [key] := by
    rw [List.filter_eq, List.count_eq_one_of_mem hkeys hmem]
    rfl
  have hkept := flatMap_filter_eq (fun k => decide (k = key)) (fun _ => part) keys
  simp only [hone, List.flatMap_singleton, decide_eq_true_eq] at hkept
  exact hkept.symm

/-- Every element stands in the part of its own key, and there alone. -/
theorem perm_flatMap_filter (hkeys : keys.Nodup) (hcover : ∀ a ∈ l, keyOf a ∈ keys) :
    (keys.flatMap fun key => l.filter (keyOf · = key)).Perm l := by
  induction l with
  | nil => simp
  | cons a l ih =>
    rw [List.forall_mem_cons] at hcover
    have hsplit : ∀ key, (a :: l).filter (keyOf · = key) =
        (if key = keyOf a then [a] else []) ++ l.filter (keyOf · = key) := fun key => by
      by_cases h : key = keyOf a <;> simp [h, Ne.symm]
    simp only [hsplit]
    -- The first element comes out of its part, and the others fall apart as before.
    refine (List.flatMap_append_perm _ _ _).symm.trans ?_
    rw [flatMap_if_eq hkeys hcover.1]
    exact (ih hcover.2).cons a

end Keys

/-! ### Slots -/

namespace Slots

variable {field : LatencyField} {kind : OpKind}

/-- A record changes the slot of its kind alone. -/
theorem get_add (slots : Slots) (r : Record) (kind : OpKind) :
    (slots.add field r).get kind =
      if r.kind = kind then slots.get kind ++ (r.latency? field).toArray else slots.get kind := by
  rw [add]
  cases r.latency? field with
  | none => simp
  | some value => rw [get_push]; rfl

/-- A pass puts the values of the records of a kind behind those that are in its slot. -/
theorem toList_get_foldl_add (slots : Slots) (records : List Record) :
    ((records.foldl (add field) slots).get kind).toList =
      (slots.get kind).toList ++
        (records.filter (·.kind = kind)).filterMap (·.latency? field) := by
  rw [get_foldl get (fun values r => values ++ (r.latency? field).toArray) get_add]
  generalize records.filter (·.kind = kind) = ofKind
  generalize slots.get kind = values
  induction ofKind generalizing values with
  | nil => simp
  | cons r ofKind ih =>
    rw [List.foldl_cons, ih, List.filterMap_cons]
    cases r.latency? field <;> simp

end Slots

namespace LatencyGroups

variable {records : List Record} {osd : UInt32} {kind : OpKind} {field : LatencyField}
  {groups : LatencyGroups} {values : List UInt64}

/-! ### The samples of an OSD and a kind -/

theorem samples_eq_getD (groups : LatencyGroups) (osd : UInt32) (kind : OpKind) :
    groups.samples osd kind = ((groups.osds.getD osd .empty).get kind).toList := by
  rw [samples, OsdMap.getD]
  cases groups.osds.get? osd with
  | none => simp
  | some slots => rfl

/-- The samples of an OSD and a kind are what their records say of the field. -/
theorem samples_ofRecords (field : LatencyField) (records : List Record) (osd : UInt32)
    (kind : OpKind) : (ofRecords field records).samples osd kind =
      (records.filter fun r => (r.osd, r.kind) = (osd, kind)).filterMap (·.latency? field) := by
  have hslots : (ofRecords field records).osds.getD osd .empty =
      (recordsOfOsd osd records).foldl (Slots.add field) .empty :=
    OsdMap.getD_foldl_modify .empty records
  rw [samples_eq_getD, hslots, Slots.toList_get_foldl_add, Slots.get_empty, recordsOfOsd,
    List.filter_filter]
  simp only [List.nil_append, Prod.mk.injEq, Bool.decide_and, Bool.and_comm]

/-- The OSDs are those that have a record. -/
theorem osdIds_ofRecords (field : LatencyField) (records : List Record) :
    (ofRecords field records).osdIds = osdsOf records := osds_foldl_modify records

/-! ### The groups that are listed -/

theorem map_fst_kindsOf (groups : LatencyGroups) (osd : UInt32) :
    (groups.kindsOf osd).map Prod.fst =
      OpKind.all.filter fun kind => !(groups.samples osd kind).isEmpty := by
  rw [kindsOf, List.filter_map, List.map_map]
  exact List.map_id _

theorem mem_kindsOf :
    (kind, values) ∈ groups.kindsOf osd ↔ values = groups.samples osd kind ∧ values ≠ [] := by
  rw [kindsOf, List.mem_filter, List.mem_map]
  constructor
  · rintro ⟨⟨kind', -, heq⟩, hne⟩
    obtain ⟨rfl, rfl⟩ := Prod.mk.inj heq
    exact ⟨rfl, by simpa using hne⟩
  · rintro ⟨rfl, hne⟩
    exact ⟨⟨kind, kind.mem_all, rfl⟩, by simpa using hne⟩

/-- The values of all groups, found through the OSDs and their kinds. -/
def listed (groups : LatencyGroups) : List UInt64 :=
  groups.osdIds.flatMap fun osd => (groups.kindsOf osd).flatMap Prod.snd

/-- A kind without a sample is not listed, but then there is nothing to list. -/
theorem flatMap_kindsOf (groups : LatencyGroups) (osd : UInt32) :
    (groups.kindsOf osd).flatMap Prod.snd = OpKind.all.flatMap (groups.samples osd) := by
  rw [kindsOf, flatMap_filter_eq, List.flatMap_map]
  refine List.flatMap_congr fun kind _ => ?_
  cases groups.samples osd kind <;> rfl

/-- Every OSD that has a record with every kind. -/
def keysOf (records : List Record) : List (UInt32 × OpKind) :=
  (osdsOf records).flatMap fun osd => OpKind.all.map fun kind => (osd, kind)

theorem nodup_keysOf (records : List Record) : (keysOf records).Nodup :=
  (pairwise_osdsOf records).nodup.product (by decide)

theorem mem_keysOf {r : Record} (hr : r ∈ records) : (r.osd, r.kind) ∈ keysOf records :=
  List.mem_product.mpr ⟨mem_osdsOf.mpr ⟨r, hr, rfl⟩, r.kind.mem_all⟩

/-- What is listed are the values of all records. -/
theorem listed_perm (field : LatencyField) (records : List Record) :
    (ofRecords field records).listed.Perm (records.filterMap (·.latency? field)) := by
  have hparts : (ofRecords field records).listed =
      ((keysOf records).flatMap fun key =>
        records.filter fun r => (r.osd, r.kind) = key).filterMap (·.latency? field) := by
    rw [listed, osdIds_ofRecords, keysOf, List.filterMap_flatMap, List.flatMap_assoc]
    simp only [flatMap_kindsOf, List.flatMap_map, ← samples_ofRecords]
  rw [hparts]
  exact (perm_flatMap_filter (nodup_keysOf records) fun _ => mem_keysOf).filterMap _

theorem length_listed (groups : LatencyGroups) : groups.listed.length =
    (groups.osdIds.map fun osd => ((groups.kindsOf osd).map fun group => group.2.length).sum).sum := by
  rw [listed, List.length_flatMap]
  simp only [List.length_flatMap]

/-- Groups hold what some records say of a field. -/
structure AccountFor (groups : LatencyGroups) (field : LatencyField) (records : List Record) :
    Prop where
  /-- The samples of an OSD and a kind are in the order of the trace. -/
  samples : ∀ osd kind, groups.samples osd kind =
    (records.filter fun r => r.osd = osd ∧ r.kind = kind).filterMap (·.latency? field)
  /-- The OSDs are ascending. Those without a sample are there too. -/
  ascending : groups.osdIds.Pairwise (· < ·)
  mem_osdIds : ∀ osd, osd ∈ groups.osdIds ↔ ∃ r ∈ records, r.osd = osd
  /-- The kinds of an OSD are in the order of the reports. Those without a sample are not there. -/
  order : ∀ osd,
    ((groups.kindsOf osd).map Prod.fst).Sublist [.read, .write, .replicaRead, .replicaWrite]
  mem_kindsOf : ∀ osd kind values,
    (kind, values) ∈ groups.kindsOf osd ↔ values = groups.samples osd kind ∧ values ≠ []
  /-- No value of a record is lost, and none is there twice. -/
  listed : groups.listed.Perm (records.filterMap (·.latency? field))
  length : (groups.osdIds.map fun osd =>
      ((groups.kindsOf osd).map fun group => group.2.length).sum).sum =
    records.countP fun r => (r.latency? field).isSome

/-- Grouping loses nothing and makes nothing up. -/
theorem accountFor_ofRecords (field : LatencyField) (records : List Record) :
    (ofRecords field records).AccountFor field records where
  samples osd kind := by
    rw [samples_ofRecords]
    simp only [Prod.mk.injEq]
  ascending := (ofRecords field records).osds.ascending
  mem_osdIds _ := by rw [osdIds_ofRecords, mem_osdsOf]
  order osd := by
    rw [map_fst_kindsOf]
    exact List.filter_sublist
  mem_kindsOf _ _ _ := mem_kindsOf
  listed := listed_perm field records
  length := by
    rw [← length_listed, (listed_perm field records).length_eq, List.length_filterMap_eq_countP]

end LatencyGroups

end OsdLatency
