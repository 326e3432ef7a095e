import Mathlib.Data.List.Sort
import OsdLatency.Proofs.OnePass
import OsdLatency.Trace.Record

/-!
# The records of one OSD

Records of several OSDs come interleaved. Grouping them by OSD puts apart what the records of each
OSD alone would give: the groups are in ascending order, and the group of an OSD is what is left of
the trace when all other records are dropped.

## Main definitions

* `recordsOfOsd` — the records of one OSD
* `byOsd`, `osdsOf` — the records OSD by OSD, and the OSDs that have one
* `SplitsByOsd` — a list made from records falls into the lists made for one OSD each

## Main results

* `byOsd_eq_map` — the groups, each as the records of its OSD
* `splitsByOsd_flatMap` — what is made from one group after another falls apart
-/

namespace OsdLatency

variable {α β γ : Type*} {osd : UInt32} {records : List Record}

/-- The records of one OSD in their order. -/
def recordsOfOsd (osd : UInt32) (records : List Record) : List Record :=
  records.filter (·.osd = osd)

/-- The map of the records by OSD. -/
def osdRecords (records : List Record) : OsdMap (List Record) :=
  records.foldl (fun groups r => groups.modify r.osd [] (· ++ [r])) .empty

/-- The records of each OSD, by ascending OSD. -/
def byOsd (records : List Record) : List (UInt32 × List Record) := (osdRecords records).toList

/-- The OSDs that have a record, ascending. -/
def osdsOf (records : List Record) : List UInt32 := (byOsd records).map Prod.fst

/-- A list whose elements are given by their keys is given by the list of the keys. -/
theorem map_map_eq_self {f : β → α} {keyOf : α → β} {l : List α}
    (h : ∀ a ∈ l, f (keyOf a) = a) : (l.map keyOf).map f = l := by
  rw [List.map_map]
  exact (List.map_congr_left h).trans (List.map_id _)

/-! ### Records by OSD -/

theorem pairwise_osdsOf (records : List Record) : (osdsOf records).Pairwise (· < ·) :=
  (osdRecords records).ascending

theorem mem_osdsOf : osd ∈ osdsOf records ↔ ∃ r ∈ records, r.osd = osd :=
  (OsdMap.mem_osds_foldl_modify .empty records).trans (or_iff_right List.not_mem_nil)

/-- Any pass over some records leaves the OSDs that have one. -/
theorem osds_foldl_modify {start : α} {change : α → Record → α} (records : List Record) :
    (records.foldl (fun m r => m.modify r.osd start (change · r)) OsdMap.empty).osds =
      osdsOf records := by
  refine (OsdMap.ascending _).eq_of_mem_iff (pairwise_osdsOf records) fun osd => ?_
  rw [mem_osdsOf]
  exact (OsdMap.mem_osds_foldl_modify .empty records).trans (or_iff_right List.not_mem_nil)

theorem recordsOfOsd_eq_nil (h : osd ∉ osdsOf records) : recordsOfOsd osd records = [] := by
  rw [recordsOfOsd, List.filter_eq_nil_iff]
  exact fun r hr hosd => h (mem_osdsOf.mpr ⟨r, hr, by simpa using hosd⟩)

/-- The group of an OSD is what the trace holds of it. -/
theorem getD_osdRecords (osd : UInt32) (records : List Record) :
    (osdRecords records).getD osd [] = recordsOfOsd osd records :=
  (OsdMap.getD_foldl_modify .empty records).trans (foldl_concat_singleton _)

/-- The groups of a trace, each as the records of its OSD. -/
theorem byOsd_eq_map (records : List Record) :
    byOsd records = (osdsOf records).map fun osd => (osd, recordsOfOsd osd records) := by
  have h := (osdRecords records).toList_eq_map []
  simp only [getD_osdRecords] at h
  exact h

theorem osdsOf_recordsOfOsd (osd : UInt32) (records : List Record) :
    osdsOf (recordsOfOsd osd records) = if osd ∈ osdsOf records then [osd] else [] := by
  split_ifs with h
  -- Two ascending lists with the same members are equal.
  · refine (pairwise_osdsOf _).eq_of_mem_iff (List.pairwise_singleton _ _) fun o => ?_
    rw [mem_osdsOf, List.mem_singleton]
    obtain ⟨r, hr, rfl⟩ := mem_osdsOf.mp h
    constructor
    · rintro ⟨s, hs, rfl⟩
      simpa using (List.mem_filter.mp hs).2
    · rintro rfl
      exact ⟨r, List.mem_filter.mpr ⟨hr, by simp⟩, rfl⟩
  · rw [recordsOfOsd_eq_nil h]
    rfl

/-- The records of one OSD make up one group. -/
theorem byOsd_recordsOfOsd (osd : UInt32) (records : List Record) :
    byOsd (recordsOfOsd osd records) =
      if osd ∈ osdsOf records then [(osd, recordsOfOsd osd records)] else [] := by
  have hself : recordsOfOsd osd (recordsOfOsd osd records) = recordsOfOsd osd records := by
    simp [recordsOfOsd]
  rw [byOsd_eq_map, osdsOf_recordsOfOsd]
  split_ifs
  · rw [List.map_singleton, hself]
  · rfl

/-! ### Lists that fall apart by OSD -/

/-- A list made from records falls into the lists made for one OSD each. The OSDs may be more than
those that have a record. -/
def SplitsByOsd (report : List Record → List β) : Prop :=
  ∀ (records : List Record) (osds : List UInt32), osds.Pairwise (· < ·) →
    (∀ r ∈ records, r.osd ∈ osds) →
      report records = osds.flatMap fun osd => report (recordsOfOsd osd records)

theorem flatMap_filter_eq (keep : α → Bool) (f : α → List β) (l : List α) :
    (l.filter keep).flatMap f = l.flatMap fun a => if keep a then f a else [] := by
  induction l with
  | nil => rfl
  | cons a l ih =>
    rw [List.filter_cons, List.flatMap_cons, ← ih]
    split_ifs
    · rw [List.flatMap_cons]
    · rfl

/-- What is made from one group after another falls apart. -/
theorem splitsByOsd_flatMap (part : UInt32 × List Record → List β) :
    SplitsByOsd fun records => (byOsd records).flatMap part := by
  intro records osds hosds hcover
  -- Only OSDs with a record have a group; the others add nothing.
  have hkept : osdsOf records = osds.filter (· ∈ osdsOf records) := by
    refine (pairwise_osdsOf records).eq_of_mem_iff (hosds.filter _) fun o => ?_
    rw [List.mem_filter, decide_eq_true_eq]
    refine ⟨fun ho => ⟨?_, ho⟩, And.right⟩
    obtain ⟨r, hr, rfl⟩ := mem_osdsOf.mp ho
    exact hcover r hr
  have hpart : ∀ osd, (byOsd (recordsOfOsd osd records)).flatMap part =
      if osd ∈ osdsOf records then part (osd, recordsOfOsd osd records) else [] := fun osd => by
    rw [byOsd_recordsOfOsd]
    split_ifs
    · exact List.flatMap_singleton _ _
    · rfl
  calc
    (byOsd records).flatMap part
        = (osdsOf records).flatMap fun osd => part (osd, recordsOfOsd osd records) := by
          rw [byOsd_eq_map, List.flatMap_map]
    _ = (osds.filter (· ∈ osdsOf records)).flatMap fun osd =>
          part (osd, recordsOfOsd osd records) := by
          rw [← hkept]
    _ = osds.flatMap fun osd => (byOsd (recordsOfOsd osd records)).flatMap part := by
          simp only [flatMap_filter_eq, decide_eq_true_eq, hpart]

theorem recordsOfOsd_filter (osd : UInt32) (keep : Record → Bool) (records : List Record) :
    recordsOfOsd osd (records.filter keep) = (recordsOfOsd osd records).filter keep := by
  simp only [recordsOfOsd, List.filter_filter, Bool.and_comm]

namespace SplitsByOsd

variable {report : List Record → List β}

/-- Without records there is nothing. -/
theorem nil (h : SplitsByOsd report) : report [] = [] :=
  h [] [] List.Pairwise.nil fun _ hr => absurd hr List.not_mem_nil

/-- Every part may be changed into another list. -/
theorem flatMap (h : SplitsByOsd report) (f : β → List γ) :
    SplitsByOsd fun records => (report records).flatMap f := by
  intro records osds hosds hcover
  beta_reduce
  rw [h records osds hosds hcover, List.flatMap_assoc]

/-- Records may be dropped beforehand. -/
theorem filter (h : SplitsByOsd report) (keep : Record → Bool) :
    SplitsByOsd fun records => report (records.filter keep) := by
  intro records osds hosds hcover
  beta_reduce
  rw [h (records.filter keep) osds hosds fun r hr => hcover r (List.mem_of_mem_filter hr)]
  simp only [recordsOfOsd_filter]

/-- The OSDs that have a record are enough. -/
theorem eq_flatMap_osdsOf (h : SplitsByOsd report) (records : List Record) :
    report records = (osdsOf records).flatMap fun osd => report (recordsOfOsd osd records) :=
  h records _ (pairwise_osdsOf records) fun r hr => mem_osdsOf.mpr ⟨r, hr, rfl⟩

end SplitsByOsd

end OsdLatency
