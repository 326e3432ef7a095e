import OsdLatency.Proofs.Share.Groups

/-!
# The report on shares

A report on shares is fixed by what it is about: it names the OSDs that have an operation with a
final latency in ascending order, for each of them the kinds of such operations in the order of the
trace, and for each kind it ranks the components by their mean shares. Operations without a final
latency leave no mark on it.

## Main definitions

* `IsShareReport` — a list reports the shares of some records

## Main results

* `isShareReport_iff` — some records have one report
* `sharesOf_exact` — the report is the shares of the records, those without a final latency apart
-/

namespace OsdLatency

variable {records : List Record} {report : List OsdShares} {osd : UInt32} {kind : OpKind}
  {ofOsd : OsdShares}

/-- Whether a record is of an OSD and a kind and has a final latency. -/
def Record.hasSharesIn (osd : UInt32) (kind : OpKind) (r : Record) : Bool :=
  decide (r.osd = osd) && r.hasShares && decide (r.kind = kind)

/-- A list reports the shares of some records. -/
structure IsShareReport (records : List Record) (report : List OsdShares) : Prop where
  /-- The OSDs are ascending, and they are those of the records with a final latency. -/
  ascending : (report.map OsdShares.osd).Pairwise (· < ·)
  mem_osds : ∀ osd, osd ∈ report.map OsdShares.osd ↔ ∃ r ∈ records, r.osd = osd ∧ r.final ≠ 0
  /-- The kinds of an OSD are in the order of their first such records, so that none comes twice. -/
  firstSeen : ∀ ofOsd ∈ report, (ofOsd.kinds.map KindShares.kind).Pairwise fun kind kind' =>
    records.findIdx (Record.hasSharesIn ofOsd.osd kind) <
      records.findIdx (Record.hasSharesIn ofOsd.osd kind')
  mem_kinds : ∀ ofOsd ∈ report, ∀ kind, kind ∈ ofOsd.kinds.map KindShares.kind ↔
    ∃ r ∈ records, r.osd = ofOsd.osd ∧ r.kind = kind ∧ r.final ≠ 0
  /-- The components are ranked by their means over such records. -/
  ranking : ∀ ofOsd ∈ report, ∀ ofKind ∈ ofOsd.kinds,
    IsRanking (records.filter (Record.hasSharesIn ofOsd.osd ofKind.kind)) ofKind.shares

/-! ### OSD by OSD and kind by kind -/

theorem hasShares_iff {r : Record} : r.hasShares = true ↔ r.final ≠ 0 := by
  simp [Record.hasShares]

theorem shareGroup_eq_filter (osd : UInt32) (kind : OpKind) (records : List Record) :
    shareGroup osd kind records = records.filter (Record.hasSharesIn osd kind) := by
  rw [shareGroup, recordsOfKind, recordsOfOsd, List.filter_filter, List.filter_filter]
  refine List.filter_congr fun r _ => ?_
  rw [Record.hasSharesIn, Bool.and_comm (decide (r.osd = osd)), Bool.and_comm, Bool.and_assoc,
    Bool.and_comm (decide (r.osd = osd))]

theorem shareGroup_ne_nil_iff : shareGroup osd kind records ≠ [] ↔
    ∃ r ∈ records, r.osd = osd ∧ r.kind = kind ∧ r.final ≠ 0 := by
  rw [shareGroup_eq_filter, Ne, List.filter_eq_nil_iff]
  push Not
  simp only [Record.hasSharesIn, Bool.and_eq_true, decide_eq_true_eq, hasShares_iff]
  exact exists_congr fun r => by tauto

theorem mem_osdsOf_hasShares : osd ∈ osdsOf (records.filter Record.hasShares) ↔
    ∃ r ∈ records, r.osd = osd ∧ r.final ≠ 0 := by
  simp only [mem_osdsOf, List.mem_filter, hasShares_iff]
  exact exists_congr fun r => by tauto

theorem map_kind_osdSharesOf (records : List Record) (osd : UInt32) :
    (osdSharesOf records osd).kinds.map KindShares.kind =
      kindsSeen (recordsOfOsd osd (records.filter Record.hasShares)) := by
  rw [osdSharesOf, List.map_map]
  exact List.map_id _

theorem mem_kindsSeen_hasShares :
    kind ∈ kindsSeen (recordsOfOsd osd (records.filter Record.hasShares)) ↔
      ∃ r ∈ records, r.osd = osd ∧ r.kind = kind ∧ r.final ≠ 0 := by
  rw [← shareGroup_ne_nil_iff, mem_kindsSeen_iff, shareGroup]

theorem pairwise_kindsSeen_hasShares (osd : UInt32) (records : List Record) :
    (kindsSeen (recordsOfOsd osd (records.filter Record.hasShares))).Pairwise fun kind kind' =>
      records.findIdx (Record.hasSharesIn osd kind) <
        records.findIdx (Record.hasSharesIn osd kind') := by
  rw [recordsOfOsd, List.filter_filter]
  exact pairwise_kindsSeen _ records

/-! ### One report -/

theorem map_osd_sharesOf (records : List Record) :
    (sharesOf records).map OsdShares.osd = osdsOf (records.filter Record.hasShares) := by
  rw [sharesOf_eq_map, List.map_map]
  exact List.map_id _

theorem osdSharesOf_of_mem_sharesOf (h : ofOsd ∈ sharesOf records) :
    osdSharesOf records ofOsd.osd = ofOsd := by
  rw [sharesOf_eq_map] at h
  obtain ⟨osd, -, rfl⟩ := List.mem_map.mp h
  rfl

theorem isShareReport_sharesOf (records : List Record) :
    IsShareReport records (sharesOf records) where
  ascending := by
    rw [map_osd_sharesOf]
    exact pairwise_osdsOf _
  mem_osds osd := by
    rw [map_osd_sharesOf, mem_osdsOf_hasShares]
  firstSeen ofOsd h := by
    have hkinds := pairwise_kindsSeen_hasShares ofOsd.osd records
    rwa [← map_kind_osdSharesOf, osdSharesOf_of_mem_sharesOf h] at hkinds
  mem_kinds ofOsd h kind := by
    rw [← mem_kindsSeen_hasShares, ← map_kind_osdSharesOf, osdSharesOf_of_mem_sharesOf h]
  ranking ofOsd h ofKind hkind := by
    obtain ⟨hne, hshares⟩ := shares_of_mem_sharesOf h hkind
    rw [hshares, ← shareGroup_eq_filter]
    exact isRanking_rankedShares hasShares_of_mem_shareGroup hne

/-- What a report says of an OSD is given by the records. -/
theorem IsShareReport.osdSharesOf_eq (h : IsShareReport records report) (hosd : ofOsd ∈ report) :
    osdSharesOf records ofOsd.osd = ofOsd := by
  have hkinds : ofOsd.kinds.map KindShares.kind =
      kindsSeen (recordsOfOsd ofOsd.osd (records.filter Record.hasShares)) := by
    -- Two lists of the same kinds, both in the order of their first records, are equal.
    refine (h.firstSeen ofOsd hosd).eq_of_mem_iff (pairwise_kindsSeen_hasShares _ records)
      fun kind => ?_
    rw [h.mem_kinds ofOsd hosd, mem_kindsSeen_hasShares]
  have hshares : ∀ ofKind ∈ ofOsd.kinds,
      { kind := ofKind.kind, shares := rankedShares (shareGroup ofOsd.osd ofKind.kind records) } =
        ofKind := fun ofKind hkind => by
    have hne := shareGroup_ne_nil_iff.mpr
      ((h.mem_kinds ofOsd hosd ofKind.kind).mp (List.mem_map_of_mem hkind))
    have hranking := h.ranking ofOsd hosd ofKind hkind
    rw [← shareGroup_eq_filter, isRanking_iff hasShares_of_mem_shareGroup hne] at hranking
    rw [← hranking]
  rw [osdSharesOf, ← hkinds, map_map_eq_self hshares]

/-- Some records have one report. -/
theorem isShareReport_iff : IsShareReport records report ↔ report = sharesOf records := by
  constructor
  · intro h
    have hosds : report.map OsdShares.osd = osdsOf (records.filter Record.hasShares) := by
      refine h.ascending.eq_of_mem_iff (pairwise_osdsOf _) fun osd => ?_
      rw [h.mem_osds, mem_osdsOf_hasShares]
    rw [sharesOf_eq_map, ← hosds, map_map_eq_self fun ofOsd hosd => h.osdSharesOf_eq hosd]
  · rintro rfl
    exact isShareReport_sharesOf records

/-! ### Records without a final latency -/

/-- Records without a final latency leave no mark on the report. -/
theorem sharesOf_filter_hasShares (records : List Record) :
    sharesOf (records.filter Record.hasShares) = sharesOf records := by
  have hosd : osdSharesOf (records.filter Record.hasShares) = osdSharesOf records := by
    funext osd
    simp only [osdSharesOf, shareGroup, List.filter_filter, Bool.and_self]
  rw [sharesOf_eq_map, sharesOf_eq_map, hosd, List.filter_filter]
  simp only [Bool.and_self]

/-- Some records have one report, and those without a final latency change nothing in it. -/
theorem sharesOf_exact (records : List Record) :
    (∀ report, IsShareReport records report ↔ report = sharesOf records) ∧
      sharesOf (records.filter Record.hasShares) = sharesOf records :=
  ⟨fun _ => isShareReport_iff, sharesOf_filter_hasShares records⟩

end OsdLatency
