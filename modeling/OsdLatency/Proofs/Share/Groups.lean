import OsdLatency.Proofs.Share.Ranking

/-!
# The groups of a report on shares

A report on shares ranks the components for every OSD and kind that has an operation with a final
latency, and it takes the means over just those operations.

## Main results

* `shares_of_mem_sharesOf` — what is reported of an OSD and a kind ranks their operations
* `mem_sharesOf`, `exists_mem_sharesOf` — what is reported are the means of all groups
-/

namespace OsdLatency

variable {records : List Record} {osd : UInt32} {kind : OpKind} {ofOsd : OsdShares}
  {ofKind : KindShares} {fieldShare : FieldShare}

theorem hasShares_of_mem_shareGroup :
    ∀ r ∈ shareGroup osd kind records, r.hasShares = true := by
  intro r hr
  have hfiltered := List.mem_of_mem_filter (List.mem_of_mem_filter hr)
  exact (List.mem_filter.mp hfiltered).2

/-- What is reported of an OSD and a kind ranks their operations, and there is one at least. -/
theorem shares_of_mem_sharesOf (hosd : ofOsd ∈ sharesOf records) (hkind : ofKind ∈ ofOsd.kinds) :
    shareGroup ofOsd.osd ofKind.kind records ≠ [] ∧
      ofKind.shares = rankedShares (shareGroup ofOsd.osd ofKind.kind records) := by
  rw [sharesOf_eq_map] at hosd
  obtain ⟨osd, -, rfl⟩ := List.mem_map.mp hosd
  obtain ⟨kind, hseen, rfl⟩ := List.mem_map.mp hkind
  exact ⟨mem_kindsSeen_iff.mp hseen, rfl⟩

/-- Every reported share is the mean of a component over the operations of its OSD and kind, and
there is one at least. -/
theorem mem_sharesOf (hosd : ofOsd ∈ sharesOf records) (hkind : ofKind ∈ ofOsd.kinds)
    (hshare : fieldShare ∈ ofKind.shares) :
    shareGroup ofOsd.osd ofKind.kind records ≠ [] ∧ ∃ component, fieldShare =
      ⟨.component component, meanShare component (shareGroup ofOsd.osd ofKind.kind records)⟩ := by
  obtain ⟨hne, hshares⟩ := shares_of_mem_sharesOf hosd hkind
  rw [hshares] at hshare
  exact ⟨hne, mem_rankedShares.mp hshare⟩

/-- All means over the operations of an OSD and a kind are reported, if there is one. -/
theorem exists_mem_sharesOf (hne : shareGroup osd kind records ≠ []) (component : Component) :
    ∃ ofOsd ∈ sharesOf records, ∃ ofKind ∈ ofOsd.kinds,
      ⟨.component component, meanShare component (shareGroup osd kind records)⟩ ∈
        ofKind.shares := by
  obtain ⟨r, hr⟩ := List.exists_mem_of_ne_nil _ hne
  have hrecord := List.mem_filter.mp (List.mem_of_mem_filter hr)
  have hosd : osd ∈ osdsOf (records.filter Record.hasShares) :=
    mem_osdsOf.mpr ⟨r, hrecord.1, by simpa using hrecord.2⟩
  rw [sharesOf_eq_map]
  exact ⟨_, List.mem_map_of_mem hosd, _, List.mem_map_of_mem (mem_kindsSeen_iff.mpr hne),
    mem_rankedShares.mpr ⟨component, rfl⟩⟩

end OsdLatency
