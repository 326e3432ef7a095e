import OsdLatency.Proofs.Share.Groups

/-!
# The range of reported shares

All percentages that are reported are means over the operations of one OSD and one kind that have a
final latency. They are never negative and hardly ever above a hundred, but the cap of 99.99 does
not bound them: it is put in only where a share reaches a hundred.

## Main definitions

* `ShareRange`, `MeanRange` — what bounds a share, and a mean of shares

## Main results

* `sharesOf_range` — the range of shares and of all that is reported
* `not_forall_share_le_shareCap` — the cap is passed
-/

namespace OsdLatency

variable {value total : UInt64} {component : Component} {group : List Record}

/-- What bounds a share. -/
structure ShareRange (value total : UInt64) : Prop where
  nonneg : 0.0 ≤ share value total
  lt_hundred : share value total < 100.0
  le_cap_iff : share value total ≤ shareCap ↔ ¬NearlyWhole value total

/-- What bounds the mean share of a component in a group. -/
structure MeanRange (component : Component) (group : List Record) : Prop where
  nonneg : 0.0 ≤ meanShare component group
  le : meanShare component group ≤ 128.0
  le_hundred : group.length ≤ 2 ^ 46 → meanShare component group ≤ 100.0
  le_cap_iff : meanShare component group ≤ shareCap ↔ MeanStays component group
  /-- Rounding alone does not lift a short group above the cap. -/
  le_cap : group.length ≤ 182 → (∀ r ∈ group, ¬NearlyWhole (r.component component) r.final) →
    meanShare component group ≤ shareCap

theorem share_range (h : total ≠ 0) : ShareRange value total where
  nonneg := by
    have hzero : Binary64.HasValue 0.0 0 := .zero
    exact (hzero.le_iff (hasValue_share h)).mpr (shareValue_nonneg value total)
  lt_hundred := ((hasValue_share h).lt_iff hasValue_hundred).mpr (shareValue_lt h)
  le_cap_iff := by
    rw [(hasValue_share h).le_iff hasValue_shareCap, shareValue_le_capValue_iff]

theorem meanShare_range (h : ∀ r ∈ group, r.hasShares = true) (hne : group ≠ []) :
    MeanRange component group where
  nonneg := meanShare_nonneg h hne
  le := meanShare_le h hne
  le_hundred := meanShare_le_hundred h hne
  le_cap_iff := meanShare_le_shareCap_iff h hne
  le_cap := meanShare_le_shareCap h hne

/-- The range of shares and of all that is reported. A report stays at or below the cap exactly if
the means of all groups do. -/
theorem sharesOf_range (value total : UInt64) (htotal : total ≠ 0) (records : List Record) :
    ShareRange value total ∧
      (∀ ofOsd ∈ sharesOf records, ∀ ofKind ∈ ofOsd.kinds, ∀ fieldShare ∈ ofKind.shares,
        ∃ component, fieldShare.field = .component component ∧
          fieldShare.percent =
            meanShare component (shareGroup ofOsd.osd ofKind.kind records) ∧
          MeanRange component (shareGroup ofOsd.osd ofKind.kind records)) ∧
      ((∀ ofOsd ∈ sharesOf records, ∀ ofKind ∈ ofOsd.kinds, ∀ fieldShare ∈ ofKind.shares,
          0.0 ≤ fieldShare.percent ∧ fieldShare.percent ≤ shareCap) ↔
        ∀ osd kind component, MeanStays component (shareGroup osd kind records)) := by
  refine ⟨share_range htotal, ?_, ?_, ?_⟩
  · intro ofOsd hosd ofKind hkind fieldShare hshare
    obtain ⟨hne, component, rfl⟩ := mem_sharesOf hosd hkind hshare
    exact ⟨component, rfl, rfl, meanShare_range hasShares_of_mem_shareGroup hne⟩
  · intro hreport osd kind component
    by_cases hne : shareGroup osd kind records = []
    · rw [hne]
      exact meanStays_nil component
    · obtain ⟨ofOsd, hosd, ofKind, hkind, hshare⟩ := exists_mem_sharesOf hne component
      have hcap := (hreport ofOsd hosd ofKind hkind _ hshare).2
      exact (meanShare_le_shareCap_iff hasShares_of_mem_shareGroup hne).mp hcap
  · intro hstay ofOsd hosd ofKind hkind fieldShare hshare
    obtain ⟨hne, component, rfl⟩ := mem_sharesOf hosd hkind hshare
    have hrange : MeanRange component _ := meanShare_range hasShares_of_mem_shareGroup hne
    exact ⟨hrange.nonneg, hrange.le_cap_iff.mpr (hstay _ _ _)⟩

/-! ### Above the cap -/

/-- An operation that spends nearly all of its time in one component. -/
def nearlyWholeRecord : Record := { wholeRecord with osdLatency := 99999 }

/-- One operation is enough for a report above the cap. -/
theorem sharesOf_range_nearlyWhole :
    ShareRange 99999 100000 ∧
      (∃ ofOsd ∈ sharesOf [nearlyWholeRecord], ∃ ofKind ∈ ofOsd.kinds,
        ∃ fieldShare ∈ ofKind.shares, shareCap < fieldShare.percent) ∧
      ¬∀ osd kind component, MeanStays component (shareGroup osd kind [nearlyWholeRecord]) := by
  obtain ⟨hrange, -, hstay⟩ := sharesOf_range 99999 100000 (by decide) [nearlyWholeRecord]
  have hosd : ⟨5, [⟨.write, rankedShares [nearlyWholeRecord]⟩]⟩ ∈ sharesOf [nearlyWholeRecord] :=
    List.mem_singleton_self _
  have hkind := List.mem_singleton_self (KindShares.mk .write (rankedShares [nearlyWholeRecord]))
  have hshare : ⟨.component .osd, meanShare .osd [nearlyWholeRecord]⟩ ∈
      rankedShares [nearlyWholeRecord] := mem_rankedShares.mpr ⟨.osd, rfl⟩
  refine ⟨hrange, ⟨_, hosd, _, hkind, _, hshare, by decide +kernel⟩, fun hall => ?_⟩
  have hcap := (hstay.mpr hall _ hosd _ hkind _ hshare).2
  exact absurd hcap (by decide +kernel)

/-- The cap is passed by a share of 99.999 percent. -/
theorem not_forall_share_le_shareCap :
    ¬∀ value total : UInt64, total ≠ 0 →
      0.0 ≤ share value total ∧ share value total ≤ shareCap := by
  intro h
  have hle := (h 99999 100000 (by decide)).2
  exact absurd hle (by decide +kernel)

end OsdLatency
