import OsdLatency.Proofs.Grouping

/-!
# The records of one kind

Records of several kinds come interleaved. A pass over them meets the kinds in the order of their
first records, and takes up for each kind what the records of that kind alone would give.

## Main definitions

* `recordsOfKind` — the records of one kind
* `kindsSeen` — the kinds that have a record, in the order of their first records

## Main results

* `foldl_kinds` — the kinds that a pass meets
* `pairwise_kindsSeen` — the kinds are in the order of their first records
-/

namespace OsdLatency

variable {kind : OpKind} {records : List Record}

/-- The records of one kind in their order. -/
def recordsOfKind (kind : OpKind) (records : List Record) : List Record :=
  records.filter (·.kind = kind)

/-- The kinds that have a record, in the order of their first records. -/
def kindsSeen : List Record → List OpKind
  | [] => []
  | r :: records => r.kind :: (kindsSeen records).filter (· ≠ r.kind)

/-- A pass adds the kinds that it has not met before. -/
theorem foldl_kinds (kinds : List OpKind) (records : List Record) :
    records.foldl (fun kinds r => if r.kind ∈ kinds then kinds else kinds ++ [r.kind]) kinds =
      kinds ++ (kindsSeen records).filter (· ∉ kinds) := by
  induction records generalizing kinds with
  | nil => simp [kindsSeen]
  | cons r records ih =>
    rw [List.foldl_cons, ih, kindsSeen]
    by_cases hkind : r.kind ∈ kinds
    · rw [if_pos hkind, List.filter_cons_of_neg (by simpa using hkind), List.filter_filter]
      refine congrArg (kinds ++ ·) (List.filter_congr fun kind _ => ?_)
      by_cases h : kind = r.kind <;> simp [h, hkind]
    · rw [if_neg hkind, List.filter_cons_of_pos (by simpa using hkind), List.filter_filter,
        List.append_assoc, List.singleton_append]
      refine congrArg (kinds ++ r.kind :: ·) (List.filter_congr fun kind _ => ?_)
      simp

theorem mem_kindsSeen : kind ∈ kindsSeen records ↔ ∃ r ∈ records, r.kind = kind := by
  induction records with
  | nil => simp [kindsSeen]
  | cons r records ih =>
    rw [kindsSeen, List.mem_cons, List.mem_filter, ih, List.exists_mem_cons_iff,
      decide_eq_true_eq]
    tauto

/-- A kind that has been met has a record. -/
theorem mem_kindsSeen_iff : kind ∈ kindsSeen records ↔ recordsOfKind kind records ≠ [] := by
  rw [mem_kindsSeen, recordsOfKind, Ne, List.filter_eq_nil_iff]
  simp

/-- The kinds of the records that are kept are in the order of their first records. -/
theorem pairwise_kindsSeen (keep : Record → Bool) (records : List Record) :
    (kindsSeen (records.filter keep)).Pairwise fun kind kind' =>
      records.findIdx (fun r => keep r && decide (r.kind = kind)) <
        records.findIdx fun r => keep r && decide (r.kind = kind') := by
  induction records with
  | nil => exact List.Pairwise.nil
  | cons r records ih =>
    simp only [List.findIdx_cons]
    cases hkeep : keep r with
    | false =>
      rw [List.filter_cons_of_neg (by simp [hkeep])]
      simpa using ih
    | true =>
      rw [List.filter_cons_of_pos hkeep, kindsSeen, List.pairwise_cons]
      -- The kind of the first record is found at once, the others behind it.
      have hother : ∀ kind ∈ (kindsSeen (records.filter keep)).filter (· ≠ r.kind),
          decide (r.kind = kind) = false := fun kind hkind => by
        have hne : kind ≠ r.kind := of_decide_eq_true (List.mem_filter.mp hkind).2
        exact decide_eq_false hne.symm
      constructor
      · intro kind hkind
        simp [hother kind hkind]
      · refine (ih.filter _).imp_of_mem fun hkind hkind' hlt => ?_
        simpa [hother _ hkind, hother _ hkind'] using hlt

end OsdLatency
