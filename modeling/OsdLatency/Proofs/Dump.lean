import Mathlib.Order.WithBot
import OsdLatency.Proofs.Analysis.Run
import OsdLatency.Proofs.StableSort

/-!
# The order of the dump

The dump is the stable sort of the records by the values of a field, those that lack the field first.
A record stands before another for what the two are and for their order in the trace, whatever other
records there are, so a dump of selected records is the full dump with the other lines left out.

## Main definitions

* `Dump.IsSorted` — a list has some records in the order of a field

## Main results

* `Dump.isSorted_iff` — some records have one order
* `Dump.sorted_select` — selecting before the sort or after it is the same
* `Dump.sorted_exact` — the dump of selected records is what the full dump has of them
* `Request.yields_run_dump` — so is what a run writes
-/

namespace OsdLatency

namespace Dump

variable {field : LatencyField} {records dump : List Record}

/-- A list has some records in the order of a field. -/
structure IsSorted (field : LatencyField) (records dump : List Record) : Prop where
  perm : dump.Perm records
  /-- A record with a value stands before records with values at least as great. So those without a
  value stand before it. -/
  ascending : dump.Pairwise fun a b => ∀ v, a.latency? field = some v →
    ∃ w, b.latency? field = some w ∧ v ≤ w
  /-- Records with the same value, or all without one, are in the order of the trace. -/
  stable : ∀ value?, dump.filter (·.latency? field = value?) =
    records.filter (·.latency? field = value?)

/-- The place of a value among all values. A missing one is before all others. -/
def rank (value? : Option UInt64) : WithBot ℕ := value?.map UInt64.toNat

theorem rank_inj {a b : Option UInt64} : rank a = rank b ↔ a = b :=
  (Option.map_injective fun _ _ => UInt64.toNat_inj.mp).eq_iff

theorem rank_le_iff {a b : Option UInt64} :
    rank a ≤ rank b ↔ ∀ v, a = some v → ∃ w, b = some w ∧ v ≤ w := by
  cases a with
  | none => exact iff_of_true bot_le nofun
  | some v =>
    cases b with
    | none => exact iff_of_false (WithBot.not_coe_le_bot _) fun h => by simpa using h v rfl
    | some w =>
      have hle : rank (some v) ≤ rank (some w) ↔ v ≤ w :=
        WithBot.coe_le_coe.trans UInt64.le_iff_toNat_le.symm
      simp [hle]

theorem mayPrecede_iff {a b : Option UInt64} : mayPrecede a b = true ↔ rank a ≤ rank b := by
  rw [rank_le_iff]
  cases a <;> cases b <;> simp [mayPrecede]

/-! ### One order -/

theorem isStableSort_sorted (field : LatencyField) (records : List Record) :
    IsStableSort (fun r => rank (r.latency? field)) (sorted field records) records := by
  refine isStableSort_mergeSort (fun a b => ?_) records
  exact mayPrecede_iff

theorem isSorted_sorted (field : LatencyField) (records : List Record) :
    IsSorted field records (sorted field records) where
  perm := List.mergeSort_perm _ _
  ascending := (isStableSort_sorted field records).ascending.imp rank_le_iff.mp
  stable value? := by
    have hstable := (isStableSort_sorted field records).stable (rank value?)
    simpa only [rank_inj] using hstable

theorem IsSorted.isStableSort (h : IsSorted field records dump) :
    IsStableSort (fun r => rank (r.latency? field)) dump records where
  ascending := h.ascending.imp rank_le_iff.mpr
  stable place := by
    by_cases hplace : ∃ value?, rank value? = place
    · obtain ⟨value?, rfl⟩ := hplace
      simpa only [rank_inj] using h.stable value?
    · -- No record is at a place that no value has.
      have hnone : ∀ r : Record, rank (r.latency? field) ≠ place := fun r h => hplace ⟨_, h⟩
      simp [hnone]

/-- Some records have one order. -/
theorem isSorted_iff : IsSorted field records dump ↔ dump = sorted field records := by
  constructor
  · intro h
    exact h.isStableSort.eq (isStableSort_sorted field records)
  · rintro rfl
    exact isSorted_sorted field records

/-! ### Dumps of selected records -/

/-- Selecting before the sort or after it is the same. -/
theorem sorted_select (field : LatencyField) (selection : Selection) (records : List Record) :
    sorted field (selection.select records) = (sorted field records).filter selection.accepts := by
  rw [Selection.select_eq_filter]
  exact (isStableSort_sorted field _).eq ((isStableSort_sorted field records).filter _)

/-- What is written about selected records are their lines in the full dump. -/
theorem output_lines_select (field : LatencyField) (unit : TimeUnit) (selection : Selection)
    (records : List Record) :
    (Run.writeLines (lines field unit (selection.select records))).output =
      Run.linesText (((sorted field records).filter selection.accepts).map (line unit)) := by
  rw [(Run.yields_writeLines _).output, lines, sorted_select]

/-- The dump is the stable sort of the records. The dump of selected records has just their lines,
in the order in which the full dump has them. -/
theorem sorted_exact (field : LatencyField) (records : List Record) :
    (∀ dump, IsSorted field records dump ↔ dump = sorted field records) ∧
      ∀ selection : Selection,
        sorted field (selection.select records) =
          (sorted field records).filter selection.accepts ∧
        ∀ unit, (Run.writeLines (lines field unit (selection.select records))).output =
          Run.linesText (((sorted field records).filter selection.accepts).map (line unit)) :=
  ⟨fun _ => isSorted_iff, fun selection => ⟨sorted_select field selection records,
    fun unit => output_lines_select field unit selection records⟩⟩

end Dump

/-- An accepted request for a dump writes the lines that the full dump has of the selected
records. -/
theorem Request.yields_run_dump {request : Request} {files : FileReader} {bytes : List UInt8}
    {field : LatencyField} {selection : Selection} (dump : request.sort = true)
    (valid : request.validate = .ok (field, selection))
    (readable : files request.path = .ok bytes) :
    (request.run files).Yields () (Run.linesText
      (((Dump.sorted field (Trace.ofText (Text.Utf8.decode bytes)).records).filter
        selection.accepts).map (Dump.line request.unit))) := by
  have hrun := yields_run valid readable
  have hmode : request.mode = .dump := by rw [mode, if_pos dump]
  simp only [reportText, reportLines, hmode, ne_eq, not_true_eq_false, and_false, if_false,
    Dump.lines, Dump.sorted_select] at hrun
  exact hrun

end OsdLatency
