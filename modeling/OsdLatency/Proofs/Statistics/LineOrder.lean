import OsdLatency.Proofs.Statistics.Sections
import OsdLatency.Selection

/-!
# Statistics and the order of the trace

The lines of a trace may come in any order. The statistics of a group are those of its samples in
whatever order they come, and the groups themselves are in an order of their own. Only the deviation
may differ in its last places, for its squares are summed in the order of the trace.

## Main definitions

* `StatisticsReport.Section.SameFigures` — two sections agree in all but the deviation
* `StatisticsReport.SameReports` — two groupings agree in all but the deviations

## Main results

* `StatisticsReport.sameReports_of_perm` — rearranged records are reported alike
-/

namespace OsdLatency

variable {records records' : List Record} {osd : UInt32} {kind : OpKind} {field : LatencyField}

theorem osdsOf_eq_of_perm (h : records.Perm records') : osdsOf records = osdsOf records' := by
  refine (pairwise_osdsOf records).eq_of_mem_iff (pairwise_osdsOf records') fun osd => ?_
  simp only [mem_osdsOf, h.mem_iff]

theorem Selection.select_perm (selection : Selection) (h : records.Perm records') :
    (selection.select records).Perm (selection.select records') := by
  rw [select_eq_filter, select_eq_filter]
  exact h.filter _

namespace LatencyGroups

theorem osdIds_eq_of_perm (h : records.Perm records') (field : LatencyField) :
    (ofRecords field records).osdIds = (ofRecords field records').osdIds := by
  rw [osdIds_ofRecords, osdIds_ofRecords, osdsOf_eq_of_perm h]

theorem samples_perm (h : records.Perm records') (field : LatencyField) (osd : UInt32)
    (kind : OpKind) : ((ofRecords field records).samples osd kind).Perm
      ((ofRecords field records').samples osd kind) := by
  rw [samples_ofRecords, samples_ofRecords]
  exact (h.filter _).filterMap _

end LatencyGroups

namespace StatisticsReport

variable {unit : TimeUnit} {groups groups' : LatencyGroups}

/-- Two sections agree in all but the deviation. -/
structure Section.SameFigures (s t : Section) : Prop where
  osd : s.osd = t.osd
  kind : s.kind = t.kind
  field : s.field = t.field
  unit : s.unit = t.unit
  summary : s.summary.SameFigures t.summary

/-- Two groupings are reported alike: they agree in all but the order of samples and the deviations
that hang on it. -/
structure SameReports (unit : TimeUnit) (groups groups' : LatencyGroups) : Prop where
  osdIds : groups.osdIds = groups'.osdIds
  kinds : ∀ osd, (groups.kindsOf osd).map Prod.fst = (groups'.kindsOf osd).map Prod.fst
  samples : ∀ osd kind, (groups.samples osd kind).Perm (groups'.samples osd kind)
  /-- The figures of a group agree bit for bit. -/
  figures : ∀ osd kind, Option.Rel Summary.SameFigures
    (Summary.ofSamples? unit (groups.samples osd kind))
    (Summary.ofSamples? unit (groups'.samples osd kind))
  /-- The sum behind a mean fits 128 bits, so that no order of the samples makes it wrap. -/
  total_lt : ∀ osd kind, (groups.samples osd kind).length ≤ 2 ^ 64 →
    Summary.total (groups.samples osd kind) < 2 ^ 128
  sections : List.Forall₂ Section.SameFigures (sections groups unit) (sections groups' unit)

theorem rel_sectionOf? (hfield : groups.field = groups'.field)
    (hfigures : Option.Rel Summary.SameFigures
      (Summary.ofSamples? unit (groups.samples osd kind))
      (Summary.ofSamples? unit (groups'.samples osd kind))) :
    Option.Rel Section.SameFigures (sectionOf? groups unit osd kind)
      (sectionOf? groups' unit osd kind) := by
  rw [sectionOf?, sectionOf?]
  generalize Summary.ofSamples? unit (groups.samples osd kind) = found at hfigures ⊢
  generalize Summary.ofSamples? unit (groups'.samples osd kind) = found' at hfigures ⊢
  cases hfigures with
  | none => exact .none
  | some hsame => exact .some ⟨rfl, rfl, hfield, rfl, hsame⟩

/-- Groupings with the same OSDs and figures have the same sections, one after the other. -/
theorem forall₂_sections (hfield : groups.field = groups'.field)
    (hosds : groups.osdIds = groups'.osdIds)
    (hfigures : ∀ osd kind, Option.Rel Summary.SameFigures
      (Summary.ofSamples? unit (groups.samples osd kind))
      (Summary.ofSamples? unit (groups'.samples osd kind))) :
    List.Forall₂ Section.SameFigures (sections groups unit) (sections groups' unit) := by
  rw [sections_eq_sectionOf?, sections_eq_sectionOf?, hosds]
  refine List.rel_flatMap (R := Eq) (List.forall₂_eq_eq_eq ▸ rfl) ?_
  rintro osd _ rfl
  refine List.rel_filterMap (R := Eq) ?_ (List.forall₂_eq_eq_eq ▸ rfl)
  rintro kind _ rfl
  exact rel_sectionOf? hfield (hfigures osd kind)

/-- Rearranged records are reported alike, whatever is selected of them. -/
theorem sameReports_of_perm (h : records.Perm records') (selection : Selection)
    (field : LatencyField) (unit : TimeUnit) :
    SameReports unit (.ofRecords field (selection.select records))
      (.ofRecords field (selection.select records')) := by
  have hselect := selection.select_perm h
  have hosds := LatencyGroups.osdIds_eq_of_perm hselect field
  have hsamples := LatencyGroups.samples_perm hselect field
  have hfigures := fun osd kind => Summary.sameFigures_of_perm unit (hsamples osd kind)
  exact
    { osdIds := hosds
      kinds := fun osd => by
        rw [LatencyGroups.map_fst_kindsOf, LatencyGroups.map_fst_kindsOf]
        exact List.filter_congr fun kind _ => by rw [(hsamples osd kind).isEmpty_eq]
      samples := hsamples
      figures := hfigures
      total_lt := fun _ _ => Summary.total_lt
      sections := forall₂_sections rfl hosds hfigures }

/-- An operation of which nothing but the final latency matters. -/
def operation (osd : UInt32) (kind : OpKind) (final : UInt64) : Record where
  osd := osd
  pg := "1.0"
  kind := kind
  size := 4096
  client := 1
  tid := 1
  throttle := 0
  recv := 1
  dispatch := 1
  queue := 1
  osdLatency := 1
  peers := []
  bluestore := 1
  details := .empty
  finalKind := .op
  final := final

/-- Operations of two OSDs, one of them too fast to be selected. -/
def operations : List Record :=
  [operation 7 .write 50, operation 2 .read 60, operation 7 .write 10, operation 7 .write 70]

/-- The operations read backwards. -/
theorem sameReports_reverse :
    let selection : Selection := { osd := none, minLatency := 40 }
    let groups := LatencyGroups.ofRecords .final (selection.select operations)
    let groups' := LatencyGroups.ofRecords .final (selection.select operations.reverse)
    operations.Perm operations.reverse ∧ groups.osdIds = [2, 7] ∧
      groups.samples 7 .write = [50, 70] ∧ groups'.samples 7 .write = [70, 50] ∧
      SameReports .millis groups groups' :=
  ⟨(List.reverse_perm _).symm, by decide, by decide, by decide,
    sameReports_of_perm (List.reverse_perm _).symm _ _ _⟩

end StatisticsReport

end OsdLatency
