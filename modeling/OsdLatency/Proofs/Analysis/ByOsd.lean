import OsdLatency.Proofs.Analysis.Run
import OsdLatency.Proofs.Analysis.Validation
import OsdLatency.Proofs.Share.Pooling
import OsdLatency.Proofs.Statistics.Sections
import OsdLatency.Run.Delivery

/-!
# Reports OSD by OSD

The report about all OSDs is made of the reports about each of them, in ascending order. An OSD is
reported from its own records alone, however they are mixed with those of others in the trace.

## Main definitions

* `Selection.only`, `Request.only` — the same wishes about one OSD
* `Request.DecomposesByOsd` — what the report about all OSDs has to do with the reports about one

## Main results

* `StatisticsReport.splitsByOsd_lines`, `StatisticsReport.splitsByOsd_sections`,
  `splitsByOsd_sharesOf` — the parts of a report fall apart by OSD
* `Request.decomposesByOsd` — every accepted request without an OSD decomposes
-/

namespace OsdLatency

/-! ### Parts of a report -/

/-- What is reported of an OSD is reported of its records alone. -/
theorem LatencyGroups.samples_recordsOfOsd (field : LatencyField) (records : List Record)
    (osd : UInt32) : (ofRecords field (recordsOfOsd osd records)).samples osd =
      (ofRecords field records).samples osd := by
  funext kind
  rw [samples_ofRecords, samples_ofRecords, recordsOfOsd, List.filter_filter]
  refine congrArg (List.filterMap _) (List.filter_congr fun r _ => ?_)
  by_cases h : r.osd = osd <;> simp [h]

namespace StatisticsReport

theorem sectionOf?_recordsOfOsd (field : LatencyField) (records : List Record) (unit : TimeUnit)
    (osd : UInt32) : sectionOf? (.ofRecords field (recordsOfOsd osd records)) unit osd =
      sectionOf? (.ofRecords field records) unit osd := by
  funext kind
  rw [sectionOf?, LatencyGroups.samples_recordsOfOsd]
  rfl

/-- The sections of an OSD, made from its own records. -/
theorem sections_eq_flatMap (field : LatencyField) (records : List Record) (unit : TimeUnit) :
    sections (.ofRecords field records) unit = (byOsd records).flatMap fun ofOsd =>
      OpKind.all.filterMap (sectionOf? (.ofRecords field ofOsd.2) unit ofOsd.1) := by
  rw [sections_eq_sectionOf?, LatencyGroups.osdIds_ofRecords, byOsd_eq_map, List.flatMap_map]
  simp only [sectionOf?_recordsOfOsd]

/-- The lines about an OSD, made from its own records. -/
theorem lines_eq_flatMap (field : LatencyField) (records : List Record) (unit : TimeUnit) :
    lines (.ofRecords field records) unit = (byOsd records).flatMap fun ofOsd =>
      osdLine ofOsd.1 :: (OpKind.all.filterMap (sectionOf? (.ofRecords field ofOsd.2) unit
        ofOsd.1)).flatMap Section.lines := by
  rw [lines_eq_sectionOf?, LatencyGroups.osdIds_ofRecords, byOsd_eq_map, List.flatMap_map]
  simp only [sectionOf?_recordsOfOsd]

theorem splitsByOsd_lines (field : LatencyField) (unit : TimeUnit) :
    SplitsByOsd fun records => lines (.ofRecords field records) unit := by
  simp only [lines_eq_flatMap]
  exact splitsByOsd_flatMap _

theorem splitsByOsd_sections (field : LatencyField) (unit : TimeUnit) :
    SplitsByOsd fun records => sections (.ofRecords field records) unit := by
  simp only [sections_eq_flatMap]
  exact splitsByOsd_flatMap _

end StatisticsReport

theorem splitsByOsd_sharesOf : SplitsByOsd sharesOf := by
  have h : SplitsByOsd fun records => (byOsd records).map fun ofOsd => OsdShares.mk ofOsd.1
      ((kindsSeen ofOsd.2).map fun kind => ⟨kind, rankedShares (recordsOfKind kind ofOsd.2)⟩) := by
    simp only [List.map_eq_flatMap]
    exact splitsByOsd_flatMap _
  have hshares : ∀ records, sharesOf records = (byOsd (records.filter Record.hasShares)).map
      fun ofOsd => OsdShares.mk ofOsd.1
        ((kindsSeen ofOsd.2).map fun kind => ⟨kind, rankedShares (recordsOfKind kind ofOsd.2)⟩) :=
    fun records => by
      rw [sharesOf_eq_map, byOsd_eq_map, List.map_map]
      rfl
  -- Records without shares are passed over before the others are grouped.
  rw [funext hshares]
  exact h.filter Record.hasShares

theorem ShareReport.splitsByOsd_lines : SplitsByOsd fun records => lines (sharesOf records) := by
  exact splitsByOsd_sharesOf.flatMap osdLines

/-! ### One OSD at a time -/

/-- The same selection of one OSD. -/
def Selection.only (selection : Selection) (osd : UInt32) : Selection :=
  { selection with osd := some osd }

/-- The records selected of one OSD are its records among all that are selected. -/
theorem Selection.select_only {selection : Selection} (h : selection.osd = none) (osd : UInt32)
    (records : List Record) :
    (selection.only osd).select records = recordsOfOsd osd (selection.select records) := by
  rw [select_eq_filter, select_eq_filter, recordsOfOsd, List.filter_filter]
  -- Both keep a record if it is of that OSD and slow enough.
  congr 1
  funext r
  simp only [accepts, only, h, Bool.true_and]
  rfl

/-- Whether a record is selected does not depend on other records. -/
theorem Selection.recordsOfOsd_select (selection : Selection) (osd : UInt32)
    (records : List Record) :
    recordsOfOsd osd (selection.select records) = selection.select (recordsOfOsd osd records) := by
  rw [select_eq_filter, select_eq_filter, recordsOfOsd_filter]

namespace Request

variable {request : Request} {files : FileReader} {bytes : List UInt8} {field : LatencyField}
  {selection : Selection}

/-- The same request about one OSD. -/
def only (request : Request) (osd : UInt32) : Request := { request with osd := some osd }

theorem osd_of_validate (h : request.validate = .ok (field, selection)) :
    selection.osd = request.osd := by
  obtain ⟨-, threshold, -, rfl⟩ := validate_eq_ok_iff.mp h
  rfl

theorem validate_only (h : request.validate = .ok (field, selection)) (osd : UInt32) :
    (request.only osd).validate = .ok (field, selection.only osd) := by
  obtain ⟨hfield, threshold, hthreshold, rfl⟩ := validate_eq_ok_iff.mp h
  exact validate_eq_ok_iff.mpr ⟨hfield, threshold, hthreshold, rfl⟩

/-- A report about one OSD has the form of the report about all. -/
theorem reportText_only (request : Request) (field : LatencyField) (osd : UInt32) :
    (request.only osd).reportText field = request.reportText field := rfl

theorem splitsByOsd_reportLines (noDump : request.sort = false) (field : LatencyField) :
    SplitsByOsd (request.reportLines field) := by
  unfold reportLines mode
  rw [noDump]
  -- Without a dump, the request asks for statistics or for shares.
  cases request.infer
  · exact StatisticsReport.splitsByOsd_lines field request.unit
  · exact ShareReport.splitsByOsd_lines

theorem splitsByOsd_reportEntries (noDump : request.sort = false) (field : LatencyField) :
    SplitsByOsd (request.reportEntries field) := by
  unfold reportEntries mode
  rw [noDump]
  cases request.infer
  · simp only [List.map_eq_flatMap]
    exact (StatisticsReport.splitsByOsd_sections field request.unit).flatMap _
  · simp only [List.map_eq_flatMap]
    exact splitsByOsd_sharesOf.flatMap _

theorem reportText_of_lines (text : request.json = false) (field : LatencyField)
    (records : List Record) :
    request.reportText field records = Run.linesText (request.reportLines field records) := by
  simp [reportText, text]

theorem reportText_of_document (document : request.json = true) (noDump : request.sort = false)
    (field : LatencyField) (records : List Record) : request.reportText field records =
      (Json.list (request.reportEntries field records)).render ++ "\n" := by
  have hmode : request.mode ≠ .dump := by
    unfold mode
    rw [noDump]
    cases request.infer <;> decide
  rw [reportText, if_pos ⟨document, hmode⟩]

/-- The text about all OSDs is the texts about one OSD, one behind the other. -/
theorem reportText_eq_join (noDump : request.sort = false) (text : request.json = false)
    (field : LatencyField) (records : List Record) : request.reportText field records =
      String.join ((osdsOf records).map fun osd =>
        request.reportText field (recordsOfOsd osd records)) := by
  simp only [reportText_of_lines text]
  rw [(splitsByOsd_reportLines noDump field).eq_flatMap_osdsOf records, Run.linesText_flatMap]

/-- Without records there is no text. -/
theorem reportText_nil (noDump : request.sort = false) (text : request.json = false)
    (field : LatencyField) : request.reportText field [] = "" := by
  rw [reportText_of_lines text, (splitsByOsd_reportLines noDump field).nil]
  rfl

/-- The report about all OSDs is made of the reports about each of them. Here `selection` says which
of the `records` of a trace file the report is about. -/
structure DecomposesByOsd (request : Request) (files : FileReader) (field : LatencyField)
    (selection : Selection) (records : List Record) : Prop where
  /-- No run fails. -/
  outcome : (request.run files).outcome = .ok () ∧
    ∀ osd, ((request.only osd).run files).outcome = .ok ()
  /-- The OSDs with a selected record are in ascending order. -/
  ascending : (osdsOf (selection.select records)).Pairwise (· < ·)
  mem_osds : ∀ osd, osd ∈ osdsOf (selection.select records) ↔
    ∃ r ∈ records, selection.accepts r = true ∧ r.osd = osd
  /-- The text is the texts about one OSD, one behind the other. -/
  text : request.json = false → (request.run files).output =
    String.join ((osdsOf (selection.select records)).map fun osd =>
      ((request.only osd).run files).output)
  text_absent : request.json = false → ∀ osd, osd ∉ osdsOf (selection.select records) →
    ((request.only osd).run files).output = ""
  /-- A document is the array of what is found about the selected records. -/
  document : request.json = true → (request.run files).output =
      (Json.list (request.reportEntries field (selection.select records))).render ++ "\n" ∧
    ∀ osd, ((request.only osd).run files).output = (Json.list
      (request.reportEntries field ((selection.only osd).select records))).render ++ "\n"
  /-- The array is the arrays about one OSD, one behind the other. -/
  entries : request.reportEntries field (selection.select records) =
    (osdsOf (selection.select records)).flatMap fun osd =>
      request.reportEntries field ((selection.only osd).select records)
  /-- So are the figures and the shares that the arrays are made of. -/
  sections : StatisticsReport.sections (.ofRecords field (selection.select records)) request.unit =
    (osdsOf (selection.select records)).flatMap fun osd => StatisticsReport.sections
      (.ofRecords field ((selection.only osd).select records)) request.unit
  shares : sharesOf (selection.select records) =
    (osdsOf (selection.select records)).flatMap fun osd =>
      sharesOf ((selection.only osd).select records)
  entries_absent : ∀ osd, osd ∉ osdsOf (selection.select records) →
    request.reportEntries field ((selection.only osd).select records) = []
  /-- Another file with the same records of an OSD gives the same report about it. -/
  isolated : ∀ (others : FileReader) (bytes : List UInt8), others request.path = .ok bytes →
    ∀ osd, recordsOfOsd osd (Trace.ofText (Text.Utf8.decode bytes)).records =
        recordsOfOsd osd records →
      ((request.only osd).run others).output = ((request.only osd).run files).output

/-- An accepted request about one OSD reports its records among all that are selected. -/
theorem yields_run_only (everyOsd : request.osd = none)
    (valid : request.validate = .ok (field, selection))
    (readable : files request.path = .ok bytes) (osd : UInt32) :
    ((request.only osd).run files).Yields () (request.reportText field (recordsOfOsd osd
      (selection.select (Trace.ofText (Text.Utf8.decode bytes)).records))) := by
  have h : ((request.only osd).run files).Yields () _ :=
    yields_run (validate_only valid osd) readable
  rwa [Selection.select_only ((osd_of_validate valid).trans everyOsd), reportText_only] at h

/-- Every accepted request that asks for no OSD and no dump decomposes by OSD. -/
theorem decomposesByOsd (everyOsd : request.osd = none) (noDump : request.sort = false)
    (valid : request.validate = .ok (field, selection))
    (readable : files request.path = .ok bytes) :
    request.DecomposesByOsd files field selection
      (Trace.ofText (Text.Utf8.decode bytes)).records := by
  have hall := yields_run valid readable
  have hone := yields_run_only everyOsd valid readable
  have hselect := Selection.select_only ((osd_of_validate valid).trans everyOsd)
  set records := (Trace.ofText (Text.Utf8.decode bytes)).records
  exact
    { outcome := ⟨hall.outcome, fun osd => (hone osd).outcome⟩
      ascending := pairwise_osdsOf _
      mem_osds := fun osd => by
        simp only [mem_osdsOf, Selection.select_eq_filter, List.mem_filter, and_assoc]
      text := fun text => by
        simp only [hall.output, (hone _).output]
        exact reportText_eq_join noDump text field _
      text_absent := fun text osd habsent => by
        rw [(hone osd).output, recordsOfOsd_eq_nil habsent, reportText_nil noDump text]
      document := fun document => by
        simp only [hall.output, (hone _).output, hselect]
        exact ⟨reportText_of_document document noDump field _,
          fun osd => reportText_of_document document noDump field _⟩
      entries := by
        simp only [hselect]
        exact (splitsByOsd_reportEntries noDump field).eq_flatMap_osdsOf _
      sections := by
        simp only [hselect]
        exact (StatisticsReport.splitsByOsd_sections field request.unit).eq_flatMap_osdsOf _
      shares := by
        simp only [hselect]
        exact splitsByOsd_sharesOf.eq_flatMap_osdsOf _
      entries_absent := fun osd habsent => by
        rw [hselect, recordsOfOsd_eq_nil habsent, (splitsByOsd_reportEntries noDump field).nil]
      isolated := fun others bytes' readable' osd hsame => by
        rw [(yields_run_only everyOsd valid readable' osd).output, (hone osd).output,
          selection.recordsOfOsd_select, selection.recordsOfOsd_select, hsame] }

/-- A line of a short trace. -/
def mixedLine (osd final : String) : String :=
  "osd " ++ osd ++ " pg 1.0 op_w size 8 client 1 tid 1 throttle_lat 1 recv_lat 1 dispatch_lat 1 " ++
    "queue_lat 1 osd_lat 1 bluestore_lat 1 op_lat " ++ final ++ "\n"

/-- A trace of three OSDs, one of which is fast. -/
def mixedText : String :=
  String.join [mixedLine "7" "50", mixedLine "2" "60", mixedLine "3" "1", mixedLine "7" "70"]

/-- The slow operations of a mixed trace, OSD by OSD. -/
theorem decomposesByOsd_mixedText :
    let request := { Request.ofPath "trace.out" with threshold := some 40 }
    let files : FileReader := fun _ => .ok (bytesOf mixedText)
    let selection : Selection := { osd := none, minLatency := 40 }
    let records := (Trace.ofText (Text.Utf8.decode (bytesOf mixedText))).records
    request.osd = none ∧ request.sort = false ∧ request.validate = .ok (.final, selection) ∧
      files request.path = .ok (bytesOf mixedText) ∧ osdsOf (selection.select records) = [2, 7] ∧
      request.DecomposesByOsd files .final selection records :=
  ⟨rfl, rfl, rfl, rfl, by decide +kernel, decomposesByOsd rfl rfl rfl rfl⟩

end Request

end OsdLatency
