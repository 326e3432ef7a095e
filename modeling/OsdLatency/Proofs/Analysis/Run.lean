import Mathlib.Tactic.Common
import OsdLatency.Analysis.Run

/-!
# What an accepted request writes

Reading a trace and giving notices write nothing. So a request that is accepted, on a file that can
be read, writes just the report about the selected records, and it succeeds.

## Main definitions

* `Run.Yields` — a run succeeds with a value and writes a text
* `Request.reportLines`, `Request.reportEntries` — the two forms of a report

## Main results

* `Run.yields_readTrace` — a file that can be read gives its trace
* `Request.yields_run` — an accepted request writes the report about the selected records
-/

namespace OsdLatency

variable {α β : Type}

namespace Run

/-- A run succeeds with a value, having written a text. -/
structure Yields (run : Run α) (value : α) (text : String) : Prop where
  outcome : run.outcome = .ok value
  output : run.output = text

theorem Yields.bind {first : Run α} {value : α} {text : String} {second : α → Run β} {value' : β}
    {text' : String} (h : first.Yields value text) (h' : (second value).Yields value' text') :
    (first >>= second).Yields value' (text ++ text') where
  outcome := by rw [bind_ok h.outcome, h'.outcome]
  output := by rw [output_bind_ok h.outcome, h.output, h'.output]

/-- What comes first may write nothing. -/
theorem Yields.bind_silent {first : Run α} {value : α} {second : α → Run β} {value' : β}
    {text : String} (h : first.Yields value "") (h' : (second value).Yields value' text) :
    (first >>= second).Yields value' text := by
  simpa using h.bind h'

/-- What follows may write nothing. -/
theorem Yields.then_silent {first : Run α} {value : α} {text : String} {second : α → Run β}
    {value' : β} (h : first.Yields value text) (h' : (second value).Yields value' "") :
    (first >>= second).Yields value' text := by
  simpa using h.bind h'

theorem yields_done (value : α) : (done value).Yields value "" := ⟨rfl, rfl⟩

theorem yields_ofExcept {result : Except Failure α} {value : α} (h : result = .ok value) :
    (ofExcept result).Yields value "" := ⟨h, rfl⟩

theorem yields_note (notice : Notice) : (note notice).Yields () "" := ⟨rfl, rfl⟩

/-- The text of some lines, each with a line end. -/
def linesText (lines : List String) : String := String.join (lines.map (· ++ "\n"))

theorem linesText_flatMap (f : β → List String) (l : List β) :
    linesText (l.flatMap f) = String.join (l.map fun b => linesText (f b)) := by
  induction l with
  | nil => rfl
  | cons b l ih =>
    rw [linesText] at ih
    rw [linesText, List.flatMap_cons, List.map_append, String.join_append, ih, List.map_cons,
      String.join_cons]
    rfl

theorem yields_writeLines (lines : List String) :
    (writeLines lines).Yields () (linesText lines) where
  outcome := rfl
  output := by
    rw [output, writeLines, List.map_map, linesText]
    rfl

theorem yields_writeDocument (document : Json) :
    (writeDocument document).Yields () (document.render ++ "\n") where
  outcome := rfl
  output := by simp [output, writeDocument, write, Step.text]

theorem yields_noteWithoutShares (records : List Record) :
    (noteWithoutShares records).Yields () "" := by
  unfold noteWithoutShares
  split_ifs
  · exact yields_note _
  · exact yields_done ()

variable {files : FileReader} {path : String} {bytes : List UInt8}

theorem yields_readText (h : files path = .ok bytes) :
    (readText files path).Yields (Text.Utf8.decode bytes) "" := by
  have hbytes : (readBytes files path).Yields bytes "" := yields_ofExcept (by rw [h]; rfl)
  apply hbytes.bind_silent
  -- The notice about replaced bytes is no part of the output.
  split_ifs
  · exact (yields_note _).bind_silent (yields_done _)
  · exact yields_done _

/-- A file that can be read gives its trace. -/
theorem yields_readTrace (h : files path = .ok bytes) :
    (readTrace files path).Yields (Trace.ofText (Text.Utf8.decode bytes)) "" := by
  apply (yields_readText h).bind_silent
  refine (yields_note _).bind_silent ((yields_note _).bind_silent ?_)
  split_ifs
  · exact (yields_note _).bind_silent (yields_done _)
  · exact yields_done _

end Run

namespace Request

open Run (Yields)

variable {request : Request} {files : FileReader} {bytes : List UInt8} {field : LatencyField}
  {selection : Selection}

/-- The lines of the report about some records. -/
def reportLines (request : Request) (field : LatencyField) (records : List Record) : List String :=
  match request.mode with
  | .dump => Dump.lines field request.unit records
  | .shares => ShareReport.lines (sharesOf records)
  | .statistics => StatisticsReport.lines (.ofRecords field records) request.unit

/-- The values of the JSON array about some records. A dump has no such form. -/
def reportEntries (request : Request) (field : LatencyField) (records : List Record) : List Json :=
  match request.mode with
  | .dump => []
  | .shares => (sharesOf records).map ShareReport.osdJson
  | .statistics =>
    (StatisticsReport.sections (.ofRecords field records) request.unit).map
      StatisticsReport.Section.json

/-- The text of the report about some records. -/
def reportText (request : Request) (field : LatencyField) (records : List Record) : String :=
  if request.json ∧ request.mode ≠ .dump then
    (Json.list (request.reportEntries field records)).render ++ "\n"
  else Run.linesText (request.reportLines field records)

theorem yields_writeReport (request : Request) (field : LatencyField) (records : List Record) :
    (request.writeReport field records).Yields () (request.reportText field records) := by
  unfold writeReport reportText reportEntries reportLines
  cases request.mode with
  | dump =>
    -- A dump is written as lines even if a document is asked for.
    have hlines : ¬(request.json = true ∧ Mode.dump ≠ .dump) := fun h => h.2 rfl
    rw [if_neg hlines]
    exact Run.yields_writeLines _
  | shares =>
    apply (Run.yields_noteWithoutShares records).bind_silent
    cases request.json
    · exact Run.yields_writeLines _
    · exact Run.yields_writeDocument _
  | statistics =>
    cases request.json
    · exact Run.yields_writeLines _
    · exact Run.yields_writeDocument _

/-- An accepted request on a file that can be read writes the report about the selected records. -/
theorem yields_run (valid : request.validate = .ok (field, selection))
    (readable : files request.path = .ok bytes) :
    (request.run files).Yields () (request.reportText field
      (selection.select (Trace.ofText (Text.Utf8.decode bytes)).records)) := by
  -- A request is checked before its file is read.
  apply (Run.yields_ofExcept valid).bind_silent
  apply (Run.yields_readTrace readable).bind_silent
  apply (Run.yields_note _).bind_silent
  exact (yields_writeReport _ _ _).then_silent (Run.yields_note _)

end Request

end OsdLatency
