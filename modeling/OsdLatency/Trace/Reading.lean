import OsdLatency.Text.Line
import OsdLatency.Trace.Line

/-!
# Trace files

A trace file is read line by line. Lines that hold no record are skipped, and those among them that
have all parts of a record but a number that does not fit are counted.

## Main definitions

* `LineContent` — what a line holds
* `Trace`, `Trace.ofText` — a trace file as it has been read

## Main results

* `Trace.records_ofText` — the records of a text are those of its lines
-/

namespace OsdLatency

/-- What a line of a trace file holds. -/
inductive LineContent
  | record (record : Record)
  /-- All parts of a record, but a number that does not fit. -/
  | overflow
  | noise

namespace LineContent

/-- What a line holds. -/
def ofLine (line : List Char) : LineContent :=
  if Record.mayBeIn line then
    match Capture.ofLine? line with
    | none => noise
    | some capture =>
      match capture.record? with
      | some r => record r
      | none => overflow
  else noise

/-- The record a line holds. -/
def record? : LineContent → Option Record
  | record r => some r
  | _ => none

/-- Whether a line has been skipped for a number that does not fit. -/
def isOverflow : LineContent → Bool
  | overflow => true
  | _ => false

theorem record?_ofLine (line : List Char) : (ofLine line).record? = Record.ofLine? line := by
  unfold ofLine Record.ofLine?
  split
  · cases Capture.ofLine? line with
    | none => rfl
    | some capture =>
      simp only [Option.bind_some]
      cases capture.record? <;> rfl
  · rfl

theorem isOverflow_ofLine (line : List Char) :
    (ofLine line).isOverflow = Record.overflowsIn line := by
  unfold ofLine Record.overflowsIn Record.ofLine?
  split
  · cases Capture.ofLine? line with
    | none => simp [isOverflow]
    | some capture =>
      simp only [Option.bind_some]
      cases capture.record? <;> simp_all [isOverflow]
  · simp_all [isOverflow]

end LineContent

/-- A trace file as it has been read. -/
structure Trace where
  lineCount : Nat
  records : List Record
  /-- The number of lines skipped for a number that does not fit. -/
  overflowed : Nat

namespace Trace

/-- Read a text line by line. -/
def ofText (text : List Char) : Trace :=
  let contents := (Text.lines text).map LineContent.ofLine
  { lineCount := contents.length
    records := contents.filterMap LineContent.record?
    overflowed := contents.countP LineContent.isOverflow }

/-- The number of lines that hold no record. -/
def skipped (trace : Trace) : Nat := trace.lineCount - trace.records.length

/-- The number of records of operations that change data. -/
def writes (trace : Trace) : Nat := trace.records.countP (·.kind.isWrite)

/-- The number of records of operations that do not change data. -/
def reads (trace : Trace) : Nat := trace.records.length - trace.writes

/-- The records of a text, line by line. -/
def recordsOf (text : List Char) : List Record := (Text.lines text).filterMap Record.ofLine?

theorem records_ofText (text : List Char) :
    (ofText text).records = recordsOf text := by
  simp only [ofText, recordsOf, List.filterMap_map]
  congr 1
  funext line
  exact LineContent.record?_ofLine line

end Trace

end OsdLatency
