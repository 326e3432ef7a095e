import OsdLatency.Proofs.Trace.Acceptance
import OsdLatency.Proofs.Trace.LineByLine

/-!
# The counts of a trace add up

Every line of a trace file is one of three: it holds a record, it is dropped for a number that does
not fit, or it is noise. So the counts that a run tells of a file make up its lines, and none of the
differences among them falls below zero.

## Main definitions

* `Trace.AddsUp` — the counts of a trace are those of the lines of a text

## Main results

* `LineContent.isOverflow_ofLine_iff` — the lines that are dropped for a number
* `Trace.length_lines` — every line is counted once
* `Run.readTrace_addsUp` — what is told of a file adds up
-/

namespace OsdLatency

open Text.Utf8 (decode isValid)

instance : DecidablePred Capture.HasMatch := fun _ =>
  decidable_of_iff _ Capture.ofLine?_isSome_iff

/-! ### Lines -/

/-- A line is dropped for a number if it has a match and yet no record. -/
theorem LineContent.isOverflow_ofLine_iff {line : List Char} :
    (ofLine line).isOverflow = true ↔ Capture.HasMatch line ∧ Record.ofLine? line = none := by
  rw [isOverflow_ofLine, ← Capture.ofLine?_isSome_iff]
  constructor
  · intro h
    simp_all [Record.overflowsIn]
  · rintro ⟨hmatch, hnone⟩
    have hmay := Capture.mayBeIn_of_hasMatch (Capture.ofLine?_isSome_iff.mp hmatch)
    simp [Record.overflowsIn, hmay, hmatch, hnone]

/-- A line that holds a record has a match. -/
theorem Record.hasMatch_of_ofLine? {line : List Char} {r : Record} (h : ofLine? line = some r) :
    Capture.HasMatch line := by
  rw [ofLine?_eq_bind] at h
  obtain ⟨c, hc, -⟩ := Option.bind_eq_some_iff.mp h
  exact Capture.ofLine?_isSome_iff.mp (by rw [hc]; rfl)

namespace Trace

/-- Every line is counted once: as a record, as dropped for a number, or as noise. -/
theorem length_lines (lines : List (List Char)) :
    (lines.filterMap Record.ofLine?).length +
      lines.countP (fun line => Capture.HasMatch line ∧ Record.ofLine? line = none) +
      lines.countP (fun line => ¬ Capture.HasMatch line) = lines.length := by
  induction lines with
  | nil => rfl
  | cons line lines ih =>
    cases hrecord : Record.ofLine? line with
    | some r =>
      have hmatch := Record.hasMatch_of_ofLine? hrecord
      rw [List.filterMap_cons_some hrecord, List.countP_cons_of_neg (by simp [hrecord]),
        List.countP_cons_of_neg (by simp [hmatch]), List.length_cons, List.length_cons]
      omega
    | none =>
      rw [List.filterMap_cons_none hrecord]
      by_cases hmatch : Capture.HasMatch line
      · rw [List.countP_cons_of_pos (by simp [hrecord, hmatch]),
          List.countP_cons_of_neg (by simp [hmatch]), List.length_cons]
        omega
      · rw [List.countP_cons_of_neg (by simp [hmatch]),
          List.countP_cons_of_pos (by simp [hmatch]), List.length_cons]
        omega

/-- The counts of a trace are those of the lines of a text, and make up its lines. -/
structure AddsUp (trace : Trace) (text : List Char) : Prop where
  records : trace.records = recordsOf text
  lineCount : trace.lineCount = (Text.lines text).length
  /-- A line is dropped for a number if it has a match and yet no record. -/
  overflowed : trace.overflowed =
    (Text.lines text).countP fun line => Capture.HasMatch line ∧ Record.ofLine? line = none
  /-- So the number of skipped lines is no difference below zero. -/
  length_le : trace.records.length + trace.overflowed ≤ trace.lineCount
  skipped : trace.records.length + trace.skipped = trace.lineCount
  noise : trace.skipped =
    trace.overflowed + (Text.lines text).countP fun line => ¬ Capture.HasMatch line
  writes : trace.writes = trace.records.countP fun r => r.kind.isWrite
  reads : trace.reads = trace.records.countP fun r => ¬ r.kind.isWrite
  kinds : trace.reads + trace.writes = trace.records.length

/-- The counts of a text add up. -/
theorem addsUp_ofText (text : List Char) : (ofText text).AddsUp text := by
  have hrecords := records_ofText text
  have hcount : (ofText text).lineCount = (Text.lines text).length := by
    rw [ofText, List.length_map]
  have hoverflowed : (ofText text).overflowed =
      (Text.lines text).countP fun line => Capture.HasMatch line ∧ Record.ofLine? line = none := by
    rw [ofText, List.countP_map]
    refine List.countP_congr fun line _ => ?_
    simp [LineContent.isOverflow_ofLine_iff]
  have hlines := length_lines (Text.lines text)
  rw [← recordsOf, ← hrecords, ← hoverflowed, ← hcount] at hlines
  have hkinds : (ofText text).records.length =
      (ofText text).records.countP (fun r => r.kind.isWrite) +
        (ofText text).records.countP (fun r => ¬ r.kind.isWrite) :=
    List.length_eq_countP_add_countP _
  have hwrites : (ofText text).writes ≤ (ofText text).records.length := List.countP_le_length
  have hreads : (ofText text).reads = (ofText text).records.countP fun r => ¬ r.kind.isWrite := by
    rw [reads, writes, hkinds, Nat.add_sub_cancel_left]
  exact {
    records := hrecords
    lineCount := hcount
    overflowed := hoverflowed
    length_le := by omega
    skipped := by rw [skipped]; omega
    noise := by rw [skipped]; omega
    writes := rfl
    reads := hreads
    kinds := by rw [reads]; omega }

end Trace

namespace Run

variable {α β : Type} {files : FileReader} {path : String} {bytes : List UInt8}

/-- A sequence gives the notices of its parts. -/
theorem notices_bind_ok {first : Run α} {value : α} (h : first.outcome = .ok value)
    (second : α → Run β) :
    (first >>= second).notices = first.notices ++ (second value).notices := by
  simp [bind_ok h, notices]

/-- What is told of a file whose trace has been read. -/
theorem notices_readTrace {trace : Trace} (h : files path = .ok bytes)
    (htrace : (readTrace files path).outcome = .ok trace) :
    (readTrace files path).notices =
      (if isValid bytes then [] else [Notice.replaced path]) ++
        ([.parsed trace.records.length trace.skipped path, .counted trace.reads trace.writes] ++
          if 0 < trace.overflowed then [.overflowed trace.overflowed] else []) := by
  obtain rfl := Except.ok.inj ((yields_readTrace h).outcome.symm.trans htrace)
  rw [readTrace, notices_bind_ok (yields_readText h).outcome, notices_readText h]
  rw [List.append_right_inj]
  by_cases hoverflowed : 0 < (Trace.ofText (decode bytes)).overflowed
  · simp only [if_pos hoverflowed]
    rfl
  · simp only [if_neg hoverflowed]
    rfl

/-- A file that can be read gives the records of its lines, and what is told of it adds up. -/
theorem readTrace_addsUp (h : files path = .ok bytes) :
    ∃ trace, (readTrace files path).outcome = .ok trace ∧
      (readTrace files path).notices =
        (if isValid bytes then [] else [Notice.replaced path]) ++
          ([.parsed trace.records.length trace.skipped path, .counted trace.reads trace.writes] ++
            if 0 < trace.overflowed then [.overflowed trace.overflowed] else []) ∧
      trace.AddsUp (decode bytes) :=
  have htrace := (yields_readTrace h).outcome
  ⟨_, htrace, notices_readTrace h htrace, Trace.addsUp_ofText _⟩

/-- The line of a read by an OSD. -/
def plainRead (osd : String) : String :=
  "osd " ++ osd ++ " pg 3.1f op_r size 0 client 1 tid 1 throttle_lat 1 recv_lat 1 " ++
    "dispatch_lat 1 queue_lat 1 osd_lat 1 bluestore_lat 1 op_lat 131\n"

/-- A record, noise and two lines with an OSD that does not fit. -/
def unevenText : String :=
  String.join
    [plainRead "6", "noise bluestore_lat\n", plainRead "4294967296", plainRead "9999999999"]

/-- Two of the three lines that are skipped are dropped for a number. -/
theorem readTrace_addsUp_unevenText :
    let files : FileReader := fun _ => .ok (bytesOf unevenText)
    files "trace.out" = .ok (bytesOf unevenText) ∧
      (readTrace files "trace.out").notices =
        [.parsed 1 3 "trace.out", .counted 1 0, .overflowed 2] ∧
      ∃ trace, (readTrace files "trace.out").outcome = .ok trace ∧
        trace.AddsUp (decode (bytesOf unevenText)) := by
  intro files
  obtain ⟨trace, htrace, -, hadds⟩ := readTrace_addsUp (show files "trace.out" = _ from rfl)
  exact ⟨rfl, by decide +kernel, trace, htrace, hadds⟩

end Run

end OsdLatency
