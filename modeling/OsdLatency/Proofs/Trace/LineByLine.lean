import OsdLatency.Proofs.Analysis.Run
import OsdLatency.Proofs.Text.Pieces

/-!
# Trace files are read line by line

Bytes that are not well formed spoil only the line they stand on: each line of a file is read as if
it stood alone, and the records of the file are those of its lines.

## Main definitions

* `Record.ofBytes?` — the record that the bytes of a line hold
* `Run.ReadsLineByLine` — what is read of a file is what is read of its lines

## Main results

* `Run.readsLineByLine` — every file that can be read is read line by line
-/

namespace OsdLatency

open Text (byteLines)
open Text.Utf8 (decode isValid)

/-- The record that the bytes of a line hold. -/
def Record.ofBytes? (line : List UInt8) : Option Record := ofLine? (decode line)

/-- The trace of a file, line by line. -/
theorem Trace.ofText_decode (bytes : List UInt8) :
    ofText (decode bytes) =
      { lineCount := (byteLines bytes).length
        records := (byteLines bytes).filterMap Record.ofBytes?
        overflowed := (byteLines bytes).countP fun line => Record.overflowsIn (decode line) } := by
  have hcontent : LineContent.record? ∘ LineContent.ofLine ∘ decode = Record.ofBytes? :=
    funext fun line => LineContent.record?_ofLine (decode line)
  have hoverflow : LineContent.isOverflow ∘ LineContent.ofLine ∘ decode =
      fun line => Record.overflowsIn (decode line) :=
    funext fun line => LineContent.isOverflow_ofLine (decode line)
  rw [ofText, Text.lines_decode, List.map_map, List.length_map, List.filterMap_map, List.countP_map,
    hcontent, hoverflow]

namespace Run

variable {files : FileReader} {path : String} {bytes : List UInt8}

/-- What is read of a file is what is read of its lines, each on its own. -/
structure ReadsLineByLine (files : FileReader) (path : String) (bytes : List UInt8) : Prop where
  text : (readText files path).outcome = .ok (decode bytes)
  /-- Cutting the text at its line feeds comes to the same as cutting the bytes. -/
  pieces : (decode bytes).splitOn '\n' = (bytes.splitOn 0x0A).map decode
  /-- A piece that is the encoding of a text is read as this text, without a fault. -/
  unchanged : ∀ piece ∈ bytes.splitOn 0x0A, ∀ text : String,
    bytesOf text = piece ↔ isValid piece = true ∧ decode piece = text.toList
  /-- So is a whole file. -/
  whole : ∀ text : String, bytesOf text = bytes ↔ isValid bytes = true ∧ decode bytes = text.toList
  /-- The notice tells of a fault on some line. -/
  notices : (readText files path).notices =
    if (bytes.splitOn 0x0A).all isValid then [] else [Notice.replaced path]
  trace : (readTrace files path).outcome = .ok
    { lineCount := (byteLines bytes).length
      records := (byteLines bytes).filterMap Record.ofBytes?
      overflowed := (byteLines bytes).countP fun line => Record.overflowsIn (decode line) }
  /-- Whatever is written on a line instead, every other line holds the same record. -/
  elsewhere : ∀ front old back, bytes = front ++ old ++ back → 0x0A ∉ old →
    ∀ new, 0x0A ∉ new → ∀ i, i ≠ front.count 0x0A →
      ((byteLines (front ++ new ++ back)).map Record.ofBytes?)[i]? =
        ((byteLines bytes).map Record.ofBytes?)[i]?

theorem notices_readText (h : files path = .ok bytes) :
    (readText files path).notices = if isValid bytes then [] else [Notice.replaced path] := by
  have hbytes : readBytes files path = done bytes := by
    rw [readBytes, h]
    rfl
  rw [readText, hbytes]
  cases hvalid : isValid bytes <;> simp [bind, andThen, done, note, hvalid, notices, Step.notice?]

/-- Every file that can be read is read line by line. -/
theorem readsLineByLine (h : files path = .ok bytes) : ReadsLineByLine files path bytes where
  text := (yields_readText h).outcome
  pieces := Text.splitOn_decode bytes
  unchanged piece _ text := Text.Utf8.bytesOf_eq_iff
  whole text := Text.Utf8.bytesOf_eq_iff
  notices := by
    rw [notices_readText h, Text.isValid_eq_all]
  trace := by rw [← Trace.ofText_decode, (yields_readTrace h).outcome]
  elsewhere := by
    rintro front old back rfl hold new hnew i hi
    rw [List.getElem?_map, List.getElem?_map, Text.getElem?_byteLines_congr hnew hold hi]

/-- A sequence that a line feed cuts off does not reach beyond it. -/
theorem readsLineByLine_cutOff :
    let bytes : List UInt8 := [0x61, 0xE2, 0x82, 0x0A, 0x62]
    let files : FileReader := fun _ => .ok bytes
    files "trace.out" = .ok bytes ∧ decode bytes = ['a', '\uFFFD', '\n', 'b'] ∧
      byteLines bytes = [[0x61, 0xE2, 0x82], [0x62]] ∧ ReadsLineByLine files "trace.out" bytes :=
  ⟨rfl, by decide, by decide, readsLineByLine rfl⟩

end Run

end OsdLatency
