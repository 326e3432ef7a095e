import OsdLatency.Files.Fault
import OsdLatency.Run.Basic
import OsdLatency.Text.Utf8
import OsdLatency.Trace.Reading

/-!
# Reading files in a run

Files are read as a whole and shown as text. Bytes that are not well formed are replaced, so that
they spoil only the line they stand on, and a notice tells of it.

## Main definitions

* `FileReader` — the content of every path, or why it cannot be read
* `Run.readText`, `Run.readTrace` — the text and the trace of a file
-/

namespace OsdLatency

/-- The content of every path, or why it cannot be read. -/
abbrev FileReader := String → Except Files.Fault (List UInt8)

namespace Run

/-- The bytes of a file. -/
def readBytes (files : FileReader) (path : String) : Run (List UInt8) :=
  ofExcept ((files path).mapError (.unreadable path))

/-- The text of a file. -/
def readText (files : FileReader) (path : String) : Run (List Char) := do
  let bytes ← readBytes files path
  if !Text.Utf8.isValid bytes then note (.replaced path)
  return Text.Utf8.decode bytes

/-- The trace of a file. -/
def readTrace (files : FileReader) (path : String) : Run Trace := do
  let trace := Trace.ofText (← readText files path)
  note (.parsed trace.records.length trace.skipped path)
  note (.counted trace.reads trace.writes)
  if 0 < trace.overflowed then note (.overflowed trace.overflowed)
  return trace

end Run

end OsdLatency
