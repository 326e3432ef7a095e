import OsdLatency.CommandLine.Program
import OsdLatency.CommandLine.Surroundings
import OsdLatency.Run.Delivery

/-!
# Sessions

A session is one start of a program. Its log file is opened before anything else, then the files
are read and the command is carried out. Notices are shown if the user wants to see them, failures
always, and both are written to the log file. Trouble with the log file is shown and does not end
the session.

## Main definitions

* `Output`, `conclude` — where the output of a run goes, and what arrives there
* `Conclusion`, `session` — what a session shows, and its exit status
-/

namespace OsdLatency.CommandLine

open Files

/-- Where the output of a session goes. -/
inductive Output
  /-- Somewhere that takes everything. -/
  | taken
  /-- A device that takes nothing. -/
  | refused
deriving DecidableEq, Repr

/-- How many bytes of output are held back before they are passed on. -/
def bufferSize : Nat := 8192

/-- Carry out a run and pass its output on. Output that is refused ends the run as soon as the
buffer has no room for it, and at the latest behind the last step. -/
def conclude (run : Run Unit) : Output → Delivery Unit
  | .taken => { received := bytesOf run.output, notices := run.notices, outcome := run.outcome }
  | .refused =>
    let delivery := run.deliver bufferSize
    match delivery.outcome with
    -- What is still held back is lost when it is passed on.
    | .ok _ =>
      if delivery.received.isEmpty then delivery
      else { received := [], notices := delivery.notices, outcome := .error .unwritable }
    | .error failure => { received := [], notices := delivery.notices, outcome := .error failure }

/-- What a session shows, and its exit status. -/
structure Conclusion where
  status : UInt8
  /-- The bytes that have gone to the output. -/
  output : List UInt8
  /-- The lines that are shown beside the output. -/
  shown : List String

section Session

variable {m : Type → Type} [Monad m] {η : Type}

namespace Surroundings

/-- Open the log file, if one is wanted, after making its directory. If that fails there is none,
and a line is shown. -/
def openLog (around : Surroundings m η) : Option String → m (Option η × List String)
  | none => return (none, [])
  | some path => do
    -- The root has no parent, and an empty directory is the working directory.
    let directory := (Path.parent? path).getD "."
    let present ← if directory.isEmpty then pure true else around.holds directory
    let made ← if present then pure (.ok ()) else around.makeDirectories directory
    match made with
    | .error fault => return (none, [s!"cannot create log directory {directory}: {fault.message}"])
    | .ok _ =>
      match ← around.openEmpty path with
      | .error fault => return (none, [s!"cannot open log file {path}: {fault.message}"])
      | .ok handle => return (some handle, [])

/-- Write a line to the log file. If that fails, a line is shown. -/
def writeLog (around : Surroundings m η) (handle : Option η) (line : String) : m (List String) :=
  match handle with
  | none => return []
  | some handle => do
    match ← around.append handle (line ++ "\n") with
    | .ok _ => return []
    | .error fault => return [s!"failed to write log file: {fault.message}"]

/-- Report notices, and give the lines that are shown. -/
def report (around : Surroundings m η) (handle : Option η) (verbose : Bool) :
    List Notice → m (List String)
  | [] => return []
  | notice :: notices => do
    -- A notice is shown before trouble with writing it down.
    let text := notice.text (← around.elapsed)
    let trouble ← around.writeLog handle text
    let others ← around.report handle verbose notices
    return (if verbose then [text] else []) ++ trouble ++ others

/-- Report how a run has ended, and give the lines that are shown. -/
def reportOutcome (around : Surroundings m η) (handle : Option η) :
    Except Failure Unit → m (List String)
  | .ok _ => return []
  | .error failure => do
    let trouble ← around.writeLog handle ("ERROR: " ++ failure.message)
    return failure.message :: trouble

/-- Read some files. -/
def readAll (around : Surroundings m η) : List String → m FileReader
  | [] => return fun _ => .error .noSuchFile
  | path :: paths => do
    let content ← around.read path
    let others ← around.readAll paths
    return fun other => if other = path then content else others other

/-- Do what a command line asks for. -/
def serve (around : Surroundings m η) (output : Output) (invocation : Invocation) :
    m Conclusion := do
  let (handle, complaints) ← around.openLog invocation.logFile
  let files ← around.readAll invocation.task.paths
  let delivery := conclude (invocation.task.run files) output
  let noticed ← around.report handle invocation.verbose delivery.notices
  let ended ← around.reportOutcome handle delivery.outcome
  return {
    status := match delivery.outcome with
      | .ok _ => 0
      | .error failure => failure.exitStatus
    output := delivery.received
    shown := complaints ++ noticed ++ ended }

end Surroundings

/-- The lines that are written in place of a report, unless the output refuses them. -/
def printed (lines : List String) : Output → List UInt8
  | .taken => bytesOf (String.join (lines.map (· ++ "\n")))
  | .refused => []

/-- Start a program. -/
def session (around : Surroundings m η) (output : Output) (program : Program)
    (arguments : List String) : m Conclusion :=
  match program.read arguments with
  | .error .help => return { status := 0, output := printed program.help output, shown := [] }
  | .error .version =>
    return { status := 0, output := printed [program.version] output, shown := [] }
  | .error .misuse => return { status := 2, output := [], shown := [program.usage] }
  | .ok invocation => around.serve output invocation

end Session

end OsdLatency.CommandLine
