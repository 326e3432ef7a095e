import OsdLatency.CommandLine.Session

/-!
# The entry point

The first argument names the program, and the others are its command line. The files, the clock and
the streams of the operating system stand here; what is done with them is decided elsewhere.
-/

namespace OsdLatency.Main

open Files CommandLine

/-- A refusal of the operating system. -/
def faultOf : IO.Error → Fault
  | .alreadyExists _ code text => .ofCode code.toNat text
  | .otherError code text => .ofCode code.toNat text
  | .resourceBusy code text => .ofCode code.toNat text
  | .resourceVanished code text => .ofCode code.toNat text
  | .unsupportedOperation code text => .ofCode code.toNat text
  | .hardwareFault code text => .ofCode code.toNat text
  | .unsatisfiedConstraints code text => .ofCode code.toNat text
  | .illegalOperation code text => .ofCode code.toNat text
  | .protocolError code text => .ofCode code.toNat text
  | .timeExpired code text => .ofCode code.toNat text
  | .interrupted _ code text => .ofCode code.toNat text
  | .noFileOrDirectory _ code text => .ofCode code.toNat text
  | .invalidArgument _ code text => .ofCode code.toNat text
  | .permissionDenied _ code text => .ofCode code.toNat text
  | .resourceExhausted _ code text => .ofCode code.toNat text
  | .inappropriateType _ code text => .ofCode code.toNat text
  | .noSuchThing _ code text => .ofCode code.toNat text
  | .unexpectedEof => .other none "unexpected end of file"
  | .userError text => .other none text

/-- Do something that the operating system may refuse. -/
def attempt (act : IO α) : IO (Except Fault α) := do
  try
    return .ok (← act)
  catch error =>
    return .error (faultOf error)

/-- Whether a path leads to something. What is there but cannot be opened counts. -/
def holds (path : String) : IO Bool := do
  match ← attempt (IO.FS.Handle.mk path .read) with
  | .ok _ => return true
  | .error fault => return fault ∉ [.noSuchFile, .notADirectory, .nameTooLong]

/-- The surroundings that the operating system gives to a session that started at a time. -/
def surroundings (start : Nat) : Surroundings IO IO.FS.Handle where
  holds := holds
  isDirectory path := holds (path ++ "/.")
  makeDirectory path := attempt (IO.FS.createDir path)
  openEmpty path := attempt (IO.FS.Handle.mk path .write)
  append handle text := attempt do
    handle.putStr text
    handle.flush
  read path := attempt do
    let handle ← IO.FS.Handle.mk path .read
    return (← handle.readBinToEnd).data.toList
  elapsed := do
    let micros := ((← IO.monoNanosNow) - start) / 1000
    return String.ofList (Binary64.withPoint 3 micros)

/-- Show some lines beside the output. -/
def showLines (lines : List String) : IO Unit := do
  let stream ← IO.getStderr
  for line in lines do
    stream.putStr (line ++ "\n")

/-- Start the program that the first argument names. -/
def start (arguments : List String) : IO UInt8 := do
  match arguments with
  | [] =>
    showLines (Program.all.map Program.usage)
    return 2
  | name :: arguments =>
    match Program.ofName? name with
    | none =>
      showLines (Program.all.map Program.usage)
      return 2
    | some program =>
      let around := surroundings (← IO.monoNanosNow)
      let conclusion ← session around .taken program arguments
      let stream ← IO.getStdout
      let written ← attempt do
        stream.write (ByteArray.mk conclusion.output.toArray)
        stream.flush
      showLines conclusion.shown
      match written with
      | .ok _ => return conclusion.status
      | .error _ =>
        showLines [Failure.unwritable.message]
        return Failure.unwritable.exitStatus

end OsdLatency.Main

/-- Start the program that the first argument names, with the others as its command line. -/
def main (arguments : List String) : IO UInt32 := do
  return (← OsdLatency.Main.start arguments).toUInt32
