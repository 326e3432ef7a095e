import OsdLatency.Analysis.Run
import OsdLatency.CommandLine.Grammar
import OsdLatency.Suspect.Scan
import OsdLatency.Text.Decimal

/-!
# The programs

There are two programs: one analyses a trace file, the other scans a client log for suspects. Each
reads its own command line.

## Main definitions

* `Command`, `Invocation` — what a program is asked to do, and where it reports its progress
* `Program.read` — the invocation of a command line
-/

namespace OsdLatency.CommandLine

/-- What a program is asked to do. -/
inductive Command
  | analyse (request : Request)
  | scan (scan : Scan)

namespace Command

/-- The files a command reads. -/
def paths : Command → List String
  | analyse request => [request.path]
  | scan s => [s.log, s.tree]

/-- Carry out a command. -/
def run : Command → FileReader → Run Unit
  | analyse request, files => request.run files
  | scan s, files => s.run files

end Command

/-- A task and where its progress is reported. -/
structure Settings (α : Type) where
  task : α
  /-- Whether notices are shown. -/
  verbose : Bool
  /-- The file that notices and failures are written to. -/
  logFile : Option String

/-- What a command line asks for. -/
abbrev Invocation := Settings Command

/-- Settings with another task. -/
def Settings.map (f : α → β) (s : Settings α) : Settings β :=
  { task := f s.task, verbose := s.verbose, logFile := s.logFile }

/-- The path in an argument. No path is empty. -/
def path? (text : String) : Option String := if text.isEmpty then none else some text

/-- The OSD in an argument: a number that may have a sign. -/
def osd? (text : String) : Option UInt32 :=
  (Text.int64? text.toList).bind fun n =>
    if 0 ≤ n.toInt ∧ n.toInt < UInt32.size then some (UInt32.ofNat n.toInt.toNat) else none

/-- The options that every program takes. -/
def commonOptions : List (OptionRule (Settings α)) := [
  { letter := some 'v', name := "verbose", action := .switch fun s => { s with verbose := true } },
  { letter := some 'h', name := "help", action := .help },
  { letter := some 'V', name := "version", action := .version }]

/-- An option of the analysis that is a switch. -/
def requestSwitch (letter : Char) (name : String) (set : Request → Request) :
    OptionRule (Settings Request) where
  letter := some letter
  name := name
  action := .switch fun s => { s with task := set s.task }

/-- An option of the analysis that takes a value. -/
def requestValue (letter : Char) (name : String) (negatives : Bool)
    (set : String → Request → Option Request) : OptionRule (Settings Request) where
  letter := some letter
  name := name
  action := .value negatives fun text s => (set text s.task).map fun task => { s with task }

/-- The command line of the analysis. -/
def analysisGrammar : Grammar (Settings Request) where
  options := [
    requestValue 'o' "osd" false fun text r =>
      (osd? text).map fun osd => { r with osd := some osd },
    requestSwitch 'm' "show-in-ms" fun r => { r with millis := true },
    requestSwitch 's' "sort" fun r => { r with sort := true },
    requestValue 'f' "field" false fun text r => some { r with field := text },
    requestSwitch 'i' "infer" fun r => { r with infer := true },
    requestValue 't' "threshold" true fun text r =>
      (Text.int64? text.toList).map fun threshold => { r with threshold := some threshold },
    requestSwitch 'j' "json" fun r => { r with json := true },
    { letter := none
      name := "log-file"
      action := .value false fun text s => (path? text).map fun path =>
        { s with logFile := some path } }] ++ commonOptions
  operands := [
    { required := true
      set := fun text s => (path? text).map fun path => { s with task := { s.task with path } } }]
  initial := { task := .ofPath "", verbose := false, logFile := none }
  agrees s := !(s.task.json && s.task.sort)

/-- The command line of the scan. -/
def scanGrammar : Grammar (Settings Scan) where
  options := commonOptions
  operands := [
    { required := true
      set := fun text s => (path? text).map fun log => { s with task := { s.task with log } } },
    { required := true
      set := fun text s => (path? text).map fun tree => { s with task := { s.task with tree } } },
    { required := false
      set := fun text s => (Text.uint64? (Text.dropPlus text.toList)).map fun threshold =>
        { s with task := { s.task with threshold } } }]
  initial :=
    { task := { log := "", tree := "", threshold := SlowOp.defaultThreshold }
      verbose := false
      logFile := none }
  agrees _ := true

/-- A program. -/
inductive Program
  | analysis
  | scan
deriving DecidableEq, Repr

namespace Program

/-- All programs. -/
def all : List Program := [analysis, scan]

/-- The name a program is started by. -/
def name : Program → String
  | analysis => "analyze-osdtrace"
  | scan => "analyze-radostrace"

/-- The program with a name. -/
def ofName? (name : String) : Option Program := all.find? (·.name == name)

/-- The version of a program. -/
def version (program : Program) : String := program.name ++ " 0.1.0"

/-- How a program is called. -/
def usage : Program → String
  | analysis => "Usage: analyze-osdtrace [OPTIONS] <OSDTRACE_FILE>"
  | scan => "Usage: analyze-radostrace [OPTIONS] <LOG_FILE> <OSD_TREE_FILE> [LATENCY_THRESHOLD]"

/-- What the options of a program do. -/
def optionHelp : Program → List String
  | analysis => [
    "  -o, --osd <OSD>              look at a single OSD",
    "  -m, --show-in-ms             show milliseconds in place of microseconds",
    "  -s, --sort                   dump the records in ascending order of the field",
    "  -f, --field <FIELD>          the latency field [default: lat]",
    "  -i, --infer                  report the shares of the components",
    "  -t, --threshold <THRESHOLD>  the least final latency in microseconds",
    "  -j, --json                   write a JSON document",
    "      --log-file <LOG_FILE>    write notices to this file too",
    "  -v, --verbose                show notices"]
  | scan => [
    "  -v, --verbose                show notices"]

/-- The help of a program. -/
def help (program : Program) : List String :=
  [program.usage, "", "Options:"] ++ program.optionHelp ++
    ["  -h, --help                   show this help",
     "  -V, --version                show the version"]

/-- What a command line asks a program for. -/
def read (program : Program) (arguments : List String) : Except Stop Invocation :=
  match program with
  | analysis => (analysisGrammar.read arguments).map (Settings.map Command.analyse)
  | scan => (scanGrammar.read arguments).map (Settings.map Command.scan)

end Program

end OsdLatency.CommandLine
