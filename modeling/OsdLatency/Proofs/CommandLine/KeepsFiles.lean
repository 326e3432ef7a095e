import OsdLatency.CommandLine.Session
import OsdLatency.Proofs.Files.Kept

/-!
# Sessions keep their files

A session opens its log file before it reads anything, and it does not compare paths. So it keeps
all files but one: a file that is given as the trace and as the log file is empty by the time it is
read. Everything else about a store stays: what is there, and where paths lead.

## Main definitions

* `Keeps` — an action on a store keeps everything but the content of the log file
* `Opens`, `ChangesLog` — an action opens the log file, and changes it alone

## Main results

* `Surroundings.opens_openLog` — opening the log file
* `changesLog_session` — a whole session
* `session_keeps_files` — an analysis keeps its trace, unless that is the log file
* `not_forall_session_keeps_trace` — a trace that is the log file is lost
-/

namespace OsdLatency.CommandLine

open Files Files.Store

variable {α β : Type} {log handle : Option Place} {s t : Store} {path elapsed : String}
  {logFile : Option String}

/-! ### Actions on a store -/

/-- An action on a store keeps everything but the content of the log file. -/
def Keeps (log : Option Place) (act : StateM Store α) : Prop := ∀ s, Grows log s (act s).2

theorem bind_apply (act : StateM Store α) (next : α → StateM Store β) (s : Store) :
    (act >>= next) s = next (act s).1 (act s).2 := rfl

theorem keeps_pure (log : Option Place) (value : α) : Keeps log (pure value : StateM Store α) :=
  fun s => .refl log s

theorem keeps_get (log : Option Place) : Keeps log (get : StateM Store Store) :=
  fun s => .refl log s

theorem Keeps.bind {act : StateM Store α} {next : α → StateM Store β} (h : Keeps log act)
    (h' : ∀ value, Keeps log (next value)) : Keeps log (act >>= next) :=
  fun s => (h s).trans (h' _ _)

/-- A change that is refused changes nothing. -/
theorem keeps_changing {change : Store → Except Fault Store}
    (h : ∀ s t, change s = .ok t → Grows log s t) :
    Keeps log (changing fun s => (change s).map (·, ())) := by
  intro s
  rw [changing]
  cases hchange : change s with
  | error fault => exact .refl log s
  | ok t => exact h s t hchange

/-- The log file is opened where its path leads, if it is opened. -/
def IsLog (logFile : Option String) (s : Store) (handle : Option Place) : Prop :=
  ∀ place ∈ handle, ∃ path ∈ logFile, s.place? path = some place

theorem IsLog.grows (h : IsLog logFile s handle) (hgrows : Grows log s t) :
    IsLog logFile t handle := by
  intro place hplace
  obtain ⟨path, hpath, hs⟩ := h place hplace
  exact ⟨path, hpath, hgrows.place?_eq hs⟩

/-- An action opens the log file and changes nothing else. -/
def Opens (logFile : Option String) (act : StateM Store (Option Place × List String)) : Prop :=
  ∀ s, Grows (act s).1.1 s (act s).2 ∧ IsLog logFile (act s).2 (act s).1.1

theorem Opens.after {act : StateM Store α} {next : α → StateM Store (Option Place × List String)}
    (h : Keeps none act) (h' : ∀ value, Opens logFile (next value)) :
    Opens logFile (act >>= next) := by
  intro s
  obtain ⟨hgrows, hlog⟩ := h' (act s).1 (act s).2
  exact ⟨((h s).of_none _).trans hgrows, hlog⟩

theorem opens_none (logFile : Option String) (complaints : List String) :
    Opens logFile (pure (none, complaints)) :=
  fun s => ⟨.refl none s, nofun⟩

/-- An action changes the log file alone, wherever it is. -/
def ChangesLog (logFile : Option String) (act : StateM Store α) : Prop :=
  ∀ s, ∃ handle, Grows handle s (act s).2 ∧ IsLog logFile (act s).2 handle

theorem Opens.changesLog {act : StateM Store (Option Place × List String)}
    {next : Option Place × List String → StateM Store α} (h : Opens logFile act)
    (h' : ∀ handle complaints, Keeps handle (next (handle, complaints))) :
    ChangesLog logFile (act >>= next) := by
  intro s
  obtain ⟨hgrows, hlog⟩ := h s
  have hrest := h' (act s).1.1 (act s).1.2 (act s).2
  exact ⟨(act s).1.1, hgrows.trans hrest, hlog.grows hrest⟩

namespace Surroundings

theorem keeps_holds (log : Option Place) : Keeps log ((ofStore elapsed).holds path) :=
  (keeps_get log).bind fun _ => keeps_pure log _

theorem keeps_isDirectory (log : Option Place) : Keeps log ((ofStore elapsed).isDirectory path) :=
  (keeps_get log).bind fun _ => keeps_pure log _

theorem keeps_read (log : Option Place) : Keeps log ((ofStore elapsed).read path) :=
  (keeps_get log).bind fun _ => keeps_pure log _

theorem keeps_makeDirectory : Keeps none ((ofStore elapsed).makeDirectory path) :=
  keeps_changing fun _ _ => grows_of_makeDirectory

theorem keeps_append (place : Place) (text : String) :
    Keeps (some place) ((ofStore elapsed).append place text) :=
  keeps_changing fun _ _ => grows_of_append

/-! ### The log file -/

theorem keeps_ensureDirectory : Keeps none ((ofStore elapsed).ensureDirectory path) := by
  refine keeps_makeDirectory.bind fun made => ?_
  cases made with
  | ok _ => exact keeps_pure none _
  | error fault => exact (keeps_isDirectory none).bind fun _ => keeps_pure none _

theorem keeps_ensureDirectories (paths : List String) :
    Keeps none ((ofStore elapsed).ensureDirectories paths) := by
  induction paths with
  | nil => exact keeps_pure none _
  | cons path above ih =>
    refine keeps_ensureDirectory.bind fun ensured => ?_
    -- Only a directory that is missing above leads to another attempt.
    split
    · refine ih.bind fun made => ?_
      cases made with
      | ok _ => exact keeps_ensureDirectory
      | error fault => exact keeps_pure none _
    · exact keeps_pure none _

theorem opens_openEmpty {next : Except Fault Place → StateM Store (Option Place × List String)}
    (hfault : ∀ fault, Opens (some path) (next (.error fault)))
    (hplace : ∀ place, next (.ok place) = pure (some place, [])) :
    Opens (some path) ((ofStore elapsed).openEmpty path >>= next) := by
  intro s
  cases hopen : s.openEmpty path with
  | error fault =>
    have hresult : (ofStore elapsed).openEmpty path s = (.error fault, s) := by
      simp only [ofStore, changing, hopen]
    rw [bind_apply, hresult]
    exact hfault fault s
  | ok opened =>
    obtain ⟨t, place⟩ := opened
    have hresult : (ofStore elapsed).openEmpty path s = (.ok place, t) := by
      simp only [ofStore, changing, hopen]
    obtain ⟨hgrows, hleads⟩ := grows_of_openEmpty hopen
    rw [bind_apply, hresult, hplace]
    refine ⟨hgrows, ?_⟩
    intro other hother
    obtain rfl := Option.some.inj hother
    exact ⟨path, rfl, hgrows.place?_eq hleads⟩

/-- Looking for the directory of the log file. -/
theorem opens_check {directory : String}
    {next : Bool → StateM Store (Option Place × List String)}
    (h : ∀ present, Opens logFile (next present)) :
    Opens logFile (if directory.isEmpty then pure true >>= next
      else (ofStore elapsed).holds directory >>= next) := by
  split_ifs
  · exact .after (keeps_pure none _) h
  · exact .after (keeps_holds none) h

/-- Making the directory of the log file. -/
theorem opens_making {directory : String} {present : Bool}
    {next : Except Fault Unit → StateM Store (Option Place × List String)}
    (h : ∀ made, Opens logFile (next made)) :
    Opens logFile (if present then pure (.ok ()) >>= next
      else (ofStore elapsed).makeDirectories directory >>= next) := by
  split_ifs
  · exact .after (keeps_pure none _) h
  · exact .after (keeps_ensureDirectories _) h

/-- The directory of the log file is made, and then the log file is opened. -/
theorem opens_openLog (elapsed : String) (logFile : Option String) :
    Opens logFile ((ofStore elapsed).openLog logFile) := by
  cases logFile with
  | none => exact opens_none _ _
  | some path =>
    rw [openLog]
    refine opens_check fun present => opens_making fun made => ?_
    cases made with
    | error fault => exact opens_none _ _
    | ok _ => exact opens_openEmpty (fun fault => opens_none _ _) fun place => rfl

theorem keeps_writeLog (handle : Option Place) (line : String) :
    Keeps handle ((ofStore elapsed).writeLog handle line) := by
  cases handle with
  | none => exact keeps_pure none _
  | some place =>
    refine (keeps_append place _).bind fun appended => ?_
    cases appended <;> exact keeps_pure _ _

theorem keeps_report (handle : Option Place) (verbose : Bool) (notices : List Notice) :
    Keeps handle ((ofStore elapsed).report handle verbose notices) := by
  induction notices with
  | nil => exact keeps_pure handle _
  | cons notice notices ih =>
    refine (keeps_pure handle _).bind fun time => ?_
    refine (keeps_writeLog handle _).bind fun trouble => ?_
    exact ih.bind fun others => keeps_pure handle _

theorem keeps_reportOutcome (handle : Option Place) (outcome : Except Failure Unit) :
    Keeps handle ((ofStore elapsed).reportOutcome handle outcome) := by
  cases outcome with
  | ok _ => exact keeps_pure handle _
  | error failure => exact (keeps_writeLog handle _).bind fun trouble => keeps_pure handle _

theorem keeps_readAll (log : Option Place) (paths : List String) :
    Keeps log ((ofStore elapsed).readAll paths) := by
  induction paths with
  | nil => exact keeps_pure log _
  | cons path paths ih =>
    refine (keeps_read log).bind fun content => ?_
    exact ih.bind fun others => keeps_pure log _

/-- The log file is opened first, and nothing else changes it or any other file. -/
theorem changesLog_serve (elapsed : String) (output : Output) (invocation : Invocation) :
    ChangesLog invocation.logFile ((ofStore elapsed).serve output invocation) := by
  refine (opens_openLog elapsed invocation.logFile).changesLog fun handle complaints => ?_
  refine (keeps_readAll handle _).bind fun files => ?_
  refine (keeps_report handle _ _).bind fun noticed => ?_
  exact (keeps_reportOutcome handle _).bind fun ended => keeps_pure handle _

end Surroundings

/-- A session changes its log file alone. -/
theorem changesLog_session {program : Program} {arguments : List String}
    {invocation : Invocation} (haccepted : program.read arguments = .ok invocation)
    (elapsed : String) (output : Output) :
    ChangesLog invocation.logFile (session (.ofStore elapsed) output program arguments) := by
  rw [session, haccepted]
  exact Surroundings.changesLog_serve elapsed output invocation

variable {arguments : List String} {settings : Settings Request}

/-- An analysis keeps all files but its log file. So its trace has the same bytes afterwards, unless
the path of the log file leads to the trace. -/
theorem session_keeps_files (haccepted : analysisGrammar.read arguments = .ok settings)
    (elapsed : String) (output : Output) (s : Store) :
    let after := (session (.ofStore elapsed) output .analysis arguments s).2
    (∀ place content, s.node? place = some (.file content) →
      after.node? place = some (.file content) ∨
        ∃ path ∈ settings.logFile, after.place? path = some place) ∧
    ∀ bytes, s.read settings.task.path = .ok bytes →
      (∀ path ∈ settings.logFile, after.place? path ≠ after.place? settings.task.path) →
        after.read settings.task.path = .ok bytes := by
  intro after
  have hread : Program.analysis.read arguments = .ok (settings.map .analyse) := by
    rw [Program.read, haccepted]
    rfl
  obtain ⟨handle, hgrows, hlog⟩ := changesLog_session hread elapsed output s
  constructor
  · intro place content hheld
    by_cases hhandle : handle = some place
    · exact Or.inr (hlog place hhandle)
    · exact Or.inl (hgrows.file_eq hheld hhandle)
  · intro bytes hbytes hother
    refine hgrows.read_eq hbytes fun hhandle => ?_
    obtain ⟨place, surface, hplace, -⟩ := read_eq_ok_iff.mp hbytes
    have hlater := hgrows.place?_eq hplace
    rw [hlater] at hhandle
    obtain ⟨path, hpath, hleads⟩ := hlog place hhandle
    exact hother path hpath (hleads.trans hlater.symm)

/-- A store with one trace. -/
def traceStore : Store where
  root := [("trace.out", .file (bytesOf "noise\n"))]
  workingDirectory := []

/-- The settings of an analysis of that trace with a log file. -/
def loggingTo (log : String) : Settings Request where
  task := .ofPath "trace.out"
  verbose := false
  logFile := some log

theorem session_keeps_files_apart :
    (session (.ofStore "0") .taken .analysis ["trace.out", "--log-file", "run.log"]
      traceStore).2.read "trace.out" = .ok (bytesOf "noise\n") := by
  have haccepted : analysisGrammar.read ["trace.out", "--log-file", "run.log"] =
      .ok (loggingTo "run.log") := rfl
  refine (session_keeps_files haccepted "0" .taken traceStore).2 _ rfl ?_
  intro path hpath
  obtain rfl := Option.some.inj hpath
  decide +kernel

/-- Not every accepted command line keeps its trace: a trace that is also the log file holds what
has been logged. -/
theorem not_forall_session_keeps_trace :
    ¬∀ (arguments : List String) (settings : Settings Request) (elapsed : String)
      (output : Output) (s : Store) (bytes : List UInt8),
      analysisGrammar.read arguments = .ok settings → s.read settings.task.path = .ok bytes →
        (session (.ofStore elapsed) output .analysis arguments s).2.read settings.task.path =
          .ok bytes := by
  intro hall
  have hkept := hall ["trace.out", "--log-file", "trace.out"] (loggingTo "trace.out") "0" .taken
    traceStore (bytesOf "noise\n") rfl rfl
  revert hkept
  decide +kernel

end OsdLatency.CommandLine
