import OsdLatency.CommandLine.Program
import OsdLatency.Proofs.Analysis.Run
import OsdLatency.Proofs.Run.Sink

/-!
# Commands on a sink that fills up

A sink that fills up cuts what a command writes and changes nothing else. A scan writes its heading
before it reads its files, so trouble with a file is reported exactly if the heading has fitted.

## Main definitions

* `Run.Fails` — a run fails, having written a text
* `Scan.heading` — the bytes that a scan writes before it reads its files

## Main results

* `Scan.output_of_unreadable` — a scan that cannot read a file writes its heading only
* `CommandLine.Command.sendTo_limited` — a command on a sink that fills up, beside the same command
  on one that does not
-/

namespace OsdLatency

variable {α β : Type} {files : FileReader} {path : String} {fault : Files.Fault}
  {failure : Failure} {value : α} {text text' : String} {n : ℕ}

/-! ### Failing runs -/

namespace Run

/-- A run fails, having written a text. -/
structure Fails (run : Run α) (failure : Failure) (text : String) : Prop where
  outcome : run.outcome = .error failure
  output : run.output = text

variable {first : Run α} {second : α → Run β}

/-- Nothing comes behind a failure. -/
theorem Fails.bind (h : first.Fails failure text) (second : α → Run β) :
    (first >>= second).Fails failure text where
  outcome := by rw [bind_error h.outcome]
  output := by rw [output_bind_error h.outcome, h.output]

theorem Yields.bind_fails (h : first.Yields value text)
    (h' : (second value).Fails failure text') :
    (first >>= second).Fails failure (text ++ text') where
  outcome := by rw [bind_ok h.outcome, h'.outcome]
  output := by rw [output_bind_ok h.outcome, h.output, h'.output]

theorem Yields.bind_silent_fails (h : first.Yields value "")
    (h' : (second value).Fails failure text) : (first >>= second).Fails failure text := by
  have hrun := h.bind_fails h'
  rwa [String.empty_append] at hrun

/-- A file that cannot be read fails a run that has written nothing yet. -/
theorem fails_readText (h : files path = .error fault) :
    (readText files path).Fails (.unreadable path fault) "" := by
  have hbytes : (readBytes files path).Fails (.unreadable path fault) "" := by
    rw [readBytes, h]
    exact ⟨rfl, rfl⟩
  exact hbytes.bind _

end Run

/-! ### Scans without their files -/

namespace Scan

variable {scan : Scan} {log tree : List UInt8}

/-- The text that a scan writes before it reads its files. -/
def heading (scan : Scan) : String :=
  Run.linesText (SuspectReport.header scan.log scan.tree scan.threshold)

theorem yields_readLog (h : files scan.log = .ok log) :
    (scan.readLog files).Yields (SlowOp.ofText scan.threshold (Text.Utf8.decode log)) "" :=
  (Run.yields_readText h).bind_silent ((Run.yields_note _).bind_silent (Run.yields_done _))

theorem fails_readLog (h : files scan.log = .error fault) :
    (scan.readLog files).Fails (.unreadable scan.log fault) "" :=
  (Run.fails_readText h).bind _

theorem yields_readTree (h : files scan.tree = .ok tree) :
    (scan.readTree files).Yields (HostMap.ofText (Text.Utf8.decode tree)) "" :=
  (Run.yields_readText h).bind_silent ((Run.yields_note _).bind_silent (Run.yields_done _))

theorem fails_readTree (h : files scan.tree = .error fault) :
    (scan.readTree files).Fails (.unreadable scan.tree fault) "" :=
  (Run.fails_readText h).bind _

theorem yields_heading (scan : Scan) :
    (Run.writeLines (SuspectReport.header scan.log scan.tree scan.threshold)).Yields ()
      scan.heading :=
  Run.yields_writeLines _

theorem fails_run_of_log (h : files scan.log = .error fault) :
    (scan.run files).Fails (.unreadable scan.log fault) scan.heading := by
  rw [← String.append_empty (s := scan.heading)]
  apply (yields_heading scan).bind_fails
  exact (fails_readLog h).bind _

theorem fails_run_of_tree (h : files scan.log = .ok log) (h' : files scan.tree = .error fault) :
    (scan.run files).Fails (.unreadable scan.tree fault) scan.heading := by
  rw [← String.append_empty (s := scan.heading)]
  apply (yields_heading scan).bind_fails
  apply (yields_readLog h).bind_silent_fails
  exact (fails_readTree h').bind _

/-- With both files a scan writes its heading and what it has found. -/
theorem yields_run (h : files scan.log = .ok log) (h' : files scan.tree = .ok tree) :
    let ops := SlowOp.ofText scan.threshold (Text.Utf8.decode log)
    let hosts := HostMap.ofText (Text.Utf8.decode tree)
    (scan.run files).Yields ()
      (scan.heading ++ Run.linesText (SuspectReport.lines (suspects ops hosts) ops.length)) := by
  apply (yields_heading scan).bind
  apply (yields_readLog h).bind_silent
  apply (yields_readTree h').bind_silent
  exact Run.yields_writeLines _

/-- A scan that cannot read a file writes its heading only. -/
theorem output_of_unreadable (h : (scan.run files).outcome = .error (.unreadable path fault)) :
    (scan.run files).output = scan.heading := by
  cases hlog : files scan.log with
  | error fault => exact (fails_run_of_log hlog).output
  | ok log =>
    cases htree : files scan.tree with
    | error fault => exact (fails_run_of_tree hlog htree).output
    | ok tree => exact absurd ((yields_run hlog htree).outcome.symm.trans h) nofun

end Scan

/-! ### Commands -/

namespace CommandLine.Command

/-- What becomes of a command on a sink that fills up, beside what becomes of it on a sink that does
not: the sink holds the first bytes of the whole output, and the command fails for the sink exactly
if the output goes on behind them. -/
structure CutShort (n : ℕ) (whole cut : Delivery Unit) : Prop where
  received : cut.received = whole.received.take n
  outcome : cut.outcome =
    if n < whole.received.length then .error .unwritable else whole.outcome

/-- A command on a sink that fills up is cut short and nothing else, whatever a sink accepts at once
and however texts are cut into pieces. This is how it is delivered. If a scan cannot read a file, it
says so exactly if its heading has fitted. -/
theorem sendTo_limited (command : Command) (files : FileReader) (endless : Sink none)
    (sink : Sink (some n)) (pieces pieces' : Pieces) :
    let whole := (command.run files).sendTo endless pieces []
    let cut := (command.run files).sendTo sink pieces' []
    CutShort n whole cut ∧ cut = (command.run files).deliver n ∧
      ∀ scan path fault, command = .scan scan → whole.outcome = .error (.unreadable path fault) →
        (cut.outcome = .error (.unreadable path fault) ↔ (bytesOf scan.heading).length ≤ n) := by
  intro whole cut
  have hwhole : whole = { received := bytesOf (command.run files).output
                          notices := (command.run files).notices
                          outcome := (command.run files).outcome } :=
    Run.sendTo_endless _ _ _
  have hcut : cut = (command.run files).deliver n := Run.sendTo_eq_deliver _ _ _
  have hshort : CutShort n whole cut := by
    rw [hwhole, hcut]
    refine ⟨Run.received_deliver _ _, ?_⟩
    rw [Run.outcome_deliver]
    dsimp only
    split_ifs with hfits hover hover
    · exact absurd hfits (Nat.not_le_of_lt hover)
    · rfl
    · rfl
    · exact absurd (Nat.le_of_not_lt hover) hfits
  refine ⟨hshort, hcut, ?_⟩
  rintro scan path fault rfl hunreadable
  have houtput : whole.received = bytesOf scan.heading := by
    rw [hwhole] at hunreadable ⊢
    exact congrArg bytesOf (Scan.output_of_unreadable hunreadable)
  rw [hshort.outcome, houtput, hunreadable]
  split_ifs with hover
  · exact iff_of_false nofun (Nat.not_le_of_lt hover)
  · exact iff_of_true rfl (Nat.le_of_not_lt hover)

/-- A scan without its log says so on a sink that its heading fills, and not on one that has room
for one byte less. -/
theorem sendTo_limited_missingLog :
    let scan : Scan := { log := "rados.log", tree := "tree.txt", threshold := 150000 }
    let run := (Command.scan scan).run fun _ => .error .noSuchFile
    (run.sendTo (Sink.bytewise (some 104)) .whole []).outcome =
        .error (.unreadable "rados.log" .noSuchFile) ∧
      (run.sendTo (Sink.bytewise (some 103)) .whole []).outcome ≠
        .error (.unreadable "rados.log" .noSuchFile) := by
  intro scan run
  have hlength : (bytesOf scan.heading).length = 104 := by decide +kernel
  have hunreadable : (run.sendTo (Sink.bytewise none) .whole []).outcome =
      .error (.unreadable "rados.log" .noSuchFile) := by
    rw [Run.sendTo_endless]
    exact (Scan.fails_run_of_log rfl).outcome
  have hfits := fun n => (sendTo_limited (.scan scan) (fun _ => .error .noSuchFile)
    (Sink.bytewise none) (Sink.bytewise (some n)) .whole .whole).2.2 scan _ _ rfl hunreadable
  rw [hlength] at hfits
  exact ⟨(hfits 104).mpr (Nat.le_refl 104), mt (hfits 103).mp (by decide)⟩

end CommandLine.Command

end OsdLatency
