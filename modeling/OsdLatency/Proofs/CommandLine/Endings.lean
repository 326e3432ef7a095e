import OsdLatency.Proofs.Analysis.Validation
import OsdLatency.Proofs.CommandLine.FullSink

/-!
# How commands end

The first thing that is wrong decides how a command ends. A request is refused for its field, then
for its threshold, and then its file is read: until then it writes nothing, so what it writes is a
whole report. A scan writes its heading, reads the log and then the tree.

## Main definitions

* `CommandLine.Command.EndsIn` — the endings of commands, with the text that is written

## Main results

* `CommandLine.Command.endsIn_iff` — the endings are those of the runs
* `CommandLine.Command.ends_in_order` — what sinks see of them
-/

namespace OsdLatency

variable {α : Type} {files : FileReader} {failure : Failure} {text text' : String}

/-! ### Failing runs and sinks -/

theorem Run.fails_ofExcept {result : Except Failure α} (h : result = .error failure) :
    (Run.ofExcept result).Fails failure "" := ⟨h, rfl⟩

theorem bytesOf_inj : bytesOf text = bytesOf text' ↔ text = text' := by
  refine ⟨fun h => ?_, congrArg bytesOf⟩
  exact String.toByteArray_inj.mp (ByteArray.ext (Array.toList_inj.mp h))

/-- A run that fails without a text leaves every sink empty, also one without room. -/
theorem Run.Fails.sendTo {run : Run α} (h : run.Fails failure "") {limit : Option ℕ}
    (sink : Sink limit) (pieces : Pieces) :
    (run.sendTo sink pieces []).received = [] ∧
      (run.sendTo sink pieces []).outcome = .error failure := by
  have hbytes : bytesOf run.output = [] := by
    rw [h.output]
    rfl
  cases limit with
  | none =>
    rw [Run.sendTo_endless]
    exact ⟨hbytes, h.outcome⟩
  | some n =>
    rw [Run.sendTo_eq_deliver, Run.received_deliver, Run.outcome_deliver, hbytes, List.take_nil]
    exact ⟨rfl, (if_pos (Nat.zero_le n)).trans h.outcome⟩

/-! ### Requests that come to nothing -/

namespace Request

variable {request : Request} {field : LatencyField} {selection : Selection} {fault : Files.Fault}

/-- A request that is refused leaves its file alone. -/
theorem fails_run_of_refused (h : request.validate = .error failure) :
    (request.run files).Fails failure "" :=
  (Run.fails_ofExcept h).bind _

theorem fails_run_of_unreadable (valid : request.validate = .ok (field, selection))
    (unreadable : files request.path = .error fault) :
    (request.run files).Fails (.unreadable request.path fault) "" := by
  apply (Run.yields_ofExcept valid).bind_silent_fails
  exact ((Run.fails_readText unreadable).bind _).bind _

end Request

/-! ### Endings -/

namespace CommandLine.Command

open LatencyField (fieldNames)

/-- How a command on some files ends, and what it has written by then. -/
inductive EndsIn (files : FileReader) : Command → Except Failure Unit → String → Prop
  /-- The field has no known name, and none that ends like the name of a latency. -/
  | notLatencyField {request : Request} (unknown : request.field ∉ fieldNames)
      (ending : ¬"lat".toList <:+ request.field.toList) :
      EndsIn files (.analyse request) (.error (.notLatencyField request.field)) ""
  /-- The field has no known name, although it ends like the name of a latency. -/
  | unknownLatencyField {request : Request} (unknown : request.field ∉ fieldNames)
      (ending : "lat".toList <:+ request.field.toList) :
      EndsIn files (.analyse request) (.error (.unknownLatencyField request.field)) ""
  /-- The field is known, but the threshold lies below zero. -/
  | negativeThreshold {request : Request} {threshold : Int64} (known : request.field ∈ fieldNames)
      (given : request.threshold = some threshold) (negative : threshold < 0) :
      EndsIn files (.analyse request) (.error (.negativeThreshold threshold)) ""
  /-- Nothing is wrong with the request, but its file cannot be read. -/
  | unreadableTrace {request : Request} {fault : Files.Fault} (known : request.field ∈ fieldNames)
      (sound : ∀ threshold ∈ request.threshold, ¬threshold < 0)
      (unreadable : files request.path = .error fault) :
      EndsIn files (.analyse request) (.error (.unreadable request.path fault)) ""
  /-- Nothing is wrong, and the report about the selected records is written. -/
  | report {request : Request} {field : LatencyField} {bytes : List UInt8}
      (known : field.name = request.field)
      (sound : ∀ threshold ∈ request.threshold, ¬threshold < 0)
      (readable : files request.path = .ok bytes) :
      EndsIn files (.analyse request) (.ok ()) (request.reportText field
        (request.askedSelection.select (Trace.ofText (Text.Utf8.decode bytes)).records))
  /-- The log cannot be read, whatever is the matter with the tree. -/
  | unreadableLog {scan : Scan} {fault : Files.Fault} (unreadable : files scan.log = .error fault) :
      EndsIn files (.scan scan) (.error (.unreadable scan.log fault)) scan.heading
  /-- The log can be read, but the tree cannot. -/
  | unreadableTree {scan : Scan} {log : List UInt8} {fault : Files.Fault}
      (readable : files scan.log = .ok log) (unreadable : files scan.tree = .error fault) :
      EndsIn files (.scan scan) (.error (.unreadable scan.tree fault)) scan.heading
  /-- Both files can be read, and the suspects are written. -/
  | suspects {scan : Scan} {log tree : List UInt8} (readableLog : files scan.log = .ok log)
      (readableTree : files scan.tree = .ok tree) :
      EndsIn files (.scan scan) (.ok ()) (scan.heading ++ Run.linesText (SuspectReport.lines
        (OsdLatency.suspects (SlowOp.ofText scan.threshold (Text.Utf8.decode log))
          (HostMap.ofText (Text.Utf8.decode tree)))
        (SlowOp.ofText scan.threshold (Text.Utf8.decode log)).length))

variable {command : Command} {outcome : Except Failure Unit}

/-- The endings are told apart by what is wrong first, and one of them always applies. -/
theorem exists_endsIn (command : Command) (files : FileReader) :
    ∃ outcome text, command.EndsIn files outcome text := by
  cases command with
  | analyse request =>
    by_cases known : request.field ∈ fieldNames
    · by_cases sound : ∀ threshold ∈ request.threshold, ¬threshold < 0
      · obtain ⟨field, hname⟩ := LatencyField.mem_fieldNames.mp known
        cases hfile : files request.path with
        | error fault => exact ⟨_, _, .unreadableTrace known sound hfile⟩
        | ok bytes => exact ⟨_, _, .report hname sound hfile⟩
      · push Not at sound
        obtain ⟨threshold, given, negative⟩ := sound
        exact ⟨_, _, .negativeThreshold known given negative⟩
    · by_cases ending : "lat".toList <:+ request.field.toList
      · exact ⟨_, _, .unknownLatencyField known ending⟩
      · exact ⟨_, _, .notLatencyField known ending⟩
  | scan scan =>
    cases hlog : files scan.log with
    | error fault => exact ⟨_, _, .unreadableLog hlog⟩
    | ok log =>
      cases htree : files scan.tree with
      | error fault => exact ⟨_, _, .unreadableTree hlog htree⟩
      | ok tree => exact ⟨_, _, .suspects hlog htree⟩

/-- A request that ends in a failure has written nothing. -/
theorem EndsIn.fails {request : Request}
    (h : (analyse request).EndsIn files (.error failure) text) :
    (request.run files).Fails failure "" := by
  cases h with
  | notLatencyField unknown ending =>
    apply Request.fails_run_of_refused
    rw [Request.validate_of_not_mem unknown, if_neg ending]
  | unknownLatencyField unknown ending =>
    apply Request.fails_run_of_refused
    rw [Request.validate_of_not_mem unknown, if_pos ending]
  | negativeThreshold known given negative =>
    exact Request.fails_run_of_refused (Request.validate_of_negative known given negative)
  | unreadableTrace known sound unreadable =>
    obtain ⟨field, hname⟩ := LatencyField.mem_fieldNames.mp known
    exact Request.fails_run_of_unreadable (Request.validate_of_sound hname sound) unreadable

/-- A run ends as the relation says. -/
theorem EndsIn.sound (h : command.EndsIn files outcome text) :
    (command.run files).outcome = outcome ∧ (command.run files).output = text := by
  have hrefused : ∀ {request failure},
      (analyse request).EndsIn files (.error failure) "" →
        (request.run files).outcome = .error failure ∧ (request.run files).output = "" :=
    fun h => ⟨h.fails.outcome, h.fails.output⟩
  cases h with
  | notLatencyField unknown ending => exact hrefused (.notLatencyField unknown ending)
  | unknownLatencyField unknown ending => exact hrefused (.unknownLatencyField unknown ending)
  | negativeThreshold known given negative =>
    exact hrefused (.negativeThreshold known given negative)
  | unreadableTrace known sound unreadable =>
    exact hrefused (.unreadableTrace known sound unreadable)
  | report known sound readable =>
    have hyields := Request.yields_run (Request.validate_of_sound known sound) readable
    exact ⟨hyields.outcome, hyields.output⟩
  | unreadableLog unreadable =>
    have hfails := Scan.fails_run_of_log unreadable
    exact ⟨hfails.outcome, hfails.output⟩
  | unreadableTree readable unreadable =>
    have hfails := Scan.fails_run_of_tree readable unreadable
    exact ⟨hfails.outcome, hfails.output⟩
  | suspects readableLog readableTree =>
    have hyields := Scan.yields_run readableLog readableTree
    exact ⟨hyields.outcome, hyields.output⟩

/-- The endings are exactly those of the runs. -/
theorem endsIn_iff : command.EndsIn files outcome text ↔
    (command.run files).outcome = outcome ∧ (command.run files).output = text := by
  refine ⟨EndsIn.sound, ?_⟩
  rintro ⟨rfl, rfl⟩
  obtain ⟨outcome, text, h⟩ := exists_endsIn command files
  obtain ⟨houtcome, htext⟩ := h.sound
  rwa [houtcome, htext]

/-- Every scan begins with its heading. -/
theorem EndsIn.exists_heading {scan : Scan} (h : (Command.scan scan).EndsIn files outcome text) :
    ∃ found, text = scan.heading ++ found := by
  cases h with
  | unreadableLog => exact ⟨"", String.append_empty.symm⟩
  | unreadableTree => exact ⟨"", String.append_empty.symm⟩
  | suspects => exact ⟨_, rfl⟩

/-- On a sink without a limit a command ends exactly as `EndsIn` says, and the sink has received the
text that goes with it. A request that ends in a failure writes nothing to any sink, and the first
thing that a scan writes is its heading. -/
theorem ends_in_order (command : Command) (files : FileReader) (endless : Sink none)
    (pieces : Pieces) :
    let whole := (command.run files).sendTo endless pieces []
    (∀ outcome text, command.EndsIn files outcome text ↔
        whole.outcome = outcome ∧ whole.received = bytesOf text) ∧
      (∀ request failure, command = .analyse request → whole.outcome = .error failure →
        ∀ (limit : Option ℕ) (sink : Sink limit) (pieces' : Pieces),
          let delivery := (request.run files).sendTo sink pieces' []
          delivery.received = [] ∧ delivery.outcome = .error failure) ∧
      ∀ scan, command = .scan scan → bytesOf scan.heading <+: whole.received := by
  intro whole
  have hwhole : whole = { received := bytesOf (command.run files).output
                          notices := (command.run files).notices
                          outcome := (command.run files).outcome } :=
    Run.sendTo_endless _ _ _
  rw [hwhole]
  dsimp only
  obtain ⟨ownOutcome, ownText, hends⟩ := exists_endsIn command files
  obtain ⟨rfl, rfl⟩ := hends.sound
  refine ⟨fun outcome text => ?_, ?_, ?_⟩
  · rw [endsIn_iff, bytesOf_inj]
  · rintro request failure rfl hfailure limit sink pieces'
    rw [hfailure] at hends
    exact hends.fails.sendTo sink pieces'
  · rintro scan rfl
    obtain ⟨found, htext⟩ := hends.exists_heading
    rw [htext, bytesOf_append]
    exact List.prefix_append _ _

/-- With three faults at once, a request is refused for its field. -/
example :
    (analyse { Request.ofPath "trace.out" with field := "size", threshold := some (-1) }).EndsIn
      (fun _ => .error .noSuchFile) (.error (.notLatencyField "size")) "" :=
  .notLatencyField (by decide) (by decide)

end CommandLine.Command

end OsdLatency
