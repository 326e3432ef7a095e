import OsdLatency.Failure

/-!
# Latency fields

The latencies of an operation that a report can be about: the six components that every trace line
has, the final latency, and the details of the store that only some lines have.

## Main definitions

* `Component`, `Substage`, `LatencyField` — the fields, with their names
* `LatencyField.ofName` — the field with a name, or why there is none
-/

namespace OsdLatency

/-- The latencies every trace line has besides the final one. -/
inductive Component
  | throttle
  | recv
  | dispatch
  | queue
  | osd
  | bluestore
deriving DecidableEq, Repr

namespace Component

/-- All components in the order of the trace line. -/
def all : List Component := [throttle, recv, dispatch, queue, osd, bluestore]

/-- The label of a component in a trace line. -/
def name : Component → String
  | throttle => "throttle_lat"
  | recv => "recv_lat"
  | dispatch => "dispatch_lat"
  | queue => "queue_lat"
  | osd => "osd_lat"
  | bluestore => "bluestore_lat"

@[simp] theorem mem_all (component : Component) : component ∈ all := by
  cases component <;> simp [all]

end Component

/-- The known details of the store. -/
inductive Substage
  | prepare
  | aioWait
  | aioSize
  | seqWait
  | kvCommit
deriving DecidableEq, Repr

namespace Substage

/-- All details in the order of the trace line. -/
def all : List Substage := [prepare, aioWait, aioSize, seqWait, kvCommit]

/-- The name of a detail in a trace line. -/
def name : Substage → String
  | prepare => "prepare"
  | aioWait => "aio_wait"
  | aioSize => "aio_size"
  | seqWait => "seq_wait"
  | kvCommit => "kv_commit"

/-- The detail with a name. -/
def ofName? (name : String) : Option Substage := all.find? (·.name == name)

/-- `aio_size` counts bytes, the other details are durations. -/
def isLatency : Substage → Bool
  | aioSize => false
  | _ => true

theorem ofName?_name (stage : Substage) : ofName? stage.name = some stage := by
  cases stage <;> rfl

end Substage

/-- A field that a report can be about. -/
inductive LatencyField
  | component (component : Component)
  | final
  | substage (stage : Substage)
deriving DecidableEq, Repr

namespace LatencyField

/-- The field of a run that names none. -/
instance : Inhabited LatencyField := ⟨final⟩

/-- The components as fields, in the order of the trace line. -/
def components : List LatencyField := Component.all.map component

/-- The fields every trace line has. -/
def everywhere : List LatencyField := Component.all.map component ++ [final]

/-- The name of a field on the command line and in the reports. -/
def name : LatencyField → String
  | component c => c.name
  | final => "lat"
  | substage stage => stage.name

/-- Whether only some trace lines have the field. -/
def isSubstage : LatencyField → Bool
  | substage _ => true
  | _ => false

/-- The field with a name. The details are looked at first, since their names need not end in
`lat`. -/
def ofName (name : String) : Except Failure LatencyField :=
  match Substage.ofName? name with
  | some stage => .ok (substage stage)
  | none =>
    if "lat".toList.isSuffixOf name.toList then
      match everywhere.find? (·.name == name) with
      | some field => .ok field
      | none => .error (.unknownLatencyField name)
    else .error (.notLatencyField name)

theorem ofName_name (field : LatencyField) : ofName field.name = .ok field := by
  cases field with
  | component c => cases c <;> rfl
  | final => rfl
  | substage stage => cases stage <;> rfl

end LatencyField

end OsdLatency
