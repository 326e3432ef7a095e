/-!
# Kinds of operations

An operation is a read or a write, of a client or of a replica, and ends in the final latency of a
client operation or of a replica's share of one.
-/

namespace OsdLatency

/-- The kind of a traced operation. -/
inductive OpKind
  | read
  | write
  | replicaRead
  | replicaWrite
deriving DecidableEq, Repr

namespace OpKind

/-- All kinds in the order of the reports. -/
def all : List OpKind := [read, write, replicaRead, replicaWrite]

/-- The name of a kind in a trace line. -/
def name : OpKind → String
  | read => "op_r"
  | write => "op_w"
  | replicaRead => "subop_r"
  | replicaWrite => "subop_w"

/-- The place of a kind in the order of the reports. -/
def index : OpKind → Nat
  | read => 0
  | write => 1
  | replicaRead => 2
  | replicaWrite => 3

/-- Whether an operation of the kind changes data. -/
def isWrite : OpKind → Bool
  | write => true
  | replicaWrite => true
  | read => false
  | replicaRead => false

/-- The kind with a name. -/
def ofName? (name : String) : Option OpKind := all.find? (·.name == name)

/-- How a name is refused that no kind has. -/
def refusal (name : String) : String := s!"Unknown op type: {name}"

@[simp] theorem mem_all (kind : OpKind) : kind ∈ all := by
  cases kind <;> simp [all]

theorem all_index (kind : OpKind) : all[kind.index]? = some kind := by
  cases kind <;> rfl

theorem index_lt (kind : OpKind) : kind.index < 4 := by
  cases kind <;> decide

theorem index_inj {kind other : OpKind} : kind.index = other.index ↔ kind = other := by
  refine ⟨fun h => ?_, congrArg index⟩
  rw [← Option.some_inj, ← all_index kind, ← all_index other, h]

theorem ofName?_name (kind : OpKind) : ofName? kind.name = some kind := by
  cases kind <;> rfl

end OpKind

/-- Which final latency a trace line ends in. -/
inductive FinalKind
  | op
  | subop
deriving DecidableEq, Repr

namespace FinalKind

/-- The label of the final latency. -/
def name : FinalKind → String
  | op => "op_lat"
  | subop => "subop_lat"

/-- The kind with a label. -/
def ofName? (name : String) : Option FinalKind := [op, subop].find? (·.name == name)

/-- How a label is refused that no kind has. -/
def refusal (name : String) : String := s!"Unknown latency type: {name}"

theorem ofName?_name (kind : FinalKind) : ofName? kind.name = some kind := by
  cases kind <;> rfl

end FinalKind

end OsdLatency
