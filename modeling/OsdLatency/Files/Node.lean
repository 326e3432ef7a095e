/-!
# Nodes of a file tree

A node is a file, a device or a directory, and a directory holds nodes under names. The names on
the way to a node are its place.

## Main definitions

* `Node`, `Directory` — the tree
* `Directory.set` — the directory with another entry
* `Directory.node?`, `Directory.put` — look up and change what a place holds
-/

namespace OsdLatency.Files

/-- What a place may hold. -/
inductive Node
  | file (content : List UInt8)
  /-- A directory, whose entries differ in their names. -/
  | directory (entries : List (String × Node))
  /-- A device that takes all output and keeps none. -/
  | sink
  /-- A device that has no room for any output. -/
  | full

/-- The entries of a directory. -/
abbrev Directory := List (String × Node)

/-- The names on the way from the root to a node. -/
abbrev Place := List String

namespace Directory

/-- Hold a node under a name, in the place of the one that has been held there. -/
def set (name : String) (node : Node) : Directory → Directory
  | [] => [(name, node)]
  | (other, held) :: others =>
    if other = name then (name, node) :: others else (other, held) :: set name node others

/-- What a place under a directory holds, if anything. -/
def node? (entries : Directory) : Place → Option Node
  | [] => some (.directory entries)
  | name :: names =>
    match entries.lookup name with
    | some (.directory inner) => node? inner names
    | some node => if names.isEmpty then some node else none
    | none => none

/-- The entries of a node that is a directory, and none of any other. -/
def entriesOf : Option Node → Directory
  | some (.directory entries) => entries
  | _ => []

/-- Hold a node at a place under a directory. What is missing on the way becomes a directory. The
directory itself stays what it is. -/
def put (entries : Directory) (node : Node) : Place → Directory
  | [] => entries
  | [name] => entries.set name node
  | name :: names =>
    entries.set name (.directory (put (entriesOf (entries.lookup name)) node names))

@[simp] theorem lookup_set_self (entries : Directory) (name : String) (node : Node) :
    (entries.set name node).lookup name = some node := by
  induction entries with
  | nil => simp [set]
  | cons entry others ih =>
    obtain ⟨other, held⟩ := entry
    by_cases h : other = name
    · simp [set, h]
    · have h' : (name == other) = false := by simpa using Ne.symm h
      simp [set, h, List.lookup_cons, h', ih]

/-- A node that has been put at a place under a directory is found there. -/
theorem node?_put (node : Node) (name : String) (names : Place) (entries : Directory) :
    (entries.put node (name :: names)).node? (name :: names) = some node := by
  induction names generalizing name entries with
  | nil => cases node <;> simp [put, node?]
  | cons next names ih =>
    simp only [put, node?, lookup_set_self]
    exact ih next (entriesOf (entries.lookup name))

end Directory

end OsdLatency.Files
