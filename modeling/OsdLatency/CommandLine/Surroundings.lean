import OsdLatency.Files.Store
import OsdLatency.Run.Delivery

/-!
# The surroundings of a session

The operations on files that a session needs, and what follows from them alone. The same session
runs on a store of files and on the files of the operating system.

## Main definitions

* `Surroundings` — the operations
* `Surroundings.makeDirectories` — make a directory and all those above it
* `Surroundings.ofStore` — the operations on a store of files
-/

namespace OsdLatency.CommandLine

open Files

/-- What a session can do with files, and the time it has taken. `η` is an open log file. -/
structure Surroundings (m : Type → Type) (η : Type) where
  holds : String → m Bool
  isDirectory : String → m Bool
  /-- Make a directory in a directory that is there. -/
  makeDirectory : String → m (Except Fault Unit)
  openEmpty : String → m (Except Fault η)
  append : η → String → m (Except Fault Unit)
  read : String → m (Except Fault (List UInt8))
  /-- The time since the start in milliseconds. -/
  elapsed : m String

/-- A change of a store that may be refused, and then changes nothing. -/
def changing (change : Store → Except Fault (Store × α)) :
    StateM Store (Except Fault α) := fun store =>
  match change store with
  | .ok (store, value) => (.ok value, store)
  | .error fault => (.error fault, store)

namespace Surroundings

/-- The surroundings of a session on a store. -/
def ofStore (elapsed : String) : Surroundings (StateM Store) Place where
  holds path := return (← get).holds path
  isDirectory path := return (← get).isDirectory path
  makeDirectory path := changing fun store => (store.makeDirectory path).map (·, ())
  openEmpty path := changing (·.openEmpty path)
  append place text := changing fun store => (store.append place (bytesOf text)).map (·, ())
  read path := return (← get).read path
  elapsed := return elapsed

variable {m : Type → Type} [Monad m] {η : Type}

/-- Make a directory. A refusal does not count if the directory is there. -/
def ensureDirectory (around : Surroundings m η) (path : String) : m (Except Fault Unit) := do
  match ← around.makeDirectory path with
  | .ok _ => return .ok ()
  | .error fault => return if ← around.isDirectory path then .ok () else .error fault

/-- Make a directory where the directories above it, the nearest first, may be missing as well. What
has been made stays if a later one is refused. -/
def ensureDirectories (around : Surroundings m η) : List String → m (Except Fault Unit)
  | [] => return .ok ()
  | path :: above => do
    match ← around.ensureDirectory path with
    -- A directory above is missing: it is made first.
    | .error .noSuchFile =>
      match ← around.ensureDirectories above with
      | .error fault => return .error fault
      | .ok _ => around.ensureDirectory path
    | ensured => return ensured

/-- Make a directory and all directories above it. -/
def makeDirectories (around : Surroundings m η) (path : String) : m (Except Fault Unit) :=
  around.ensureDirectories (Path.ancestors path)

end Surroundings

end OsdLatency.CommandLine
