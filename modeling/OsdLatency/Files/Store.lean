import OsdLatency.Files.Fault
import OsdLatency.Files.Node
import OsdLatency.Files.Path

/-!
# A store of files

The files a run can see: regular files, directories and the two devices that only take output. A
path is followed part by part from the root or from the working directory, as the operating system
does, and is refused with the operating system's answer.

Links are left out, symbolic and hard ones alike: an entry of a directory is the node itself, so no
path is led off on its way and no file lies in two places. A log file that leads to the trace by a
link would empty it just as the path of the trace does. Permissions are left out too: every file may
be read and written, and every directory changed.

## Main definitions

* `Store` — the tree of nodes, and where relative paths start
* `Store.follow`, `Store.locate` — the position a path leads to
* `Store.read` — the content of a file
* `Store.makeDirectory`, `Store.openEmpty`, `Store.append` — the changes a run may make
-/

namespace OsdLatency.Files

/-- The entries of the root, and the working directory, where relative paths start. -/
structure Store where
  root : Directory
  workingDirectory : Place

namespace Store

/-- The number of bytes that the name of a node may have. -/
def nameLimit : Nat := 255

/-- The number of bytes that a path may have. -/
def pathLimit : Nat := 4095

/-- A place that a path has led to. -/
structure Position where
  /-- What the place holds. -/
  node : Option Node
  /-- The names and entries of the directories it lies in, the nearest first: each name is that of
  the entry through which the way goes on. -/
  way : List (String × Directory)

/-- The names on the way to a position. -/
def Position.place (position : Position) : Place := (position.way.map (·.1)).reverse

/-- The position of the root. -/
def top (store : Store) : Position := { node := some (.directory store.root), way := [] }

/-- The position of the directory above one with some entries. The root lies in itself. -/
def Position.above (entries : Directory) : List (String × Directory) → Position
  | [] => { node := some (.directory entries), way := [] }
  | (_, outer) :: way => { node := some (.directory outer), way }

/-- Follow the parts of a path. Every place that is left must be a directory; the place reached need
not hold anything. -/
def follow (position : Position) : List String → Except Fault Position
  | [] => .ok position
  | part :: parts =>
    match position.node with
    | none => .error .noSuchFile
    | some (.directory entries) =>
      -- Only now is the part looked at: it has a meaning in a directory alone.
      if part = "" ∨ part = "." then follow position parts
      else if part = ".." then follow (Position.above entries position.way) parts
      else if nameLimit < part.utf8ByteSize then .error .nameTooLong
      else
        follow { node := entries.lookup part, way := (part, entries) :: position.way } parts
    | some _ => .error .notADirectory

/-- Follow some parts of a path from where it starts, unless the path is refused for its form. The
empty path leads nowhere. -/
def walk (store : Store) (path : String) (parts : List String) : Except Fault Position :=
  if path.toList.contains (Char.ofNat 0) then .error .nullCharacter
  else if path.isEmpty then .error .noSuchFile
  else if pathLimit < path.utf8ByteSize then .error .nameTooLong
  else if Path.isAbsolute path then follow store.top parts
  else follow store.top (store.workingDirectory ++ parts)

/-- The position a path leads to. -/
def locate (store : Store) (path : String) : Except Fault Position :=
  store.walk path (Path.parts path)

/-- The position of the directory that the last part of a path lies in. -/
def locateAbove (store : Store) (path : String) : Except Fault Position :=
  -- The idle part at the end is followed in a directory only.
  store.walk path (Path.partsAbove path ++ ["."])

/-- Whether a path leads to a node. -/
def holds (store : Store) (path : String) : Bool :=
  match store.locate path with
  | .ok position => position.node.isSome
  | .error _ => false

/-- Whether a path leads to a directory. -/
def isDirectory (store : Store) (path : String) : Bool :=
  match store.locate path with
  | .ok { node := some (.directory _), .. } => true
  | _ => false

/-- The content of a file. The devices have none. -/
def read (store : Store) (path : String) : Except Fault (List UInt8) :=
  match store.locate path with
  | .error fault => .error fault
  | .ok position =>
    match position.node with
    | none => .error .noSuchFile
    | some (.directory _) => .error .isADirectory
    | some (.file content) => .ok content
    | some .sink => .ok []
    | some .full => .ok []

/-- What a place holds, if anything. -/
def node? (store : Store) (place : Place) : Option Node := store.root.node? place

/-- Hold a node at a place. -/
def put (store : Store) (place : Place) (node : Node) : Store :=
  { store with root := store.root.put node place }

/-- Make a directory in a directory that is there. What is there already, of whatever kind, and a
path that ends in no name are refused. -/
def makeDirectory (store : Store) (path : String) : Except Fault Store :=
  match store.locateAbove path with
  | .error fault => .error fault
  | .ok above =>
    match Path.name? path with
    | none => .error .fileExists
    | some name =>
      if nameLimit < name.utf8ByteSize then .error .nameTooLong
      else
        match store.node? (above.place ++ [name]) with
        | some _ => .error .fileExists
        | none => .ok (store.put (above.place ++ [name]) (.directory []))

/-- Open a file for writing: a file that is there loses its content, one that is not is made. A path
that ends in a slash cannot name a file. Gives the place of the file. -/
def openEmpty (store : Store) (path : String) : Except Fault (Store × Place) :=
  if Path.endsInSlash path then
    -- The way to the last part is looked at before the slash behind it, and the last part never.
    match store.locateAbove path with
    | .error fault => .error fault
    | .ok _ => .error .isADirectory
  else
    match store.locate path with
    | .error fault => .error fault
    | .ok position =>
      match position.node with
      | some (.directory _) => .error .isADirectory
      | some .sink => .ok (store, position.place)
      | some .full => .ok (store, position.place)
      | some (.file _) => .ok (store.put position.place (.file []), position.place)
      | none => .ok (store.put position.place (.file []), position.place)

/-- Write behind the content of a file that has been opened. A sink takes everything, and a full
device takes nothing. -/
def append (store : Store) (place : Place) (bytes : List UInt8) : Except Fault Store :=
  match store.node? place with
  | some (.file content) => .ok (store.put place (.file (content ++ bytes)))
  | some .full => if bytes.isEmpty then .ok store else .error .noSpace
  | _ => .ok store

end Store

end OsdLatency.Files
