/-!
# Path texts

A path is a text whose parts stand between slashes. An empty part and a part `.` name the place
where one already is; the part `..` names the directory above.
-/

namespace OsdLatency.Files.Path

/-- The parts of a path, with an empty one in front of the first slash of an absolute path. -/
def parts (path : String) : List String :=
  let (first, others) := path.toList.foldr (fun c (part, parts) =>
    if c = '/' then ([], part :: parts) else (c :: part, parts)) ([], [])
  (first :: others).map String.ofList

/-- Whether a path starts at the root. -/
def isAbsolute (path : String) : Bool := path.toList.head? == some '/'

/-- Whether a path ends in a slash, and so names a directory. -/
def endsInSlash (path : String) : Bool := path.toList.getLast? == some '/'

/-- The parts of a path without the slashes at its end. -/
def partsBeforeSlashes (path : String) : List String :=
  ((parts path).reverse.dropWhile (· == "")).reverse

/-- The parts of a path in front of its last one. Slashes at the end do not count. -/
def partsAbove (path : String) : List String := (partsBeforeSlashes path).dropLast

/-- The name that a path has in the directory above it, if it ends in a name. -/
def name? (path : String) : Option String :=
  (partsBeforeSlashes path).getLast?.filter fun part => part ≠ "" ∧ part ≠ "." ∧ part ≠ ".."

/-- The parts without those at the end that name no further place. The first part stays. -/
def dropIdle (reversed : List String) : List String :=
  match reversed with
  | part :: next :: others =>
    if part = "" ∨ part = "." then dropIdle (next :: others) else part :: next :: others
  | parts => parts

/-- The path of the directory that the last part of a path lies in: empty for a lone relative part,
none for the root. -/
def parent? (path : String) : Option String :=
  match dropIdle (parts path).reverse with
  | [] => none
  | [part] => if part = "" then none else some ""
  | _ :: above =>
    match (dropIdle above).reverse with
    | [""] => some "/"
    | directory => some ("/".intercalate directory)

/-- A path and the paths above it, the nearest first, in at most some steps upwards. -/
def ancestorsIn : Nat → String → List String
  | 0, _ => []
  | steps + 1, path =>
    if path.isEmpty then [] else path :: ((parent? path).map (ancestorsIn steps)).getD []

/-- A path and the paths above it, the nearest first. Each of them has fewer parts than the one
before, and the empty path is left out. -/
def ancestors (path : String) : List String := ancestorsIn (parts path).length path

end OsdLatency.Files.Path
