import Mathlib.Data.List.Basic
import Mathlib.Tactic.Common
import OsdLatency.Files.Store

/-!
# What changes in a store

A place of a store shows a file with its content, a device, or that it is a directory. A node that
is put at a place where no directory stands, into a directory, changes what that place shows and
nothing else.

## Main definitions

* `Surface`, `Directory.surface?`, `Store.surface?` — what a place shows

## Main results

* `Directory.node?_concat` — an entry is looked up in the directory it stands in
* `Directory.surface?_put` — a node that is put at a place changes no other place
-/

namespace OsdLatency.Files

/-- What a place shows without what lies below it. -/
inductive Surface
  | file (content : List UInt8)
  | directory
  | sink
  | full
deriving DecidableEq

/-- What a node shows. -/
def Node.surface : Node → Surface
  | file content => .file content
  | directory _ => .directory
  | sink => .sink
  | full => .full

namespace Surface

/-- Whether a place shows a file. -/
def isFile : Surface → Bool
  | file _ => true
  | _ => false

/-- What can be read. The devices have no content. -/
def content? : Surface → Option (List UInt8)
  | file content => some content
  | directory => none
  | sink => some []
  | full => some []

end Surface

namespace Directory

variable {entries inner : Directory} {name other : String} {names above place : Place} {node : Node}

/-- What a place under a directory shows, if anything. -/
def surface? (entries : Directory) (place : Place) : Option Surface :=
  (entries.node? place).map Node.surface

theorem lookup_set_of_ne (h : other ≠ name) (entries : Directory) (node : Node) :
    (entries.set name node).lookup other = entries.lookup other := by
  have hother : (other == name) = false := by simpa using h
  induction entries with
  | nil => simp [set, List.lookup_cons, hother]
  | cons entry others ih =>
    obtain ⟨first, held⟩ := entry
    by_cases hfirst : first = name
    · subst hfirst
      simp [set, List.lookup_cons, hother]
    · simp only [set, if_neg hfirst, List.lookup_cons, ih]

theorem node?_singleton (entries : Directory) (name : String) :
    entries.node? [name] = entries.lookup name := by
  rw [node?]
  cases entries.lookup name with
  | none => rfl
  | some node => cases node <;> rfl

theorem node?_nil_of_ne_nil (h : names ≠ []) : node? [] names = none := by
  cases names with
  | nil => exact absurd rfl h
  | cons name names => rfl

/-- Below an entry only a directory holds anything. -/
theorem node?_cons (h : names ≠ []) (entries : Directory) (name : String) :
    entries.node? (name :: names) = (entriesOf (entries.lookup name)).node? names := by
  have hempty : names.isEmpty = false := by simpa using h
  rw [node?]
  cases entries.lookup name with
  | none => exact (node?_nil_of_ne_nil h).symm
  | some node =>
    cases node with
    | directory inner => rfl
    | _ => simp [hempty, entriesOf, node?_nil_of_ne_nil h]

/-- An entry is looked up in the directory it stands in. -/
theorem node?_concat (entries : Directory) (place : Place) (name : String) :
    entries.node? (place ++ [name]) = (entriesOf (entries.node? place)).lookup name := by
  induction place generalizing entries with
  | nil => exact node?_singleton entries name
  | cons first place ih =>
    have hne : place ++ [name] ≠ [] := List.append_ne_nil_of_right_ne_nil _ (List.cons_ne_nil _ _)
    rw [List.cons_append, node?_cons hne, ih]
    by_cases hplace : place = []
    · rw [hplace, node?_singleton]
      rfl
    · rw [node?_cons hplace]

theorem exists_directory_of_surface? {node : Option Node}
    (h : node.map Node.surface = some .directory) : ∃ inner, node = some (.directory inner) := by
  cases node with
  | none => exact absurd h nofun
  | some node =>
    cases node with
    | directory inner => exact ⟨inner, rfl⟩
    | _ => exact absurd h nofun

theorem entriesOf_of_surface? {node : Option Node}
    (h : node.map Node.surface ≠ some .directory) : entriesOf node = [] := by
  cases node with
  | none => rfl
  | some node =>
    cases node with
    | directory inner => exact absurd rfl h
    | _ => rfl

/-- The first name on the way to a directory is the name of a directory. -/
theorem surface?_cons_directory (h : entries.surface? (name :: names) = some .directory) :
    (entries.lookup name).map Node.surface = some .directory ∧
      (entriesOf (entries.lookup name)).surface? names = some .directory := by
  by_cases hnames : names = []
  · subst hnames
    rw [surface?, node?_singleton] at h
    exact ⟨h, rfl⟩
  · rw [surface?, node?_cons hnames] at h
    refine ⟨?_, h⟩
    by_contra hother
    rw [entriesOf_of_surface? hother, node?_nil_of_ne_nil hnames] at h
    exact absurd h nofun

/-- A place under an entry depends on that entry alone. -/
theorem surface?_cons_congr {entries' : Directory} (h : entries'.lookup name = entries.lookup name)
    (names : Place) : entries'.surface? (name :: names) = entries.surface? (name :: names) := by
  by_cases hnames : names = []
  · rw [hnames, surface?, surface?, node?_singleton, node?_singleton, h]
  · rw [surface?, surface?, node?_cons hnames, node?_cons hnames, h]

theorem put_cons (h : names ≠ []) (entries : Directory) (node : Node) (name : String) :
    entries.put node (name :: names) =
      entries.set name (.directory ((entriesOf (entries.lookup name)).put node names)) := by
  cases names with
  | nil => exact absurd rfl h
  | cons next names => rfl

/-- A node that is put into a directory, where no other directory stands, changes no other place. -/
theorem surface?_put (hnode : entriesOf (some node) = [])
    (habove : entries.surface? above = some .directory)
    (hheld : entries.surface? (above ++ [name]) ≠ some .directory) (hne : place ≠ above ++ [name]) :
    (entries.put node (above ++ [name])).surface? place = entries.surface? place := by
  induction above generalizing entries place with
  | nil =>
    cases place with
    | nil => rfl
    | cons first place =>
      by_cases hfirst : first = name
      · subst hfirst
        have hplace : place ≠ [] := fun h => hne (by rw [h, List.nil_append])
        rw [List.nil_append, surface?, node?_singleton] at hheld
        rw [List.nil_append, put, surface?, surface?, node?_cons hplace, node?_cons hplace,
          lookup_set_self, hnode, entriesOf_of_surface? hheld]
      · exact surface?_cons_congr (lookup_set_of_ne hfirst _ _) place
  | cons outer above ih =>
    have hnames : above ++ [name] ≠ [] :=
      List.append_ne_nil_of_right_ne_nil _ (List.cons_ne_nil _ _)
    obtain ⟨houter, hinner⟩ := surface?_cons_directory habove
    rw [List.cons_append] at hheld hne ⊢
    rw [put_cons hnames]
    cases place with
    | nil => rfl
    | cons first place =>
      by_cases hfirst : first = outer
      · subst hfirst
        by_cases hplace : place = []
        · rw [hplace, surface?, surface?, node?_singleton, node?_singleton, lookup_set_self, houter]
          rfl
        · rw [surface?, node?_cons hnames] at hheld
          have hother : place ≠ above ++ [name] := fun h => hne (by rw [h])
          have hrest := ih hinner hheld hother
          rw [surface?, surface?, node?_cons hplace, node?_cons hplace, lookup_set_self]
          exact hrest
      · exact surface?_cons_congr (lookup_set_of_ne hfirst _ _) place

end Directory

namespace Store

/-- What a place of a store shows, if anything. -/
def surface? (store : Store) (place : Place) : Option Surface := store.root.surface? place

theorem surface?_eq (store : Store) (place : Place) :
    store.surface? place = (store.node? place).map Node.surface := rfl

end Store

end OsdLatency.Files
