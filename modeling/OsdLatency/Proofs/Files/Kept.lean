import OsdLatency.Proofs.Files.Surface

/-!
# Stores that keep their files

The changes a run makes to a store keep everything but the content of the log file: directories and
devices stay what they are, and so do all other files. What is new stands where nothing was. So a
path that has led somewhere leads to the same place later.

## Main definitions

* `Store.Lies` — a position that a path can lead to
* `Store.place?` — the place a path leads to
* `Store.Grows` — a later store keeps everything but the content of the log file

## Main results

* `Store.Grows.place?_eq`, `Store.Grows.read_eq` — paths and files in a later store
* `Store.grows_of_makeDirectory`, `Store.grows_of_openEmpty`, `Store.grows_of_append` — the changes
-/

namespace OsdLatency.Files.Store

variable {s t u : Store} {p q p' : Position} {node : Option Node} {way : List (String × Directory)}
  {entries : Directory} {part name path : String} {parts : List String} {place : Place}
  {log : Option Place} {bytes : List UInt8} {surface : Surface}

/-- A file shows its content. -/
theorem node?_eq_file_iff :
    s.node? place = some (.file bytes) ↔ s.surface? place = some (.file bytes) := by
  rw [surface?_eq]
  cases s.node? place with
  | none => exact iff_of_false nofun nofun
  | some node => cases node <;> simp [Node.surface]

/-! ### Positions -/

/-- A position that can be reached from the root: what it holds, and the way to it. -/
inductive Lies (s : Store) : Option Node → List (String × Directory) → Prop
  | top : Lies s (some (.directory s.root)) []
  | enter {entries : Directory} {way : List (String × Directory)}
      (h : Lies s (some (.directory entries)) way) (name : String) :
      Lies s (entries.lookup name) ((name, entries) :: way)

/-- The names on a way. -/
def placeOf (way : List (String × Directory)) : Place := (way.map Prod.fst).reverse

theorem placeOf_cons (name : String) (entries : Directory) (way : List (String × Directory)) :
    placeOf ((name, entries) :: way) = placeOf way ++ [name] :=
  List.reverse_cons

/-- A position holds what its place holds. -/
theorem Lies.node_eq (h : s.Lies node way) : node = s.node? (placeOf way) := by
  induction h with
  | top => rfl
  | @enter entries way _ name ih =>
    rw [placeOf_cons, Store.node?, Directory.node?_concat, ← Store.node?, ← ih]
    rfl

theorem Lies.shows (h : s.Lies node way) :
    s.surface? (placeOf way) = node.map Node.surface := by
  rw [surface?_eq]
  exact congrArg _ h.node_eq.symm

/-- A way goes through directories. -/
theorem Lies.outer (h : s.Lies node ((name, entries) :: way)) :
    s.Lies (some (.directory entries)) way ∧ node = entries.lookup name := by
  cases h with
  | enter h => exact ⟨h, rfl⟩

theorem Lies.above (h : s.Lies (some (.directory entries)) way) :
    s.Lies (Position.above entries way).node (Position.above entries way).way := by
  cases way with
  | nil => exact h
  | cons step way => exact h.outer.1

theorem placeOf_above (entries : Directory) (way : List (String × Directory)) :
    placeOf (Position.above entries way).way = (placeOf way).dropLast := by
  cases way with
  | nil => rfl
  | cons step way => rw [placeOf_cons, List.dropLast_concat]; rfl

/-- One part of a path, followed in a directory. -/
theorem follow_cons (hnode : p.node = some (.directory entries)) (part : String)
    (parts : List String) : follow p (part :: parts) =
      if part = "" ∨ part = "." then follow p parts
      else if part = ".." then follow (Position.above entries p.way) parts
      else if nameLimit < part.utf8ByteSize then .error .nameTooLong
      else follow { node := entries.lookup part, way := (part, entries) :: p.way } parts := by
  rw [follow, hnode]

/-- What is followed on is a directory. -/
theorem exists_directory_of_follow (h : follow p (part :: parts) = .ok q) :
    ∃ entries, p.node = some (.directory entries) := by
  rw [follow] at h
  split at h
  · exact absurd h nofun
  · exact ⟨_, by assumption⟩
  · exact absurd h nofun

theorem Lies.follow (hp : s.Lies p.node p.way) (h : follow p parts = .ok q) :
    s.Lies q.node q.way := by
  induction parts generalizing p with
  | nil => exact Except.ok.inj h ▸ hp
  | cons part parts ih =>
    obtain ⟨entries, hnode⟩ := exists_directory_of_follow h
    rw [follow_cons hnode] at h
    rw [hnode] at hp
    split_ifs at h
    · exact ih (hnode ▸ hp) h
    · exact ih hp.above h
    · exact ih (.enter hp part) h

/-- An idle part at the end is followed in a directory only. -/
theorem exists_directory_of_follow_concat (h : follow p (parts ++ ["."]) = .ok q) :
    ∃ entries, q.node = some (.directory entries) := by
  induction parts generalizing p with
  | nil =>
    obtain ⟨entries, hnode⟩ := exists_directory_of_follow h
    rw [List.nil_append, follow_cons hnode, if_pos (Or.inr rfl)] at h
    exact ⟨entries, Except.ok.inj h ▸ hnode⟩
  | cons part parts ih =>
    obtain ⟨entries, hnode⟩ := exists_directory_of_follow h
    rw [List.cons_append, follow_cons hnode] at h
    split_ifs at h
    all_goals exact ih h

/-- A path is followed from the root. -/
theorem exists_follow_of_walk (h : s.walk path parts = .ok q) :
    ∃ front, follow s.top (front ++ parts) = .ok q := by
  rw [walk] at h
  split_ifs at h
  · exact ⟨[], h⟩
  · exact ⟨s.workingDirectory, h⟩

theorem lies_of_walk (h : s.walk path parts = .ok q) : s.Lies q.node q.way := by
  obtain ⟨front, hfollow⟩ := exists_follow_of_walk h
  have htop : s.Lies s.top.node s.top.way := .top
  exact htop.follow hfollow

/-! ### Paths -/

/-- The place a path leads to. -/
def place? (s : Store) (path : String) : Option Place :=
  (s.locate path).toOption.map Position.place

theorem place?_eq_some_iff :
    s.place? path = some place ↔ ∃ q, s.locate path = .ok q ∧ placeOf q.way = place := by
  rw [place?, Option.map_eq_some_iff]
  cases s.locate path with
  | error fault => simp [Except.toOption]
  | ok q => simp [Except.toOption, Position.place, placeOf]

theorem place?_of_locate (h : s.locate path = .ok q) : s.place? path = some q.place :=
  place?_eq_some_iff.mpr ⟨q, h, rfl⟩

/-- A position shows what can be read from it. -/
theorem read_of_locate (h : s.locate path = .ok q) :
    s.read path = .ok bytes ↔ ∃ surface, s.surface? q.place = some surface ∧
      surface.content? = some bytes := by
  have hsurface : s.surface? q.place = q.node.map Node.surface := (lies_of_walk h).shows
  rw [read, h, hsurface]
  obtain ⟨node, way⟩ := q
  cases node with
  | none => simp
  | some node => cases node <;> simp [Node.surface, Surface.content?]

/-- A file is read from the place its path leads to. -/
theorem read_eq_ok_iff : s.read path = .ok bytes ↔
    ∃ place surface, s.place? path = some place ∧ s.surface? place = some surface ∧
      surface.content? = some bytes := by
  constructor
  · intro h
    cases hlocate : s.locate path with
    | error fault =>
      rw [read, hlocate] at h
      exact absurd h nofun
    | ok q =>
      obtain ⟨surface, hsurface, hcontent⟩ := (read_of_locate hlocate).mp h
      exact ⟨_, surface, place?_of_locate hlocate, hsurface, hcontent⟩
  · rintro ⟨place, surface, hplace, hsurface, hcontent⟩
    obtain ⟨q, hlocate, rfl⟩ := place?_eq_some_iff.mp hplace
    exact (read_of_locate hlocate).mpr ⟨surface, hsurface, hcontent⟩

/-! ### Later stores -/

/-- A later store keeps everything but the content of the log file. -/
structure Grows (log : Option Place) (s t : Store) : Prop where
  workingDirectory : t.workingDirectory = s.workingDirectory
  kept : ∀ {place : Place} {surface : Surface}, s.surface? place = some surface →
    (surface.isFile = true → log ≠ some place) → t.surface? place = some surface

namespace Grows

theorem refl (log : Option Place) (s : Store) : Grows log s s := ⟨rfl, fun h _ => h⟩

theorem trans (h : Grows log s t) (h' : Grows log t u) : Grows log s u where
  workingDirectory := h'.workingDirectory.trans h.workingDirectory
  kept hsurface hfile := h'.kept (h.kept hsurface hfile) hfile

/-- Keeping all files is keeping all but the log file. -/
theorem of_none (h : Grows none s t) (log : Option Place) : Grows log s t where
  workingDirectory := h.workingDirectory
  kept hsurface _ := h.kept hsurface fun _ => nofun

theorem directory (h : Grows log s t) (hsurface : s.surface? place = some .directory) :
    t.surface? place = some .directory :=
  h.kept hsurface nofun

/-- A path that can be followed is followed to the same place later. -/
theorem follow (h : Grows log s t) (hp : s.Lies p.node p.way) (hp' : t.Lies p'.node p'.way)
    (hplace : placeOf p'.way = placeOf p.way) (hfollow : follow p parts = .ok q) :
    ∃ q', Store.follow p' parts = .ok q' ∧ placeOf q'.way = placeOf q.way := by
  induction parts generalizing p p' with
  | nil =>
    obtain rfl := Except.ok.inj hfollow
    exact ⟨p', rfl, hplace⟩
  | cons part parts ih =>
    obtain ⟨entries, hnode⟩ := exists_directory_of_follow hfollow
    have hsurface : s.surface? (placeOf p.way) = some .directory := by
      rw [hp.shows, hnode]
      rfl
    have hlater := h.directory hsurface
    rw [← hplace, hp'.shows] at hlater
    obtain ⟨entries', hnode'⟩ := Directory.exists_directory_of_surface? hlater
    rw [follow_cons hnode] at hfollow
    rw [follow_cons hnode']
    split_ifs at hfollow ⊢
    · exact ih hp hp' hplace hfollow
    · rw [hnode] at hp
      rw [hnode'] at hp'
      exact ih hp.above hp'.above (by rw [placeOf_above, placeOf_above, hplace]) hfollow
    · rw [hnode] at hp
      rw [hnode'] at hp'
      exact ih (.enter hp part) (.enter hp' part) (by rw [placeOf_cons, placeOf_cons, hplace])
        hfollow

/-- A path that leads somewhere leads to the same place later. -/
theorem place?_eq (h : Grows log s t) (hplace : s.place? path = some place) :
    t.place? path = some place := by
  obtain ⟨q, hlocate, rfl⟩ := place?_eq_some_iff.mp hplace
  have htop : s.Lies s.top.node s.top.way := .top
  have htop' : t.Lies t.top.node t.top.way := .top
  rw [locate, walk] at hlocate
  rw [place?_eq_some_iff, locate, walk, h.workingDirectory]
  split_ifs at hlocate ⊢
  all_goals exact h.follow htop htop' rfl hlocate

/-- A file keeps its content, if it is not the log file. -/
theorem file_eq (h : Grows log s t) (hnode : s.node? place = some (.file bytes))
    (hlog : log ≠ some place) : t.node? place = some (.file bytes) :=
  node?_eq_file_iff.mpr (h.kept (node?_eq_file_iff.mp hnode) fun _ => hlog)

/-- A file that can be read has the same content later, if it is not the log file. -/
theorem read_eq (h : Grows log s t) (hread : s.read path = .ok bytes)
    (hlog : log ≠ t.place? path) : t.read path = .ok bytes := by
  obtain ⟨place, surface, hplace, hsurface, hcontent⟩ := read_eq_ok_iff.mp hread
  have hlater := h.place?_eq hplace
  rw [hlater] at hlog
  exact read_eq_ok_iff.mpr ⟨place, surface, hlater, h.kept hsurface fun _ => hlog, hcontent⟩

end Grows

/-! ### Changes -/

/-- A node that holds no entries is put into a directory, where nothing stands or the log file. -/
theorem grows_put {dir : Place} {held : Node} (hnode : Directory.entriesOf (some held) = [])
    (hdir : s.surface? dir = some .directory)
    (hheld : ∀ surface, s.surface? (dir ++ [name]) = some surface →
      surface.isFile = true ∧ log = some (dir ++ [name])) :
    Grows log s (s.put (dir ++ [name]) held) where
  workingDirectory := rfl
  kept := by
    intro place surface hsurface hkept
    by_cases hplace : place = dir ++ [name]
    · subst hplace
      obtain ⟨hfile, hlog⟩ := hheld surface hsurface
      exact absurd hlog (hkept hfile)
    · have hother : s.surface? (dir ++ [name]) ≠ some .directory := fun h =>
        Bool.false_ne_true (hheld _ h).1
      exact (Directory.surface?_put hnode hdir hother hplace).trans hsurface

/-- What is no directory stands in one. -/
theorem Lies.exists_above (h : s.Lies node way)
    (hnode : node.map Node.surface ≠ some .directory) :
    ∃ dir name, placeOf way = dir ++ [name] ∧ s.surface? dir = some .directory := by
  cases h with
  | top => exact absurd rfl hnode
  | enter h name => exact ⟨_, name, placeOf_cons _ _ _, h.shows⟩

theorem exists_above_of_surface? (h : s.surface? place = some surface)
    (hother : surface ≠ .directory) :
    ∃ dir name, place = dir ++ [name] ∧ s.surface? dir = some .directory := by
  rcases List.eq_nil_or_concat place with rfl | ⟨dir, name, rfl⟩
  · exact absurd (Option.some.inj h).symm hother
  · rw [List.concat_eq_append] at h ⊢
    refine ⟨dir, name, rfl, ?_⟩
    by_contra hdir
    rw [surface?, Directory.surface?, Directory.node?_concat,
      Directory.entriesOf_of_surface? hdir] at h
    exact absurd h.symm (Option.some_ne_none surface)

theorem grows_of_makeDirectory (h : s.makeDirectory path = .ok t) : Grows none s t := by
  cases hlocate : s.locateAbove path with
  | error fault =>
    rw [makeDirectory, hlocate] at h
    exact absurd h nofun
  | ok q =>
    have hdir : s.surface? q.place = some .directory := by
      obtain ⟨front, hfollow⟩ := exists_follow_of_walk hlocate
      rw [← List.append_assoc] at hfollow
      obtain ⟨entries, hnode⟩ := exists_directory_of_follow_concat hfollow
      have hshows := (lies_of_walk hlocate).shows
      rwa [hnode] at hshows
    cases hname : Path.name? path with
    | none =>
      simp only [makeDirectory, hlocate, hname] at h
      exact absurd h nofun
    | some name =>
      cases hheld : s.node? (q.place ++ [name]) with
      | some node =>
        simp only [makeDirectory, hlocate, hname, hheld] at h
        split_ifs at h
      | none =>
        simp only [makeDirectory, hlocate, hname, hheld] at h
        split_ifs at h
        obtain rfl := Except.ok.inj h
        refine grows_put rfl hdir fun surface hsurface => ?_
        rw [surface?_eq, hheld] at hsurface
        exact absurd hsurface nofun

/-- A file is made empty where there is a file or nothing. -/
theorem grows_put_empty (h : s.locate path = .ok q)
    (hnode : ∀ surface, q.node.map Node.surface = some surface → surface.isFile = true) :
    Grows (some q.place) s (s.put q.place (.file [])) := by
  have hlies := lies_of_walk h
  have hother : q.node.map Node.surface ≠ some .directory := fun hdir =>
    Bool.false_ne_true (hnode _ hdir)
  obtain ⟨dir, name, hplace, hdir⟩ := hlies.exists_above hother
  have hshows : s.surface? (dir ++ [name]) = q.node.map Node.surface := hplace ▸ hlies.shows
  change Grows (some (placeOf q.way)) s (s.put (placeOf q.way) (.file []))
  rw [hplace]
  exact grows_put rfl hdir fun surface hsurface => ⟨hnode surface (hshows ▸ hsurface), rfl⟩

/-- The file that is opened stands at the place its path leads to. -/
theorem grows_of_openEmpty (h : s.openEmpty path = .ok (t, place)) :
    Grows (some place) s t ∧ s.place? path = some place := by
  rw [openEmpty] at h
  split_ifs at h
  · cases hlocate : s.locateAbove path <;> rw [hlocate] at h <;> exact absurd h nofun
  · cases hlocate : s.locate path with
    | error fault =>
      rw [hlocate] at h
      exact absurd h nofun
    | ok q =>
      have hplace := place?_of_locate hlocate
      have hopened := grows_put_empty hlocate
      simp only [hlocate] at h
      obtain ⟨node, way⟩ := q
      cases node with
      | none =>
        obtain ⟨rfl, rfl⟩ := Prod.mk.inj (Except.ok.inj h)
        exact ⟨hopened nofun, hplace⟩
      | some node =>
        cases node with
        | directory entries => exact absurd h nofun
        | sink =>
          obtain ⟨rfl, rfl⟩ := Prod.mk.inj (Except.ok.inj h)
          exact ⟨.refl _ _, hplace⟩
        | full =>
          obtain ⟨rfl, rfl⟩ := Prod.mk.inj (Except.ok.inj h)
          exact ⟨.refl _ _, hplace⟩
        | file content =>
          obtain ⟨rfl, rfl⟩ := Prod.mk.inj (Except.ok.inj h)
          refine ⟨hopened fun surface hsurface => ?_, hplace⟩
          rw [← Option.some.inj hsurface]
          rfl

theorem grows_of_append (h : s.append place bytes = .ok t) : Grows (some place) s t := by
  rw [append] at h
  split at h
  · rename_i content hheld
    obtain rfl := Except.ok.inj h
    have hsurface : s.surface? place = some (.file content) := by
      rw [surface?_eq, hheld]
      rfl
    obtain ⟨dir, name, rfl, hdir⟩ := exists_above_of_surface? hsurface nofun
    refine grows_put rfl hdir fun surface hheld' => ⟨?_, rfl⟩
    rw [Option.some.inj (hheld'.symm.trans hsurface)]
    rfl
  · split_ifs at h
    obtain rfl := Except.ok.inj h
    exact .refl _ _
  · obtain rfl := Except.ok.inj h
    exact .refl _ _

end OsdLatency.Files.Store
