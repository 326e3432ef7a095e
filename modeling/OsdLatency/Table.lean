/-!
# Tables in order of arrival

A table holds one value per key. A key keeps the place where it first came in, and a value that
comes in later under the same key takes the place of the one before.

## Main definitions

* `Table` — entries with distinct keys
* `Table.get?`, `Table.insert`, `Table.ofList` — reading and filling
* `Table.modify` — changing the value of a key
* `Table.toList`, `Table.keys` — the entries and keys in order of arrival

## Main results

* `Table.get?_insert` — the value read under a key after an insertion
* `Table.keys_insert` — an insertion adds its key at the end unless it is there
-/

namespace OsdLatency

variable {κ : Type u} {ν : Type v}

/-- Entries in order of arrival, no key twice. -/
structure Table (κ : Type u) (ν : Type v) where
  toList : List (κ × ν)
  nodup : (toList.map Prod.fst).Nodup
deriving DecidableEq

namespace Table

/-- The keys in order of arrival. -/
def keys (t : Table κ ν) : List κ := t.toList.map Prod.fst

/-- The number of keys. -/
def size (t : Table κ ν) : Nat := t.toList.length

/-- The table without entries. -/
def empty : Table κ ν := ⟨[], List.nodup_nil⟩

instance : Inhabited (Table κ ν) := ⟨empty⟩

instance : EmptyCollection (Table κ ν) := ⟨empty⟩

variable [DecidableEq κ]

/-- The value of the first entry with the key. -/
def find (key : κ) : List (κ × ν) → Option ν
  | [] => none
  | (k, v) :: entries => if k = key then some v else find key entries

/-- Put a value at the entry of its key, or behind all entries. -/
def place (key : κ) (value : ν) : List (κ × ν) → List (κ × ν)
  | [] => [(key, value)]
  | (k, v) :: entries =>
    if k = key then (key, value) :: entries else (k, v) :: place key value entries

theorem map_fst_place (key : κ) (value : ν) (entries : List (κ × ν)) :
    (place key value entries).map Prod.fst =
      if key ∈ entries.map Prod.fst then entries.map Prod.fst
      else entries.map Prod.fst ++ [key] := by
  induction entries with
  | nil => simp [place]
  | cons entry entries ih =>
    obtain ⟨k, v⟩ := entry
    by_cases hk : k = key
    · subst hk
      simp [place]
    · simp only [place, hk, if_false, List.map_cons, ih, List.mem_cons, Ne.symm hk, false_or]
      split <;> simp

theorem find_place (key other : κ) (value : ν) (entries : List (κ × ν)) :
    find other (place key value entries) =
      if key = other then some value else find other entries := by
  induction entries with
  | nil => simp [place, find]
  | cons entry entries ih =>
    obtain ⟨k, v⟩ := entry
    by_cases hk : k = key
    · subst hk
      simp only [place, if_true, find]
      split <;> rfl
    · simp only [place, hk, if_false, find, ih]
      by_cases hko : k = other
      · subst hko
        simp [Ne.symm hk]
      · simp [hko]

/-- The value under a key. -/
def get? (t : Table κ ν) (key : κ) : Option ν := find key t.toList

/-- Set the value of a key. -/
def insert (t : Table κ ν) (key : κ) (value : ν) : Table κ ν where
  toList := place key value t.toList
  nodup := by
    rw [map_fst_place]
    split
    · exact t.nodup
    · rename_i h
      refine List.nodup_append.mpr ⟨t.nodup, by simp, ?_⟩
      intro a ha b hb hab
      exact h (by rw [← List.mem_singleton.mp hb, ← hab]; exact ha)

/-- The value under a key, or `start` if there is none. -/
def getD (t : Table κ ν) (key : κ) (start : ν) : ν := (t.get? key).getD start

/-- Change the value under a key. A key that is new starts from `start`. -/
def modify (t : Table κ ν) (key : κ) (start : ν) (change : ν → ν) : Table κ ν :=
  t.insert key (change (t.getD key start))

/-- Insert all entries from left to right. -/
def insertAll (t : Table κ ν) (entries : List (κ × ν)) : Table κ ν :=
  entries.foldl (fun t entry => t.insert entry.1 entry.2) t

/-- The table of a list of entries, inserted one after another. -/
def ofList (entries : List (κ × ν)) : Table κ ν := empty.insertAll entries

@[simp] theorem get?_empty (key : κ) : (empty : Table κ ν).get? key = none := rfl

@[simp] theorem getD_empty (key : κ) (start : ν) : (empty : Table κ ν).getD key start = start := rfl

theorem get?_insert (t : Table κ ν) (key other : κ) (value : ν) :
    (t.insert key value).get? other = if key = other then some value else t.get? other :=
  find_place key other value t.toList

theorem keys_insert (t : Table κ ν) (key : κ) (value : ν) :
    (t.insert key value).keys = if key ∈ t.keys then t.keys else t.keys ++ [key] :=
  map_fst_place key value t.toList

theorem getD_modify (t : Table κ ν) (key other : κ) (start : ν) (change : ν → ν) :
    (t.modify key start change).getD other start =
      if key = other then change (t.getD other start) else t.getD other start := by
  rw [modify, getD, get?_insert]
  split
  next h => rw [h]; rfl
  next => rfl

theorem keys_modify (t : Table κ ν) (key : κ) (start : ν) (change : ν → ν) :
    (t.modify key start change).keys = if key ∈ t.keys then t.keys else t.keys ++ [key] :=
  keys_insert t key _

end Table

end OsdLatency
