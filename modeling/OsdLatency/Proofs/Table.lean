import OsdLatency.Table

/-!
# Entries of a table

The keys of a table are distinct, so an entry is found under its key. Entries with distinct keys
stay as they are, so a table is filled from its own entries.

## Main results

* `Table.mem_toList_iff` — the entries are what is found under the keys
* `Table.toList_eq_map` — the entries, each as its key with what is found under it
* `Table.toList_insertAll` — entries with new keys are added behind the others
* `Table.ofList_toList` — a table is filled from its entries
* `Table.mem_keys_ofList` — a filled table has the keys of the entries
-/

namespace OsdLatency.Table

variable {κ : Type u} {ν : Type v}

theorem eq_of_toList_eq {t t' : Table κ ν} (h : t.toList = t'.toList) : t = t' := by
  cases t
  cases t'
  cases h
  rfl

variable [DecidableEq κ]

theorem find_eq_some_iff {key : κ} {value : ν} {entries : List (κ × ν)}
    (h : (entries.map Prod.fst).Nodup) :
    find key entries = some value ↔ (key, value) ∈ entries := by
  induction entries with
  | nil => exact iff_of_false nofun List.not_mem_nil
  | cons entry entries ih =>
    obtain ⟨k, v⟩ := entry
    rw [List.map_cons, List.nodup_cons] at h
    rw [find, List.mem_cons, Prod.mk.injEq]
    by_cases hk : k = key
    · -- The key does not come again behind its entry.
      have hothers : (key, value) ∉ entries := fun hmem =>
        h.1 (List.mem_map.mpr ⟨_, hmem, hk.symm⟩)
      rw [if_pos hk, or_iff_left hothers, and_iff_right hk.symm, Option.some_inj, eq_comm]
    · rw [if_neg hk, or_iff_right fun heq => hk heq.1.symm]
      exact ih h.2

/-- Entries with distinct keys are given by their keys and what is found under them. -/
theorem eq_map_find {entries : List (κ × ν)} (h : (entries.map Prod.fst).Nodup) (start : ν) :
    entries = (entries.map Prod.fst).map fun key => (key, (find key entries).getD start) := by
  have hentry : ∀ entry ∈ entries, (entry.1, (find entry.1 entries).getD start) = entry :=
    fun entry hentry => by rw [(find_eq_some_iff h).mpr hentry, Option.getD_some]
  rw [List.map_map]
  exact ((List.map_congr_left hentry).trans (List.map_id' entries)).symm

/-- The entries, each as its key with what is found under it. -/
theorem toList_eq_map (t : Table κ ν) (start : ν) :
    t.toList = t.keys.map fun key => (key, t.getD key start) :=
  eq_map_find t.nodup start

/-- The entries are what is found under the keys. -/
theorem mem_toList_iff (t : Table κ ν) {key : κ} {value : ν} :
    (key, value) ∈ t.toList ↔ t.get? key = some value :=
  (find_eq_some_iff t.nodup).symm

theorem place_of_not_mem {key : κ} {value : ν} {entries : List (κ × ν)}
    (h : key ∉ entries.map Prod.fst) : place key value entries = entries ++ [(key, value)] := by
  induction entries with
  | nil => rfl
  | cons entry entries ih =>
    obtain ⟨k, v⟩ := entry
    obtain ⟨hk, hentries⟩ : key ≠ k ∧ key ∉ entries.map Prod.fst := by simpa using h
    simp [place, hk.symm, ih hentries]

/-- Entries with new keys are added behind the others. -/
theorem toList_insertAll (t : Table κ ν) (entries : List (κ × ν))
    (h : ((t.toList ++ entries).map Prod.fst).Nodup) :
    (t.insertAll entries).toList = t.toList ++ entries := by
  induction entries generalizing t with
  | nil => simp [insertAll]
  | cons entry entries ih =>
    obtain ⟨key, value⟩ := entry
    have hkey : key ∉ t.toList.map Prod.fst := by
      rw [List.map_append, List.nodup_append] at h
      exact fun hmem => h.2.2 key hmem key (by simp) rfl
    -- A key that is not there yet is put at the end, so the others are still new behind it.
    have hinsert : (t.insert key value).toList = t.toList ++ [(key, value)] :=
      place_of_not_mem hkey
    have hothers := ih (t.insert key value) (by rw [hinsert]; simpa using h)
    rw [insertAll, List.foldl_cons]
    exact hothers.trans (by rw [hinsert]; simp)

/-- A table is filled from its entries. -/
theorem ofList_toList (t : Table κ ν) : ofList t.toList = t :=
  eq_of_toList_eq (toList_insertAll empty t.toList t.nodup)

theorem mem_keys_insertAll (t : Table κ ν) (entries : List (κ × ν)) {key : κ} :
    key ∈ (t.insertAll entries).keys ↔ key ∈ t.keys ∨ key ∈ entries.map Prod.fst := by
  induction entries generalizing t with
  | nil => simp [insertAll]
  | cons entry entries ih =>
    have hinsert : key ∈ (t.insert entry.1 entry.2).keys ↔ key ∈ t.keys ∨ key = entry.1 := by
      rw [keys_insert]
      split
      · rename_i hkey
        exact (or_iff_left_of_imp fun h => h ▸ hkey).symm
      · simp
    rw [insertAll, List.foldl_cons, List.map_cons, List.mem_cons, ← or_assoc, ← hinsert]
    exact ih _

/-- A filled table has the keys of the entries. -/
theorem mem_keys_ofList (entries : List (κ × ν)) {key : κ} :
    key ∈ (ofList entries).keys ↔ key ∈ entries.map Prod.fst :=
  (mem_keys_insertAll empty entries).trans (or_iff_right List.not_mem_nil)

end OsdLatency.Table
