import OsdLatency.Table

/-!
# Maps by OSD

A map holds one value per OSD, by ascending OSD whatever order the OSDs come in.

## Main definitions

* `OsdMap` — entries by ascending OSD
* `OsdMap.get?`, `OsdMap.modify` — reading and changing the value of an OSD

## Main results

* `OsdMap.get?_modify` — a change reaches the value of its OSD alone
* `OsdMap.mem_osds_modify` — a change adds its OSD unless it is there
-/

namespace OsdLatency

variable {ν : Type v}

/-- Entries by ascending OSD, no OSD twice. -/
structure OsdMap (ν : Type v) where
  toList : List (UInt32 × ν)
  ascending : (toList.map Prod.fst).Pairwise (· < ·)

namespace OsdMap

/-- The OSDs that have a value, ascending. -/
def osds (m : OsdMap ν) : List UInt32 := m.toList.map Prod.fst

/-- The map without entries. -/
def empty : OsdMap ν := ⟨[], .nil⟩

/-- The value of an OSD. -/
def get? (m : OsdMap ν) (osd : UInt32) : Option ν := Table.find osd m.toList

/-- The value of an OSD, or `start` if there is none. -/
def getD (m : OsdMap ν) (osd : UInt32) (start : ν) : ν := (m.get? osd).getD start

/-- Change the value of an OSD. An OSD that is new starts from `start`, where the OSDs stay
ascending. -/
def place (osd : UInt32) (start : ν) (change : ν → ν) : List (UInt32 × ν) → List (UInt32 × ν)
  | [] => [(osd, change start)]
  | (o, value) :: entries =>
    if osd < o then (osd, change start) :: (o, value) :: entries
    else if osd = o then (o, change value) :: entries
    else (o, value) :: place osd start change entries

theorem mem_map_fst_place {osd other : UInt32} {start : ν} {change : ν → ν}
    {entries : List (UInt32 × ν)} :
    other ∈ (place osd start change entries).map Prod.fst ↔
      other = osd ∨ other ∈ entries.map Prod.fst := by
  induction entries with
  | nil => simp [place]
  | cons entry entries ih =>
    obtain ⟨o, value⟩ := entry
    rw [place]
    split
    · simp
    · split
      next heq => simp [heq]
      next => rw [List.map_cons, List.mem_cons, ih, List.map_cons, List.mem_cons, or_left_comm]

/-- A change keeps the OSDs ascending. -/
theorem pairwise_place {osd : UInt32} {start : ν} {change : ν → ν} {entries : List (UInt32 × ν)}
    (h : (entries.map Prod.fst).Pairwise (· < ·)) :
    ((place osd start change entries).map Prod.fst).Pairwise (· < ·) := by
  induction entries with
  | nil => simp [place]
  | cons entry entries ih =>
    obtain ⟨o, value⟩ := entry
    rw [List.map_cons, List.pairwise_cons] at h
    rw [place]
    split
    next hlt =>
      rw [List.map_cons, List.map_cons, List.pairwise_cons, List.pairwise_cons]
      refine ⟨fun other hother => ?_, h⟩
      rcases List.mem_cons.mp hother with rfl | hother
      · exact hlt
      · exact UInt32.lt_trans hlt (h.1 other hother)
    next hlt =>
      split
      next => exact List.pairwise_cons.mpr h
      next hne =>
        rw [List.map_cons, List.pairwise_cons]
        -- The first OSD stays below the new one and below all that were behind it.
        refine ⟨fun other hother => ?_, ih h.2⟩
        rcases mem_map_fst_place.mp hother with rfl | hother
        · exact UInt32.lt_of_le_of_ne (UInt32.not_lt.mp hlt) (Ne.symm hne)
        · exact h.1 other hother

theorem find_eq_none_of_lt {osd : UInt32} {entries : List (UInt32 × ν)}
    (h : ∀ o ∈ entries.map Prod.fst, osd < o) : Table.find osd entries = none := by
  induction entries with
  | nil => rfl
  | cons entry entries ih =>
    obtain ⟨o, value⟩ := entry
    rw [List.map_cons, List.forall_mem_cons] at h
    rw [Table.find, if_neg (UInt32.ne_of_lt h.1).symm, ih h.2]

theorem find_place {osd other : UInt32} {start : ν} {change : ν → ν} {entries : List (UInt32 × ν)}
    (h : (entries.map Prod.fst).Pairwise (· < ·)) :
    Table.find other (place osd start change entries) =
      if osd = other then some (change ((Table.find osd entries).getD start))
      else Table.find other entries := by
  induction entries with
  | nil => rfl
  | cons entry entries ih =>
    obtain ⟨o, value⟩ := entry
    rw [List.map_cons, List.pairwise_cons] at h
    rw [place]
    split
    next hlt =>
      -- An OSD below all others has had no value.
      have hnew : Table.find osd ((o, value) :: entries) = none :=
        find_eq_none_of_lt fun other hother => by
          rcases List.mem_cons.mp hother with rfl | hother
          · exact hlt
          · exact UInt32.lt_trans hlt (h.1 other hother)
      rw [Table.find, hnew]
      rfl
    next hlt =>
      split
      next heq =>
        subst heq
        simp only [Table.find, if_true, Option.getD_some]
        split <;> rfl
      next hne =>
        rw [Table.find, Table.find, ih h.2, Table.find, if_neg (Ne.symm hne)]
        split
        next ho => rw [if_neg fun hosd => hne (hosd.trans ho.symm)]
        next => rfl

/-- Change the value of an OSD. An OSD that is new starts from `start`. -/
def modify (m : OsdMap ν) (osd : UInt32) (start : ν) (change : ν → ν) : OsdMap ν where
  toList := place osd start change m.toList
  ascending := pairwise_place m.ascending

theorem mem_osds_modify {m : OsdMap ν} {osd other : UInt32} {start : ν} {change : ν → ν} :
    other ∈ (m.modify osd start change).osds ↔ other = osd ∨ other ∈ m.osds :=
  mem_map_fst_place

theorem get?_modify (m : OsdMap ν) (osd other : UInt32) (start : ν) (change : ν → ν) :
    (m.modify osd start change).get? other =
      if osd = other then some (change (m.getD osd start)) else m.get? other :=
  find_place m.ascending

theorem getD_modify (m : OsdMap ν) (osd other : UInt32) (start : ν) (change : ν → ν) :
    (m.modify osd start change).getD other start =
      if osd = other then change (m.getD other start) else m.getD other start := by
  rw [getD, get?_modify]
  split
  next h => rw [h]; rfl
  next => rfl

end OsdMap

end OsdLatency
