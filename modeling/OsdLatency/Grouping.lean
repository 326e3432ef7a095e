import OsdLatency.OsdMap
import OsdLatency.Trace.Record

/-!
# Values by OSD and by kind

The values of one field are collected in one pass over the records. Every OSD has a slot for each
kind of operation, and a value is put behind those that are in its slot already.

## Main definitions

* `Slots` — the values of one OSD, kind by kind
* `LatencyGroups` — the values of one field by OSD and kind

## Main results

* `Slots.get_push` — a value goes into the slot of its kind alone
-/

namespace OsdLatency

/-- The values of one OSD, those of a kind in the slot with its index. -/
abbrev Slots := Vector (Array UInt64) 4

namespace Slots

/-- Slots without a value. -/
def empty : Slots := Vector.replicate 4 #[]

/-- The values of a kind. -/
def get (slots : Slots) (kind : OpKind) : Array UInt64 :=
  Vector.get slots ⟨kind.index, kind.index_lt⟩

/-- Put a value behind those of its kind. -/
def push (slots : Slots) (kind : OpKind) (value : UInt64) : Slots where
  toArray := slots.toArray.modify kind.index (·.push value)
  size_toArray := by rw [Array.size_modify, slots.size_toArray]

/-- Put the value that a record has in a field into its slot. A record without the field leaves the
slots as they are. -/
def add (field : LatencyField) (slots : Slots) (r : Record) : Slots :=
  match r.latency? field with
  | some value => slots.push r.kind value
  | none => slots

@[simp] theorem get_empty (kind : OpKind) : empty.get kind = #[] := by
  cases kind <;> rfl

theorem get_push (slots : Slots) (kind other : OpKind) (value : UInt64) :
    (slots.push kind value).get other =
      if kind = other then (slots.get other).push value else slots.get other := by
  have hmodify := @Array.getElem_modify _ (·.push value) slots.toArray kind.index other.index
    ((slots.push kind value).size_toArray.symm ▸ other.index_lt)
  simp only [OpKind.index_inj] at hmodify
  exact hmodify

end Slots

/-- The values of one field by OSD and kind. -/
structure LatencyGroups where
  field : LatencyField
  osds : OsdMap Slots

namespace LatencyGroups

/-- Group what records say of a field. An OSD is there even if none of its records has the field. -/
def ofRecords (field : LatencyField) (records : List Record) : LatencyGroups where
  field := field
  osds := records.foldl (fun osds r => osds.modify r.osd .empty (.add field · r)) .empty

/-- The OSDs that have a record, ascending. -/
def osdIds (groups : LatencyGroups) : List UInt32 := groups.osds.osds

/-- The values of an OSD and a kind, in trace order. An OSD that is not there has none. -/
def samples (groups : LatencyGroups) (osd : UInt32) (kind : OpKind) : List UInt64 :=
  match groups.osds.get? osd with
  | some slots => (slots.get kind).toList
  | none => []

/-- The kinds of an OSD that have a value, with their values. -/
def kindsOf (groups : LatencyGroups) (osd : UInt32) : List (OpKind × List UInt64) :=
  (OpKind.all.map fun kind => (kind, groups.samples osd kind)).filter (!·.2.isEmpty)

end LatencyGroups

end OsdLatency
