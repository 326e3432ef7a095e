import OsdLatency.Proofs.Kinds
import OsdLatency.Share

/-!
# The pass over the operations

The shares of a trace are added up in one pass over operations of several OSDs and kinds. For an OSD
and a kind it leaves what a pass over their operations alone would leave: the sum of the shares of
each component with the number of these operations, and so the mean.

## Main definitions

* `shareSum`, `meanShare` — the sum and the mean of the shares of a component
* `rankedShares` — the means over some operations, the largest first
* `shareGroup` — the operations of an OSD and a kind that have shares
* `osdSharesOf` — what is reported of an OSD

## Main results

* `FieldPool.toList_foldl_add` — what a pass over the operations of one group adds up
* `SharePool.toList_osds_ofRecords`, `withoutShares_eq_countP` — what a pass over a trace collects
* `sharesOf_eq_map` — the report, OSD by OSD and kind by kind
-/

namespace OsdLatency

variable {group : List Record}

/-! ### One group -/

/-- The sum of the shares of a component, in the order of the operations. -/
def shareSum (component : Component) (records : List Record) : Float :=
  records.foldl (fun sum r => sum + share (r.component component) r.final) 0.0

/-- The mean share of a component over some operations, summed in their order. -/
def meanShare (component : Component) (records : List Record) : Float :=
  shareSum component records / Binary64.ofNat records.length

/-- The mean shares of all components over some operations, the largest first. -/
def rankedShares (records : List Record) : List FieldShare :=
  largestFirst (Component.all.map fun c =>
    { field := .component c, percent := meanShare c records })

namespace FieldPool

variable {fields : FieldPool}

/-- Every component has a value, so an operation adds a share to each of them. -/
theorem add_eq_foldl (fields : FieldPool) (r : Record) : fields.add r =
    Component.all.foldl (fun fields c =>
      fields.modify (.component c) .zero (·.add (share (r.component c) r.final))) fields := by
  rw [add, LatencyField.components, List.foldl_map]
  rfl

/-- An operation adds its share of a component to the shares of that component. -/
theorem getD_add (fields : FieldPool) (r : Record) (component : Component) :
    (fields.add r).getD (.component component) .zero =
      (fields.getD (.component component) .zero).add (share (r.component component) r.final) := by
  have hone : Component.all.filter (LatencyField.component · = .component component) =
      [component] := by
    cases component <;> rfl
  rw [add_eq_foldl]
  exact (Table.getD_foldl_modify fields Component.all).trans (by rw [hone]; rfl)

/-- The first operation puts the components in the order of the trace line, and further ones find
them there. -/
theorem keys_add (h : fields.keys = [] ∨ fields.keys = LatencyField.components) (r : Record) :
    (fields.add r).keys = LatencyField.components := by
  rw [add_eq_foldl, Table.keys_foldl_modify]
  rcases h with h | h <;> rw [h] <;> rfl

theorem getD_foldl_add (fields : FieldPool) (group : List Record) (component : Component) :
    (group.foldl add fields).getD (.component component) .zero =
      group.foldl (fun pooled r => pooled.add (share (r.component component) r.final))
        (fields.getD (.component component) .zero) := by
  induction group generalizing fields with
  | nil => rfl
  | cons r group ih => rw [List.foldl_cons, ih, getD_add, List.foldl_cons]

theorem keys_foldl_add (h : fields.keys = LatencyField.components) (group : List Record) :
    (group.foldl add fields).keys = LatencyField.components := by
  induction group generalizing fields with
  | nil => exact h
  | cons r group ih => exact ih (keys_add (.inr h) r)

end FieldPool

/-- Adding shares one by one gives their sum and their number. -/
theorem PooledShare.foldl_add (pooled : PooledShare) (component : Component)
    (group : List Record) :
    group.foldl (fun pooled r => pooled.add (share (r.component component) r.final)) pooled =
      { sum := group.foldl (fun sum r => sum + share (r.component component) r.final) pooled.sum
        count := pooled.count + group.length } := by
  induction group generalizing pooled with
  | nil => rfl
  | cons r group ih =>
    rw [List.foldl_cons, ih, List.foldl_cons, List.length_cons, add, Nat.add_right_comm]
    rfl

/-- A pass over the operations of a group gives the sum and the number of the shares of each
component, in the order of the trace line. -/
theorem FieldPool.toList_foldl_add (hne : group ≠ []) : (group.foldl add .empty).toList =
    Component.all.map fun component =>
      (.component component, { sum := shareSum component group, count := group.length }) := by
  have hkeys : (group.foldl add .empty).keys = LatencyField.components := by
    cases group with
    | nil => exact absurd rfl hne
    | cons r group => exact keys_foldl_add (keys_add (.inl rfl) r) group
  rw [Table.toList_eq_map _ .zero, hkeys, LatencyField.components, List.map_map]
  refine List.map_congr_left fun component _ => congrArg (Prod.mk _) ?_
  rw [getD_foldl_add, Table.getD_empty, PooledShare.foldl_add, PooledShare.zero, Nat.zero_add,
    shareSum]

/-- The shares that have been added up are the means of the group. -/
theorem FieldPool.shares_foldl_add (hne : group ≠ []) :
    (group.foldl add .empty).shares = rankedShares group := by
  rw [shares, toList_foldl_add hne, List.map_map]
  rfl

/-! ### A trace -/

namespace SharePool

/-- Operations without shares are passed over. -/
theorem osds_foldl_add (pool : SharePool) (records : List Record) :
    (records.foldl add pool).osds = (records.filter Record.hasShares).foldl (fun osds r =>
      osds.modify r.osd .empty (·.modify r.kind .empty (·.add r))) pool.osds := by
  induction records generalizing pool with
  | nil => rfl
  | cons r records ih =>
    rw [List.foldl_cons, ih, add, List.filter_cons]
    split_ifs <;> rfl

/-- Operations without shares are counted. -/
theorem skipped_foldl_add (pool : SharePool) (records : List Record) :
    (records.foldl add pool).skipped = pool.skipped + records.countP (!·.hasShares) := by
  induction records generalizing pool with
  | nil => rfl
  | cons r records ih =>
    rw [List.foldl_cons, ih, add, List.countP_cons]
    cases r.hasShares with
    | false =>
      simp only [Bool.false_eq_true, if_false, Bool.not_false, if_true]
      omega
    | true => rfl

end SharePool

theorem withoutShares_eq_countP (records : List Record) :
    withoutShares records = records.countP (!·.hasShares) :=
  (SharePool.skipped_foldl_add .empty records).trans (Nat.zero_add _)

/-- The operations of an OSD and a kind that have shares. -/
def shareGroup (osd : UInt32) (kind : OpKind) (records : List Record) : List Record :=
  recordsOfKind kind (recordsOfOsd osd (records.filter Record.hasShares))

/-- What is reported of an OSD. -/
def osdSharesOf (records : List Record) (osd : UInt32) : OsdShares where
  osd := osd
  kinds := (kindsSeen (recordsOfOsd osd (records.filter Record.hasShares))).map fun kind =>
    { kind, shares := rankedShares (shareGroup osd kind records) }

/-- A pass over operations leaves the kinds in the order of their first operations, and for each of
them what a pass over its own operations leaves. -/
theorem toList_foldl_kinds (records : List Record) :
    (records.foldl (fun kinds r => kinds.modify r.kind .empty (FieldPool.add · r))
        Table.empty).toList =
      (kindsSeen records).map fun kind =>
        (kind, (recordsOfKind kind records).foldl FieldPool.add .empty) := by
  have hkeys : (records.foldl (fun kinds r => kinds.modify r.kind .empty (FieldPool.add · r))
      Table.empty).keys = kindsSeen records := by
    rw [Table.keys_foldl_modify]
    exact (foldl_kinds [] records).trans (by simp)
  rw [Table.toList_eq_map _ .empty, hkeys]
  refine List.map_congr_left fun kind _ => congrArg (Prod.mk kind) ?_
  exact Table.getD_foldl_modify .empty records

/-- A pass over a trace leaves the OSDs ascending, and for each of them what a pass over its own
operations leaves. -/
theorem SharePool.toList_osds_ofRecords (records : List Record) :
    (ofRecords records).osds.toList =
      (osdsOf (records.filter Record.hasShares)).map fun osd =>
        (osd, (recordsOfOsd osd (records.filter Record.hasShares)).foldl
          (fun kinds r => kinds.modify r.kind .empty (FieldPool.add · r)) .empty) := by
  rw [ofRecords, osds_foldl_add, OsdMap.toList_eq_map _ .empty, empty, osds_foldl_modify]
  refine List.map_congr_left fun osd _ => congrArg (Prod.mk osd) ?_
  exact OsdMap.getD_foldl_modify .empty _

/-- The report, OSD by OSD and kind by kind. -/
theorem sharesOf_eq_map (records : List Record) :
    sharesOf records = (osdsOf (records.filter Record.hasShares)).map (osdSharesOf records) := by
  rw [sharesOf, SharePool.toList_osds_ofRecords, List.map_map]
  refine List.map_congr_left fun osd _ => ?_
  simp only [Function.comp_apply, toList_foldl_kinds, List.map_map, osdSharesOf]
  refine congrArg (OsdShares.mk osd) (List.map_congr_left fun kind hkind => ?_)
  rw [Function.comp_apply, FieldPool.shares_foldl_add (mem_kindsSeen_iff.mp hkind), shareGroup]

end OsdLatency
