import Mathlib.Data.List.Forall2
import OsdLatency.Proofs.Text.Columns
import OsdLatency.Proofs.Text.Numerals
import OsdLatency.Suspect.SlowOp

/-!
# The slow operations of a log

A line of a log is a slow operation by its ninth column alone: the latency stands there, and it has
to reach the threshold. What its sixth column holds decides which OSDs the operation names, down to
none at all. A run of digits that is no number of an OSD is left out as a whole, and the others of
the column stay.

## Main definitions

* `SlowOp.IsSlow`, `SlowOp.Names` — a line is a slow operation, and names an OSD
* `SlowOp.HasLatency`, `SlowOp.HasOsds` — the latency and the OSDs of a line
* `SlowOp.Reaches` — a line has a latency that reaches the threshold
* `SlowOp.written` — OSDs as an acting set is written

## Main results

* `SlowOp.ofText_eq_nil_iff`, `SlowOp.forall_mem_ofText_iff` — when a log has no slow operations,
  and when they name no OSD
* `SlowOp.operation?_eq_some_iff`, `SlowOp.ofLine?_eq_some_iff_reaches` — what is read of a line
* `SlowOp.hasOsds_of_written` — a written acting set is read back
* `SlowOp.slowOps_exact` — what the slow operations of a log are
-/

namespace OsdLatency

open Text

namespace SlowOp

variable {threshold latency : UInt64} {line text column : List Char} {osd : UInt32} {op : SlowOp}

/-- A line is a slow operation: its ninth column is a number of a machine word and reaches the
threshold. -/
def IsSlow (threshold : UInt64) (line : List Char) : Prop :=
  ∃ column ∈ (columns line)[8]?, ∃ n, threshold.toNat ≤ n ∧ n < 2 ^ 64 ∧
    IsNumeral n (dropPlus column)

/-- A line names an OSD: the number is one of the runs of digits in its sixth column. -/
def Names (line : List Char) (osd : UInt32) : Prop :=
  ∃ column ∈ (columns line)[5]?, ∃ digits,
    IsMaximalRun isDigit digits column ∧ IsNumeral osd.toNat digits

theorem mem_actingOsds {column : List Char} : osd ∈ actingOsds column ↔
    ∃ digits, IsMaximalRun isDigit digits column ∧ IsNumeral osd.toNat digits := by
  simp only [actingOsds, List.mem_filterMap, Scanner.digits, Scanner.mem_findAll_run_iff,
    uint32?_eq_some_iff]

/-- The operation of a line that has both columns. -/
theorem ofLine?_eq_some_iff : ofLine? threshold line = some op ↔
    ∃ latency, threshold ≤ latency ∧
      (∃ column ∈ (columns line)[8]?, uint64? (dropPlus column) = some latency) ∧
      ∃ column ∈ (columns line)[5]?, actingOsds column = op := by
  simp only [ofLine?, operation?, latencyColumn, actingColumn, Option.bind_eq_bind,
    Option.pure_def, Option.bind_eq_some_iff, Option.some.injEq, Option.ite_none_right_eq_some,
    Option.mem_def]
  constructor
  · rintro ⟨_, ⟨latency, hlatency, acting, hacting, rfl⟩, hle, rfl⟩
    exact ⟨latency, hle, hlatency, acting, hacting, rfl⟩
  · rintro ⟨latency, hle, hlatency, acting, hacting, rfl⟩
    exact ⟨_, ⟨latency, hlatency, acting, hacting, rfl⟩, hle, rfl⟩

theorem isSlow_iff : IsSlow threshold line ↔ ∃ latency, threshold ≤ latency ∧
    ∃ column ∈ (columns line)[8]?, uint64? (dropPlus column) = some latency := by
  constructor
  · rintro ⟨column, hcolumn, n, hle, hlt, hnumeral⟩
    have hself : (UInt64.ofNat n).toNat = n := UInt64.toNat_ofNat_of_lt' hlt
    refine ⟨UInt64.ofNat n, ?_, column, hcolumn, ?_⟩
    · rwa [UInt64.le_iff_toNat_le, hself]
    · rwa [uint64?_eq_some_iff, hself]
  · rintro ⟨latency, hle, column, hcolumn, hlatency⟩
    exact ⟨column, hcolumn, latency.toNat, UInt64.le_iff_toNat_le.mp hle, latency.toNat_lt,
      uint64?_eq_some_iff.mp hlatency⟩

/-- A line with nine columns has a sixth one, so that only the latency decides. -/
theorem ofLine?_isSome_iff : (ofLine? threshold line).isSome ↔ IsSlow threshold line := by
  simp only [Option.isSome_iff_exists, ofLine?_eq_some_iff, isSlow_iff]
  constructor
  · rintro ⟨op, latency, hle, hlatency, -⟩
    exact ⟨latency, hle, hlatency⟩
  · rintro ⟨latency, hle, column, hcolumn, hlatency⟩
    have hlong : 8 < (columns line).length := (List.getElem?_eq_some_iff.mp hcolumn).1
    have hacting : (columns line)[5]? = some (columns line)[5] :=
      List.getElem?_eq_getElem (by omega)
    exact ⟨_, latency, hle, ⟨column, hcolumn, hlatency⟩, _, hacting, rfl⟩

theorem mem_iff_names (h : ofLine? threshold line = some op) : osd ∈ op ↔ Names line osd := by
  obtain ⟨_, -, -, acting, hacting, rfl⟩ := ofLine?_eq_some_iff.mp h
  rw [mem_actingOsds, Names]
  constructor
  · exact fun hdigits => ⟨acting, hacting, hdigits⟩
  · rintro ⟨column, hcolumn, hdigits⟩
    rwa [Option.mem_unique hacting hcolumn]

/-- A log has no slow operations exactly if none of its lines is one. -/
theorem ofText_eq_nil_iff :
    ofText threshold text = [] ↔ ∀ line ∈ lines text, ¬IsSlow threshold line := by
  rw [ofText, List.filterMap_eq_nil_iff]
  refine forall₂_congr fun line _ => ?_
  rw [← ofLine?_isSome_iff, Option.not_isSome_iff_eq_none]

/-- The slow operations of a log name no OSD exactly if no slow line does. -/
theorem forall_mem_ofText_iff : (∀ op ∈ ofText threshold text, op = []) ↔
    ∀ line ∈ lines text, IsSlow threshold line → ∀ osd, ¬Names line osd := by
  constructor
  · intro h line hline hslow osd hnames
    obtain ⟨op, hop⟩ := Option.isSome_iff_exists.mp (ofLine?_isSome_iff.mpr hslow)
    have hosd : osd ∈ op := (mem_iff_names hop).mpr hnames
    rw [h op (List.mem_filterMap.mpr ⟨line, hline, hop⟩)] at hosd
    exact List.not_mem_nil hosd
  · intro h op hmem
    obtain ⟨line, hline, hop⟩ := List.mem_filterMap.mp hmem
    have hslow := ofLine?_isSome_iff.mp (Option.isSome_of_eq_some hop)
    apply List.eq_nil_iff_forall_not_mem.mpr
    exact fun osd hosd => h line hline hslow osd ((mem_iff_names hop).mp hosd)

/-! ### Latency and OSDs of a line -/

/-- The latency of a line: the number of a machine word in its ninth column. -/
def HasLatency (line : List Char) (latency : UInt64) : Prop :=
  ∃ found, HasRuns isSolid line found ∧ ∃ column ∈ found[8]?, IsUnsigned latency.toNat column

/-- Whether a run of digits is the number of an OSD. -/
def isOsdNumber (digits : List Char) : Bool :=
  digits.all isAsciiDigit && decide (decimalValue digits < 2 ^ 32)

/-- The OSDs of a line: the runs of digits in its sixth column that are numbers of OSDs, in their
order. -/
def HasOsds (line : List Char) (osds : SlowOp) : Prop :=
  ∃ found, HasRuns isSolid line found ∧ ∃ column ∈ found[5]?,
    ∃ runs, HasRuns isDigit column runs ∧
      osds.map UInt32.toNat = (runs.filter isOsdNumber).map decimalValue

/-- A line has a latency that reaches the threshold. -/
def Reaches (threshold : UInt64) (line : List Char) : Prop :=
  ∃ latency, HasLatency line latency ∧ threshold ≤ latency

/-- OSDs as an acting set is written. -/
def written (osds : SlowOp) : List Char :=
  '[' :: ([','].intercalate (osds.map fun osd => numeral osd.toNat) ++ [']'])

theorem hasLatency_iff : HasLatency line latency ↔
    ∃ column ∈ (columns line)[8]?, uint64? (dropPlus column) = some latency := by
  simp only [HasLatency, hasRuns_isSolid_iff, uint64?_eq_some_iff, isNumeral_dropPlus_iff]
  exact exists_eq_left'

theorem isOsdNumber_iff {digits : List Char} : isOsdNumber digits = true ↔
    (∀ c ∈ digits, isAsciiDigit c = true) ∧ decimalValue digits < 2 ^ 32 := by
  rw [isOsdNumber, Bool.and_eq_true, List.all_eq_true, decide_eq_true_eq]

/-- A run of digits is read as the number of an OSD exactly if it is one. -/
theorem uint32?_eq_ite {digits : List Char} (h : digits ≠ []) : uint32? digits =
    if isOsdNumber digits then some (UInt32.ofNat (decimalValue digits)) else none := by
  split_ifs with hnumber
  · obtain ⟨hascii, hlt⟩ := isOsdNumber_iff.mp hnumber
    exact uint32?_eq_some_iff.mpr ⟨⟨h, hascii⟩, (UInt32.toNat_ofNat_of_lt' hlt).symm⟩
  · refine Option.eq_none_iff_forall_ne_some.mpr fun osd hosd => hnumber ?_
    obtain ⟨hrun, hvalue⟩ := uint32?_eq_some_iff.mp hosd
    exact isOsdNumber_iff.mpr ⟨hrun.2, hvalue ▸ osd.toNat_lt⟩

/-- The OSDs among some runs of digits. -/
theorem map_toNat_filterMap {runs : List (List Char)} (h : ∀ digits ∈ runs, digits ≠ []) :
    (runs.filterMap uint32?).map UInt32.toNat = (runs.filter isOsdNumber).map decimalValue := by
  induction runs with
  | nil => rfl
  | cons digits runs ih =>
    rw [List.forall_mem_cons] at h
    rw [List.filterMap_cons, uint32?_eq_ite h.1, List.filter_cons]
    split_ifs with hnumber
    · have hlt := (isOsdNumber_iff.mp hnumber).2
      rw [List.map_cons, List.map_cons, ih h.2, UInt32.toNat_ofNat_of_lt' hlt]
    · exact ih h.2

/-- The OSDs of a column are the numbers of OSDs among its runs of digits. -/
theorem actingOsds_eq_iff : actingOsds column = op ↔ ∃ runs, HasRuns isDigit column runs ∧
    op.map UInt32.toNat = (runs.filter isOsdNumber).map decimalValue := by
  have hruns : ∀ digits ∈ Scanner.findAll (Scanner.run isDigit) column, digits ≠ [] :=
    fun digits hdigits => (Scanner.mem_findAll_run_iff.mp hdigits).1.1
  have hinjective := List.map_injective_iff.mpr fun _ _ => UInt32.toNat_inj.mp
  simp only [hasRuns_iff]
  rw [exists_eq_left', ← map_toNat_filterMap hruns, hinjective.eq_iff, eq_comm]
  rfl

theorem hasOsds_iff : HasOsds line op ↔ ∃ column ∈ (columns line)[5]?, actingOsds column = op := by
  simp only [HasOsds, hasRuns_isSolid_iff, ← actingOsds_eq_iff]
  exact exists_eq_left'

/-- A line has one list of OSDs at most. -/
theorem HasOsds.unique {op' : SlowOp} (h : HasOsds line op) (h' : HasOsds line op') : op = op' := by
  obtain ⟨column, hcolumn, rfl⟩ := hasOsds_iff.mp h
  obtain ⟨column', hcolumn', rfl⟩ := hasOsds_iff.mp h'
  rw [Option.mem_unique hcolumn hcolumn']

/-- What is read of a line are its latency and its OSDs. -/
theorem operation?_eq_some_iff :
    operation? line = some (latency, op) ↔ HasLatency line latency ∧ HasOsds line op := by
  simp only [operation?, latencyColumn, actingColumn, hasLatency_iff, hasOsds_iff,
    Option.bind_eq_bind, Option.pure_def, Option.bind_eq_some_iff, Option.some.injEq,
    Option.mem_def, Prod.mk.injEq]
  constructor
  · rintro ⟨_, hlatency, column, hcolumn, rfl, rfl⟩
    exact ⟨hlatency, column, hcolumn, rfl⟩
  · rintro ⟨hlatency, column, hcolumn, rfl⟩
    exact ⟨latency, hlatency, column, hcolumn, rfl, rfl⟩

theorem reaches_iff : Reaches threshold line ↔ IsSlow threshold line := by
  simp only [isSlow_iff, Reaches, hasLatency_iff, and_comm]

instance : DecidablePred (Reaches threshold) := fun _ =>
  decidable_of_iff _ (ofLine?_isSome_iff.trans reaches_iff.symm)

/-- A line is a slow operation if its latency reaches the threshold, and has then its OSDs. -/
theorem ofLine?_eq_some_iff_reaches :
    ofLine? threshold line = some op ↔ Reaches threshold line ∧ HasOsds line op := by
  rw [ofLine?_eq_some_iff, hasOsds_iff, reaches_iff, isSlow_iff]
  constructor
  · rintro ⟨latency, hle, hlatency, hop⟩
    exact ⟨⟨latency, hle, hlatency⟩, hop⟩
  · rintro ⟨⟨latency, hle, hlatency⟩, hop⟩
    exact ⟨latency, hle, hlatency, hop⟩

/-! ### Written acting sets -/

/-- Numbers with commas between them are runs of digits. -/
theorem hasRuns_intercalate {numbers : List (List Char)} {rest : List Char}
    (h : ∀ digits ∈ numbers, IsRun isDigit digits) (hrest : ∀ c ∈ rest, isDigit c = false) :
    HasRuns isDigit ([','].intercalate numbers ++ rest) numbers := by
  induction numbers with
  | nil => exact .nil hrest
  | cons digits numbers ih =>
    rw [List.forall_mem_cons] at h
    cases numbers with
    | nil =>
      rw [List.intercalate_singleton]
      exact .cons [] (List.forall_mem_nil _) h.1 (fun c hc => hrest c (List.mem_of_mem_head? hc))
        (.nil hrest)
    | cons second numbers =>
      have hcomma : isDigit ',' = false := by decide
      rw [List.intercalate_cons_cons, List.append_assoc, List.append_assoc]
      exact .cons [] (List.forall_mem_nil _) h.1 (boundary_cons.mpr hcomma)
        ((ih h.2).cons_char hcomma)

theorem hasRuns_written (osds : SlowOp) :
    HasRuns isDigit (written osds) (osds.map fun osd => numeral osd.toNat) := by
  refine HasRuns.cons_char
    (hasRuns_intercalate ?_ (List.forall_mem_singleton.mpr (by decide))) (by decide)
  exact List.forall_mem_map.mpr fun osd _ => isDigits_numeral osd.toNat

theorem isOsdNumber_numeral (osd : UInt32) : isOsdNumber (numeral osd.toNat) = true := by
  obtain ⟨hrun, hvalue⟩ := isNumeral_numeral osd.toNat
  exact isOsdNumber_iff.mpr ⟨hrun.2, hvalue.trans_lt osd.toNat_lt⟩

/-- The OSDs of a line whose sixth column is a written acting set are those that are written. -/
theorem hasOsds_of_written {found : List (List Char)} {osds : SlowOp}
    (hfound : HasRuns isSolid line found) (hcolumn : found[5]? = some (written osds)) :
    HasOsds line op ↔ op = osds := by
  have hwritten : HasOsds line osds := by
    refine ⟨found, hfound, _, hcolumn, _, hasRuns_written osds, ?_⟩
    rw [List.filter_eq_self.mpr (List.forall_mem_map.mpr fun osd _ => isOsdNumber_numeral osd),
      List.map_map]
    exact List.map_congr_left fun osd _ => (isNumeral_numeral osd.toNat).2.symm
  exact ⟨fun hop => hop.unique hwritten, fun hop => hop ▸ hwritten⟩

/-! ### All lines of a log -/

/-- The lines of which something is read, and what is read of them. -/
theorem filterMap_eq_iff_forall₂ {α β : Type*} {read : α → Option β} {lines : List α}
    {out : List β} : lines.filterMap read = out ↔
      List.Forall₂ (fun line found => read line = some found)
        (lines.filter fun line => (read line).isSome) out := by
  induction lines generalizing out with
  | nil => simp [eq_comm]
  | cons line lines ih =>
    cases hread : read line with
    | none => simp [hread, ih]
    | some found =>
      simp only [List.filterMap_cons, hread, List.filter_cons, Option.isSome_some, if_true,
        List.forall₂_cons_left_iff, ← ih, Option.some.injEq]
      simp [eq_comm]

/-- The slow operations of a log with their latencies. -/
def timed (threshold : UInt64) (text : List Char) : List (UInt64 × SlowOp) :=
  ((lines text).filterMap operation?).filter (threshold ≤ ·.1)

theorem ofLine?_eq_map_filter (threshold : UInt64) (line : List Char) :
    ofLine? threshold line = ((operation? line).filter (threshold ≤ ·.1)).map Prod.snd := by
  rw [ofLine?]
  cases operation? line with
  | none => rfl
  | some operation => simp [Option.filter, apply_ite]

theorem ofText_eq_map_timed (threshold : UInt64) (text : List Char) :
    ofText threshold text = (timed threshold text).map Prod.snd := by
  rw [ofText, timed, List.filter_filterMap, List.map_filterMap]
  exact List.filterMap_congr fun line _ => ofLine?_eq_map_filter threshold line

/-- A higher threshold keeps the operations that reach it. -/
theorem timed_of_le {low high : UInt64} (h : low ≤ high) (text : List Char) :
    timed high text = (timed low text).filter (high ≤ ·.1) := by
  rw [timed, timed, List.filter_filter]
  refine List.filter_congr fun op _ => ?_
  rw [Bool.eq_iff_iff, Bool.and_eq_true, decide_eq_true_eq, decide_eq_true_eq]
  exact ⟨fun hop => ⟨hop, UInt64.le_trans h hop⟩, And.left⟩

/-- The slow operations with their latencies are those of the lines that reach the threshold. -/
theorem forall₂_timed (threshold : UInt64) (text : List Char) :
    List.Forall₂ (fun line op => HasLatency line op.1 ∧ HasOsds line op.2)
      ((lines text).filter (Reaches threshold ·)) (timed threshold text) := by
  have hreaches : ∀ line, decide (Reaches threshold line) =
      ((operation? line).filter (threshold ≤ ·.1)).isSome := fun line => by
    rw [Bool.eq_iff_iff, decide_eq_true_eq, reaches_iff, ← ofLine?_isSome_iff,
      ofLine?_eq_map_filter, Option.isSome_map]
  have htimed : (lines text).filterMap (fun line => (operation? line).filter (threshold ≤ ·.1)) =
      timed threshold text := List.filter_filterMap.symm
  rw [filterMap_eq_iff_forall₂, ← List.filter_congr fun line _ => hreaches line] at htimed
  refine htimed.imp fun line op hop => operation?_eq_some_iff.mp ?_
  exact (Option.filter_eq_some_iff.mp hop).1

theorem ofText_eq_iff {ops : List SlowOp} : ofText threshold text = ops ↔
    List.Forall₂ HasOsds ((lines text).filter (Reaches threshold ·)) ops := by
  have hall : List.Forall₂ HasOsds ((lines text).filter (Reaches threshold ·))
      (ofText threshold text) := by
    rw [ofText_eq_map_timed, List.forall₂_map_right_iff]
    exact (forall₂_timed threshold text).imp fun _ _ => And.right
  have hunique : Relator.RightUnique HasOsds := fun _ _ _ => HasOsds.unique
  constructor
  · rintro rfl
    exact hall
  · exact fun hops => hunique.forall₂ hall hops

/-- What the slow operations of a log are. There is one for every line whose ninth column is a
latency that reaches the threshold, in the order of the lines, and it has the OSDs of the sixth
column. These are the OSDs of an acting set that is written there. A higher threshold keeps the
operations of the lines whose latency reaches it. -/
theorem slowOps_exact (text : List Char) :
    (∀ threshold ops, ofText threshold text = ops ↔
      List.Forall₂ HasOsds ((lines text).filter (Reaches threshold ·)) ops) ∧
    (∀ line ∈ lines text, ∀ found osds, HasRuns isSolid line found →
      found[5]? = some (written osds) → ∀ op, HasOsds line op ↔ op = osds) ∧
    ∀ low high, low ≤ high → ∃ timed : List (UInt64 × SlowOp),
      List.Forall₂ (fun line op => HasLatency line op.1 ∧ HasOsds line op.2)
        ((lines text).filter (Reaches low ·)) timed ∧
      ofText low text = timed.map Prod.snd ∧
      ofText high text = (timed.filter (high ≤ ·.1)).map Prod.snd := by
  refine ⟨fun threshold ops => ofText_eq_iff, ?_, fun low high hle => ⟨timed low text, ?_⟩⟩
  · exact fun line _ found osds hfound hcolumn op => hasOsds_of_written hfound hcolumn
  · refine ⟨forall₂_timed low text, ofText_eq_map_timed low text, ?_⟩
    rw [ofText_eq_map_timed, timed_of_le hle]

/-- Two operations and a line without a latency. -/
def mixedLog : List Char :=
  "7 4 1 2 7e [5,10,1] W 8 150123\n7 4 2 2 7f [3,5,8] W 8 +90000\n7 4 3 2 81 [1] R 8 n/a\n".toList

theorem slowOps_exact_mixedLog :
    (∀ op, HasOsds "7 4 1 2 7e [5,10,1] W 8 150123".toList op ↔ op = [5, 10, 1]) ∧
    ∃ timed : List (UInt64 × SlowOp), timed.map Prod.snd = [[5, 10, 1], [3, 5, 8]] ∧
      (timed.filter (100000 ≤ ·.1)).map Prod.snd = [[5, 10, 1]] := by
  have hlow : ofText 90000 mixedLog = [[5, 10, 1], [3, 5, 8]] := by decide +kernel
  have hhigh : ofText 100000 mixedLog = [[5, 10, 1]] := by decide +kernel
  obtain ⟨-, hwritten, htimed⟩ := slowOps_exact mixedLog
  refine ⟨hwritten _ (by decide +kernel) _ [5, 10, 1] (hasRuns_isSolid_iff.mpr rfl)
    (by decide +kernel), ?_⟩
  obtain ⟨timed, -, hall, hsome⟩ := htimed 90000 100000 (by decide)
  exact ⟨timed, hall.symm.trans hlow, hsome.symm.trans hhigh⟩

end SlowOp

end OsdLatency
