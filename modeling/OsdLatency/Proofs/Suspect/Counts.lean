import Mathlib.Algebra.Order.BigOperators.Group.List
import Mathlib.Algebra.Order.Ring.Nat
import OsdLatency.Proofs.Suspect.Ranked

/-!
# What the counts of suspects count

An OSD is counted as often as the operations mention it, and an operation may mention an OSD several
times: the acting set of a log line is read number by number. But a round drops operations. So the
count of a suspect is not the number of operations that its round drops, unless each of them
mentions it once. Every operation that names an OSD is dropped once, in the round of the first
suspect that it names, and the counts of all rounds add up to the mentions of these suspects.

## Main definitions

* `takingPart` — the operations that an OSD took part in
* `chargedMentions` — how often an operation mentions the suspect that it is dropped for
* `CountsOperations`, `CountsMentions` — what the counts of a list of suspects are

## Main results

* `IsGreedyScan.sum_count` — all counts added up
* `IsGreedyScan.countsOperations_iff` — when the counts are numbers of operations
* `suspects_countMentions` — what the counts of the suspects are
* `not_forall_countsOperations` — they are not always numbers of operations
-/

namespace OsdLatency

variable {hosts : HostMap} {first i : ℕ} {ops : List SlowOp} {op : SlowOp} {osd : UInt32}
  {suspect : Suspect} {found : List Suspect}

/-- The operations that an OSD took part in. -/
def takingPart (osd : UInt32) (ops : List SlowOp) : List SlowOp := ops.filter (osd ∈ ·)

/-- The first of the suspects that an operation names. Its round drops the operation. -/
def charged? (found : List Suspect) (op : SlowOp) : Option Suspect :=
  found.find? fun suspect => suspect.osd ∈ op

/-- How often an operation mentions the suspect that it is dropped for. -/
def chargedMentions (found : List Suspect) (op : SlowOp) : ℕ :=
  match charged? found op with
  | some suspect => op.count suspect.osd
  | none => 0

/-- The counts of the suspects are numbers of operations. -/
structure CountsOperations (ops : List SlowOp) (found : List Suspect) : Prop where
  /-- The count of a round is the number of operations that it drops. -/
  dropped : ∀ i (h : i < found.length),
    found[i].count + (leftAfter (i + 1) found ops).length = (leftAfter i found ops).length
  /-- These are the operations that are left and that the suspect took part in. -/
  count : ∀ i (h : i < found.length),
    found[i].count = (takingPart found[i].osd (leftAfter i found ops)).length
  /-- No OSD took part in more of them. -/
  greatest : ∀ i (h : i < found.length) osd,
    (takingPart osd (leftAfter i found ops)).length ≤
      (takingPart found[i].osd (leftAfter i found ops)).length
  /-- All counts add up to the number of operations that name an OSD. -/
  total : (found.map Suspect.count).sum = namingCount ops

/-- The counts of the suspects are numbers of mentions. -/
structure CountsMentions (ops : List SlowOp) (found : List Suspect) : Prop where
  /-- A round drops the operations that are left and that its suspect took part in. -/
  dropped : ∀ i (h : i < found.length),
    (takingPart found[i].osd (leftAfter i found ops)).length +
      (leftAfter (i + 1) found ops).length = (leftAfter i found ops).length
  /-- The count of a round is how often these mention the suspect. -/
  count : ∀ i (h : i < found.length),
    found[i].count = (mentions (takingPart found[i].osd (leftAfter i found ops))).count found[i].osd
  /-- No OSD is mentioned more often in what is left. -/
  greatest : ∀ i (h : i < found.length) osd,
    (mentions (leftAfter i found ops)).count osd ≤ found[i].count
  /-- No OSD took part in more of the operations that are left than the count says. -/
  takingPart_le : ∀ i (h : i < found.length) osd,
    (takingPart osd (leftAfter i found ops)).length ≤ found[i].count
  /-- All counts add up to the mentions of suspects by the operations that are dropped for them. -/
  total : (found.map Suspect.count).sum = (ops.map (chargedMentions found)).sum
  /-- These are at least as many as the operations that name an OSD. -/
  namingCount_le : namingCount ops ≤ (found.map Suspect.count).sum

/-! ### Sums of numbers -/

/-- Zeros may be left out of a sum. -/
theorem sum_map_filter {α : Type*} {l : List α} {f : α → ℕ} (p : α → Prop) [DecidablePred p]
    (h : ∀ a ∈ l, ¬p a → f a = 0) : ((l.filter p).map f).sum = (l.map f).sum := by
  rw [← List.sum_map_filter_add_sum_map_filter_not p f l, left_eq_add,
    List.sum_eq_zero_iff_forall_eq_nat, List.forall_mem_map]
  intro a ha
  rw [List.mem_filter, decide_eq_true_eq] at ha
  exact h a ha.1 ha.2

/-- Positive numbers add up to their number only if they are ones. -/
theorem sum_map_eq_length_iff {α : Type*} {l : List α} {f : α → ℕ} (h : ∀ a ∈ l, 1 ≤ f a) :
    (l.map f).sum = l.length ↔ ∀ a ∈ l, f a ≤ 1 := by
  induction l with
  | nil => exact iff_of_true rfl fun a ha => absurd ha List.not_mem_nil
  | cons a l ih =>
    rw [List.forall_mem_cons] at h
    have hothers := List.length_le_sum_of_one_le (l.map f) (List.forall_mem_map.mpr h.2)
    rw [List.length_map] at hothers
    rw [List.forall_mem_cons, ← ih h.2, List.map_cons, List.sum_cons, List.length_cons]
    have := h.1
    omega

/-! ### Mentions and operations -/

theorem mem_takingPart : op ∈ takingPart osd ops ↔ op ∈ ops ∧ osd ∈ op := by
  rw [takingPart, List.mem_filter, decide_eq_true_eq]

theorem without_eq_filter (osd : UInt32) (ops : List SlowOp) :
    without osd ops = ops.filter (osd ∉ ·) :=
  List.filter_congr fun op _ => by simp

theorem count_mentions (ops : List SlowOp) (osd : UInt32) :
    (mentions ops).count osd = (ops.map (List.count osd)).sum :=
  List.count_flatten

/-- An OSD is mentioned by the operations that it took part in. -/
theorem count_mentions_takingPart (osd : UInt32) (ops : List SlowOp) :
    (mentions (takingPart osd ops)).count osd = (mentions ops).count osd := by
  rw [count_mentions, count_mentions, takingPart]
  exact sum_map_filter _ fun op _ hosd => List.count_eq_zero_of_not_mem hosd

/-- An OSD took part in no more operations than mention it. -/
theorem length_takingPart_le (osd : UInt32) (ops : List SlowOp) :
    (takingPart osd ops).length ≤ (mentions ops).count osd := by
  have hle := List.length_le_sum_of_one_le ((takingPart osd ops).map (List.count osd))
    (List.forall_mem_map.mpr fun op hop => List.count_pos_iff.mpr (mem_takingPart.mp hop).2)
  rwa [List.length_map, ← count_mentions, count_mentions_takingPart] at hle

/-- A round drops the operations that its suspect took part in. -/
theorem length_takingPart_add (h : i < found.length) (ops : List SlowOp) :
    (takingPart found[i].osd (leftAfter i found ops)).length +
      (leftAfter (i + 1) found ops).length = (leftAfter i found ops).length := by
  rw [leftAfter_succ h, without_eq_filter, takingPart]
  simp only [decide_not]
  exact (List.length_eq_length_filter_add _).symm

/-! ### The suspect that an operation is dropped for -/

/-- An operation that is left and names the next suspect is dropped for it. -/
theorem charged?_of_mem_takingPart (h : i < found.length)
    (hop : op ∈ takingPart found[i].osd (leftAfter i found ops)) :
    charged? found op = some found[i] := by
  obtain ⟨hleft, hosd⟩ := mem_takingPart.mp hop
  refine List.find?_eq_some_iff_getElem.mpr ⟨decide_eq_true hosd, i, h, rfl, fun j hj => ?_⟩
  have hearlier : found[j] ∈ found.take i := List.mem_take_iff_getElem.mpr ⟨j, by omega, rfl⟩
  simpa using (mem_leftAfter.mp hleft).2 _ hearlier

theorem chargedMentions_cons (suspect : Suspect) (found : List Suspect) :
    chargedMentions (suspect :: found) = fun op =>
      if suspect.osd ∈ op then op.count suspect.osd else chargedMentions found op := by
  funext op
  by_cases hosd : suspect.osd ∈ op
  · simp [chargedMentions, charged?, hosd]
  · simp [chargedMentions, charged?, hosd]

/-- The mentions of the first suspect, and those of the others in what it leaves. -/
theorem sum_chargedMentions_cons (suspect : Suspect) (found : List Suspect) (ops : List SlowOp) :
    (ops.map (chargedMentions (suspect :: found))).sum =
      (mentions ops).count suspect.osd +
        ((without suspect.osd ops).map (chargedMentions found)).sum := by
  rw [chargedMentions_cons, List.sum_map_ite, ← count_mentions_takingPart, count_mentions,
    without_eq_filter]
  rfl

/-- An operation without OSDs is dropped for none. -/
theorem chargedMentions_nil (found : List Suspect) : chargedMentions found [] = 0 := by
  have hnone : charged? found [] = none := List.find?_eq_none.mpr fun suspect _ => by simp
  rw [chargedMentions, hnone]

/-- The operations that name no OSD do not count. -/
theorem sum_chargedMentions (found : List Suspect) (ops : List SlowOp) :
    ((ops.filter (· ≠ [])).map (chargedMentions found)).sum =
      (ops.map (chargedMentions found)).sum := by
  refine sum_map_filter _ fun op _ hempty => ?_
  rw [not_not.mp hempty, chargedMentions_nil]

/-- An operation that mentions no OSD twice counts once at most. -/
theorem chargedMentions_le_one (h : op.Nodup) (found : List Suspect) :
    chargedMentions found op ≤ 1 := by
  rw [chargedMentions]
  split
  · exact List.nodup_iff_count_le_one.mp h _
  · exact Nat.zero_le 1

namespace IsGreedyScan

/-- All counts added up are the mentions of suspects by the operations that are dropped for them. -/
theorem sum_count (h : IsGreedyScan hosts first ops found) :
    (found.map Suspect.count).sum = (ops.map (chargedMentions found)).sum := by
  induction found generalizing first ops with
  | nil =>
    rw [List.map_nil, List.sum_nil, eq_comm, List.sum_eq_zero_iff_forall_eq_nat,
      List.forall_mem_map]
    exact fun op _ => rfl
  | cons suspect found ih =>
    obtain ⟨hsuspect, hothers⟩ := isGreedyScan_cons_iff.mp h
    rw [List.map_cons, List.sum_cons, ih hothers, sum_chargedMentions_cons, hsuspect.count]

/-- An operation that names an OSD is dropped for a suspect. -/
theorem one_le_chargedMentions (h : IsGreedyScan hosts first ops found) :
    ∀ op ∈ ops.filter (· ≠ []), 1 ≤ chargedMentions found op := by
  intro op hop
  rw [List.mem_filter, decide_eq_true_eq] at hop
  obtain ⟨hop, hnaming⟩ := hop
  have hdropped : op ∉ leftAfter found.length found ops := fun hleft =>
    hnaming ((h.ends _ le_rfl).mpr rfl op hleft)
  have hsome : (charged? found op).isSome := by
    rw [charged?, List.find?_isSome]
    rw [mem_leftAfter, List.take_length] at hdropped
    simpa [hop] using hdropped
  obtain ⟨suspect, hsuspect⟩ := Option.isSome_iff_exists.mp hsome
  have hosd : suspect.osd ∈ op := by simpa using List.find?_some hsuspect
  rw [chargedMentions, hsuspect]
  exact List.count_pos_iff.mpr hosd

/-- The counts add up to the number of operations that name an OSD exactly if each of them mentions
the suspect that it is dropped for once. -/
theorem sum_count_eq_namingCount_iff (h : IsGreedyScan hosts first ops found) :
    (found.map Suspect.count).sum = namingCount ops ↔ ∀ op ∈ ops, chargedMentions found op ≤ 1 := by
  rw [h.sum_count, ← sum_chargedMentions, namingCount,
    sum_map_eq_length_iff h.one_le_chargedMentions]
  constructor
  · intro hle op hop
    by_cases hempty : op = []
    · rw [hempty, chargedMentions_nil]
      exact Nat.zero_le 1
    · exact hle op (List.mem_filter.mpr ⟨hop, decide_eq_true hempty⟩)
  · exact fun hle op hop => hle op (List.mem_of_mem_filter hop)

theorem namingCount_le (h : IsGreedyScan hosts first ops found) :
    namingCount ops ≤ (found.map Suspect.count).sum := by
  rw [h.sum_count, ← sum_chargedMentions, namingCount, ← List.length_map (chargedMentions found)]
  exact List.length_le_sum_of_one_le _ (List.forall_mem_map.mpr h.one_le_chargedMentions)

/-- The counts are numbers of operations exactly if no operation mentions the suspect that it is
dropped for more than once. -/
theorem countsOperations_iff (h : IsGreedyScan hosts first ops found) :
    CountsOperations ops found ↔ ∀ op ∈ ops, chargedMentions found op ≤ 1 := by
  rw [← h.sum_count_eq_namingCount_iff]
  refine ⟨CountsOperations.total, fun htotal => ?_⟩
  have hcount : ∀ i (hi : i < found.length),
      found[i].count = (takingPart found[i].osd (leftAfter i found ops)).length := by
    intro i hi
    rw [(h.isSuspect i hi).count, ← count_mentions_takingPart, count_mentions,
      sum_map_eq_length_iff fun op hop => List.count_pos_iff.mpr (mem_takingPart.mp hop).2]
    intro op hop
    have honce := h.sum_count_eq_namingCount_iff.mp htotal op
      (mem_leftAfter.mp (mem_takingPart.mp hop).1).1
    rwa [chargedMentions, charged?_of_mem_takingPart hi hop] at honce
  constructor
  case dropped =>
    intro i hi
    rw [hcount i hi, length_takingPart_add]
  case count => exact hcount
  case greatest =>
    intro i hi osd
    rw [← hcount i hi]
    exact (length_takingPart_le _ _).trans (h.count_mentions_le hi osd)
  case total => exact htotal

theorem countsMentions (h : IsGreedyScan hosts first ops found) : CountsMentions ops found where
  dropped i hi := length_takingPart_add hi ops
  count i hi := by rw [(h.isSuspect i hi).count, count_mentions_takingPart]
  greatest i hi osd := h.count_mentions_le hi osd
  takingPart_le i hi osd := (length_takingPart_le _ _).trans (h.count_mentions_le hi osd)
  total := h.sum_count
  namingCount_le := h.namingCount_le

end IsGreedyScan

/-! ### The suspects -/

/-- The count of a suspect is how often the operations that its round drops mention it. All counts
are numbers of operations, as many as the rounds drop, exactly if no operation mentions the suspect
that it is dropped for more than once. -/
theorem suspects_countMentions (hosts : HostMap) (ops : List SlowOp) :
    CountsMentions ops (suspects ops hosts) ∧
      (CountsOperations ops (suspects ops hosts) ↔
        ∀ op ∈ ops, chargedMentions (suspects ops hosts) op ≤ 1) ∧
      ((∀ op ∈ ops, op.Nodup) → CountsOperations ops (suspects ops hosts)) := by
  have hscan := IsGreedyScan.of_suspects hosts ops
  refine ⟨hscan.countsMentions, hscan.countsOperations_iff, fun hnodup => ?_⟩
  refine hscan.countsOperations_iff.mpr fun op hop => ?_
  exact chargedMentions_le_one (hnodup op hop) _

/-- Two rounds, each of which drops two operations that mention its suspect once. -/
theorem suspects_countMentions_twice :
    CountsOperations [[5, 10, 1], [8, 2, 5], [3, 8, 9], [9, 4, 7]]
      (suspects [[5, 10, 1], [8, 2, 5], [3, 8, 9], [9, 4, 7]] Table.empty) :=
  (suspects_countMentions Table.empty _).2.2 (by decide)

/-- A log with an operation whose acting set has one OSD three times, and two operations of another
OSD. -/
def repeatedLog : List Char :=
  "a b c d e [7,7,7] f g 150000\na b c d e [6] f g 150000\na b c d e [6] f g 150000\n".toList

theorem ofText_repeatedLog : SlowOp.ofText 100000 repeatedLog = [[7, 7, 7], [6], [6]] := by
  decide +kernel

/-- The counts of suspects are not always numbers of operations: an OSD that is mentioned three
times by one operation is found before another one that took part in two. -/
theorem not_forall_countsOperations :
    ¬∀ ops hosts, CountsOperations ops (suspects ops hosts) := by
  intro hall
  have hlog := hall (SlowOp.ofText 100000 repeatedLog) Table.empty
  rw [ofText_repeatedLog] at hlog
  have hfound : suspects [[7, 7, 7], [6], [6]] Table.empty =
      [{ osd := 7, count := 3, host := "Unknown", round := 1 },
       { osd := 6, count := 2, host := "Unknown", round := 2 }] := by
    decide +kernel
  rw [hfound] at hlog
  exact absurd (hlog.dropped 0 (by decide)) (by decide)

end OsdLatency
