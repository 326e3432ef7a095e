import OsdLatency.Proofs.Suspect.Leader

/-!
# The scan is greedy

Every suspect leads in what the suspects before it have left: the operations that name none of them.
The scan ends as soon as no operation that is left names an OSD. Since there is one leader at most,
this says what the list of suspects is.

## Main definitions

* `sparing` — the operations that name none of some OSDs
* `IsSuspect` — a suspect that is found in a round
* `IsGreedyScan` — a list of suspects, each of which is found in what the others before it left

## Main results

* `isGreedyScan_cons_iff` — the first suspect, and the scan of what it leaves
* `suspects_eq_iff` — the suspects are the one greedy scan
-/

namespace OsdLatency

variable {hosts : HostMap} {first : ℕ} {ops : List SlowOp} {osd : UInt32} {suspect : Suspect}
  {found : List Suspect} {entry : UInt32 × ℕ}

/-- The operations that name none of some OSDs. -/
def sparing (reported : List UInt32) (ops : List SlowOp) : List SlowOp :=
  ops.filter fun op => reported.all fun osd => !op.contains osd

/-- The operations that name none of the first few suspects. -/
def leftAfter (i : ℕ) (found : List Suspect) (ops : List SlowOp) : List SlowOp :=
  sparing ((found.take i).map Suspect.osd) ops

/-- A suspect that is found in a round: it leads in the operations that are left. -/
structure IsSuspect (hosts : HostMap) (round : ℕ) (ops : List SlowOp) (suspect : Suspect) :
    Prop where
  leads : Leads (mentions ops) suspect.osd
  count : suspect.count = (mentions ops).count suspect.osd
  host : suspect.host = (hosts.get? suspect.osd).getD "Unknown"
  round : suspect.round = round

/-- A list of suspects, each of which is found in what the others before it left. It ends where no
operation that is left names an OSD. -/
structure IsGreedyScan (hosts : HostMap) (first : ℕ) (ops : List SlowOp) (found : List Suspect) :
    Prop where
  isSuspect : ∀ i (h : i < found.length),
    IsSuspect hosts (first + i) (leftAfter i found ops) found[i]
  ends : ∀ i ≤ found.length, (∀ op ∈ leftAfter i found ops, op = []) ↔ i = found.length

/-! ### What is left -/

theorem leftAfter_zero : leftAfter 0 found ops = ops := by
  simp [leftAfter, sparing]

/-- What several suspects leave is what the others leave of what the first one left. -/
theorem leftAfter_cons (i : ℕ) :
    leftAfter (i + 1) (suspect :: found) ops = leftAfter i found (without suspect.osd ops) := by
  simp only [leftAfter, sparing, without, List.take_succ_cons, List.map_cons, List.filter_filter,
    List.all_cons]
  exact List.filter_congr fun op _ => Bool.and_comm _ _

/-! ### The scan -/

theorem Leads.exists_ne_nil (h : Leads (mentions ops) osd) : ¬∀ op ∈ ops, op = [] := by
  intro hempty
  obtain ⟨op, hop, hosd⟩ := List.mem_flatten.mp h.1
  rw [hempty op hop] at hosd
  exact List.not_mem_nil hosd

theorem isGreedyScan_nil_iff : IsGreedyScan hosts first ops [] ↔ ∀ op ∈ ops, op = [] := by
  constructor
  · intro h
    have hend := (h.ends 0 (Nat.le_refl 0)).mpr rfl
    rwa [leftAfter_zero] at hend
  · intro h
    refine ⟨fun i hi => absurd hi (Nat.not_lt_zero i), fun i hi => ?_⟩
    rw [Nat.le_zero.mp hi, leftAfter_zero]
    exact iff_of_true h rfl

/-- The first suspect, and the scan of what it leaves. -/
theorem isGreedyScan_cons_iff :
    IsGreedyScan hosts first ops (suspect :: found) ↔
      IsSuspect hosts first ops suspect ∧
        IsGreedyScan hosts (first + 1) (without suspect.osd ops) found := by
  constructor
  · intro h
    have hfirst := h.isSuspect 0 (Nat.zero_lt_succ _)
    rw [leftAfter_zero] at hfirst
    refine ⟨hfirst, fun i hi => ?_, fun i hi => ?_⟩
    · have hlater := h.isSuspect (i + 1) (Nat.succ_lt_succ hi)
      rwa [leftAfter_cons, show first + (i + 1) = first + 1 + i by omega] at hlater
    · have hend := h.ends (i + 1) (Nat.succ_le_succ hi)
      rwa [leftAfter_cons, List.length_cons, Nat.add_right_cancel_iff] at hend
  · rintro ⟨hfirst, hothers⟩
    constructor
    · intro i hi
      cases i with
      | zero =>
        rw [leftAfter_zero]
        exact hfirst
      | succ i =>
        have hlater := hothers.isSuspect i (Nat.lt_of_succ_lt_succ hi)
        rwa [leftAfter_cons, show first + (i + 1) = first + 1 + i by omega]
    · intro i hi
      cases i with
      | zero =>
        rw [leftAfter_zero]
        exact iff_of_false hfirst.leads.exists_ne_nil (Nat.succ_ne_zero _).symm
      | succ i =>
        rw [leftAfter_cons, List.length_cons, Nat.add_right_cancel_iff]
        exact hothers.ends i (Nat.le_of_succ_le_succ hi)

/-! ### The rounds -/

theorem suspectsFrom_of_none (h : mostNamed? (occurrences ops).toList = none) :
    suspectsFrom hosts first ops = [] := by
  rw [suspectsFrom]
  split
  · rfl
  · next hsome => exact absurd (h.symm.trans hsome) (Option.some_ne_none _).symm

theorem suspectsFrom_of_some (h : mostNamed? (occurrences ops).toList = some entry) :
    suspectsFrom hosts first ops =
      { osd := entry.1, count := entry.2, host := hosts.hostOf entry.1, round := first } ::
        suspectsFrom hosts (first + 1) (without entry.1 ops) := by
  rw [suspectsFrom]
  split
  · next hnone => exact absurd (hnone.symm.trans h) (Option.some_ne_none _).symm
  · next hsome => rw [Option.some_inj.mp (hsome.symm.trans h)]

/-- What is found in a round is the entry that is taken. -/
theorem isSuspect_iff (h : mostNamed? (occurrences ops).toList = some entry) :
    IsSuspect hosts first ops suspect ↔ suspect =
      { osd := entry.1, count := entry.2, host := hosts.hostOf entry.1, round := first } := by
  obtain ⟨hleads, hcount⟩ := mostNamed?_occurrences_iff.mp h
  constructor
  · intro hsuspect
    have hosd := hsuspect.leads.unique hleads
    rw [hcount, ← hosd, ← hsuspect.count, ← hsuspect.round]
    exact congrArg (fun host => { suspect with host }) hsuspect.host
  · intro heq
    rw [heq]
    exact ⟨hleads, hcount, rfl, rfl⟩

/-- From any round on, the suspects are the one greedy scan. -/
theorem suspectsFrom_eq_iff :
    suspectsFrom hosts first ops = found ↔ IsGreedyScan hosts first ops found := by
  induction first, ops using suspectsFrom.induct generalizing found with
  | case1 first ops h =>
    have hempty := mostNamed?_occurrences_eq_none_iff.mp h
    rw [suspectsFrom_of_none h]
    cases found with
    | nil => exact iff_of_true rfl (isGreedyScan_nil_iff.mpr hempty)
    | cons suspect found =>
      rw [isGreedyScan_cons_iff]
      exact iff_of_false nofun fun hscan => hscan.1.leads.exists_ne_nil hempty
  | case2 first ops entry h ih =>
    rw [suspectsFrom_of_some h]
    cases found with
    | nil =>
      have hleads := (mostNamed?_occurrences_iff.mp h).1
      rw [isGreedyScan_nil_iff]
      exact iff_of_false nofun hleads.exists_ne_nil
    | cons suspect found =>
      rw [isGreedyScan_cons_iff, isSuspect_iff h, List.cons.injEq, eq_comm]
      refine and_congr_right fun hsuspect => ?_
      rw [hsuspect]
      exact ih

/-- The suspects are the one greedy scan. -/
theorem suspects_eq_iff : suspects ops hosts = found ↔ IsGreedyScan hosts 1 ops found :=
  suspectsFrom_eq_iff

end OsdLatency
