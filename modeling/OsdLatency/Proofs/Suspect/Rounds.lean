import Mathlib.Data.Finset.Card
import OsdLatency.Proofs.Suspect.Greedy

/-!
# The rounds of a scan

A scan goes from round to round without counting them. Every round reports an OSD that some
operation names and drops that operation, so it leaves fewer operations that name an OSD and fewer
OSDs that are named. The scan ends for this, and every operation that it has dropped names one of
the OSDs that it has reported.

## Main definitions

* `ScanState`, `ScanState.next?` — the scan between two rounds, and one round
* `Rounds` — a number of rounds from one state to another
* `namingCount`, `osdCount` — how many operations name an OSD, and how many OSDs they name

## Main results

* `ScanState.exists_of_next?` — what one round does
* `Rounds.namingCount_le`, `Rounds.osdCount_le` — every round leaves less to do
* `Rounds.found_append` — the rounds report the suspects
* `Rounds.covers` — what is dropped is covered
* `scan_ends` — the scan ends, in few rounds, and covers all operations
-/

namespace OsdLatency

variable {hosts : HostMap} {n : ℕ} {s t : ScanState} {ops : List SlowOp} {op : SlowOp}
  {osd : UInt32}

/-- The scan between two rounds. -/
structure ScanState where
  found : List Suspect
  remaining : List SlowOp
  round : ℕ

namespace ScanState

/-- The scan before the first round. -/
def start (ops : List SlowOp) : ScanState := { found := [], remaining := ops, round := 1 }

/-- One round, or none if the scan is over. -/
def next? (hosts : HostMap) (s : ScanState) : Option ScanState :=
  (mostNamed? (occurrences s.remaining).toList).map fun entry =>
    { found := s.found ++
        [{ osd := entry.1, count := entry.2, host := hosts.hostOf entry.1, round := s.round }]
      remaining := without entry.1 s.remaining
      round := s.round + 1 }

/-- The scan is over as soon as no operation that is left names an OSD. -/
theorem next?_eq_none_iff : s.next? hosts = none ↔ ∀ op ∈ s.remaining, op = [] := by
  rw [next?, Option.map_eq_none_iff, mostNamed?_occurrences_eq_none_iff]

/-- A round reports a suspect and drops the operations that name it. -/
theorem exists_of_next? (h : s.next? hosts = some t) :
    ∃ suspect, IsSuspect hosts s.round s.remaining suspect ∧
      t = { found := s.found ++ [suspect]
            remaining := without suspect.osd s.remaining
            round := s.round + 1 } ∧
      suspectsFrom hosts s.round s.remaining =
        suspect :: suspectsFrom hosts t.round t.remaining := by
  obtain ⟨entry, hentry, rfl⟩ := Option.map_eq_some_iff.mp h
  exact ⟨_, (isSuspect_iff hentry).mpr rfl, rfl, suspectsFrom_of_some hentry⟩

end ScanState

/-- A number of rounds from one state to another. -/
inductive Rounds (hosts : HostMap) : ℕ → ScanState → ScanState → Prop
  | refl (s : ScanState) : Rounds hosts 0 s s
  | head {n : ℕ} {s t u : ScanState} (hnext : s.next? hosts = some t) (h : Rounds hosts n t u) :
    Rounds hosts (n + 1) s u

/-- How many operations name an OSD. -/
def namingCount (ops : List SlowOp) : ℕ := (ops.filter (· ≠ [])).length

/-- How many OSDs are named. -/
def osdCount (ops : List SlowOp) : ℕ := (mentions ops).toFinset.card

/-! ### One round -/

theorem mem_mentions : osd ∈ mentions ops ↔ ∃ op ∈ ops, osd ∈ op := List.mem_flatten

theorem mem_without : op ∈ without osd ops ↔ op ∈ ops ∧ osd ∉ op := by
  simp [without]

/-- An operation that names the OSD is dropped. -/
theorem namingCount_without_lt (h : osd ∈ mentions ops) :
    namingCount (without osd ops) < namingCount ops := by
  obtain ⟨op, hop, hosd⟩ := mem_mentions.mp h
  have hnaming : op ∈ ops.filter (· ≠ []) :=
    List.mem_filter.mpr ⟨hop, by simpa using List.ne_nil_of_mem hosd⟩
  rw [namingCount, namingCount, without, List.filter_comm, List.length_filter_lt_length_iff_exists]
  exact ⟨op, hnaming, by simpa using hosd⟩

/-- The OSD itself is named no more. -/
theorem osdCount_without_lt (h : osd ∈ mentions ops) :
    osdCount (without osd ops) < osdCount ops := by
  refine Finset.card_lt_card (Finset.ssubset_iff_of_subset ?_ |>.mpr ⟨osd, ?_, ?_⟩)
  · intro other hother
    obtain ⟨op, hop, hmem⟩ := mem_mentions.mp (List.mem_toFinset.mp hother)
    exact List.mem_toFinset.mpr (mem_mentions.mpr ⟨op, (mem_without.mp hop).1, hmem⟩)
  · exact List.mem_toFinset.mpr h
  · intro hosd
    obtain ⟨op, hop, hmem⟩ := mem_mentions.mp (List.mem_toFinset.mp hosd)
    exact (mem_without.mp hop).2 hmem

/-! ### All rounds -/

namespace Rounds

/-- Every round leaves fewer operations that name an OSD. -/
theorem namingCount_le (h : Rounds hosts n s t) :
    n + namingCount t.remaining ≤ namingCount s.remaining := by
  induction h with
  | refl => exact (Nat.zero_add _).le
  | head hnext _ ih =>
    obtain ⟨suspect, hsuspect, rfl, -⟩ := ScanState.exists_of_next? hnext
    have hless := namingCount_without_lt hsuspect.leads.1
    dsimp only at ih
    omega

/-- Every round leaves fewer OSDs. -/
theorem osdCount_le (h : Rounds hosts n s t) :
    n + osdCount t.remaining ≤ osdCount s.remaining := by
  induction h with
  | refl => exact (Nat.zero_add _).le
  | head hnext _ ih =>
    obtain ⟨suspect, hsuspect, rfl, -⟩ := ScanState.exists_of_next? hnext
    have hless := osdCount_without_lt hsuspect.leads.1
    dsimp only at ih
    omega

/-- Every round reports one suspect. -/
theorem length_found (h : Rounds hosts n s t) : t.found.length = s.found.length + n := by
  induction h with
  | refl => rfl
  | head hnext _ ih =>
    obtain ⟨suspect, -, rfl, -⟩ := ScanState.exists_of_next? hnext
    rw [ih, List.length_append, List.length_singleton]
    omega

/-- What has been found and what will be found are all suspects. -/
theorem found_append (h : Rounds hosts n s t) :
    t.found ++ suspectsFrom hosts t.round t.remaining =
      s.found ++ suspectsFrom hosts s.round s.remaining := by
  induction h with
  | refl => rfl
  | head hnext _ ih =>
    obtain ⟨suspect, -, rfl, hrest⟩ := ScanState.exists_of_next? hnext
    rw [ih, hrest, List.append_assoc, List.singleton_append]

theorem mem_found (h : Rounds hosts n s t) {suspect : Suspect} (hmem : suspect ∈ s.found) :
    suspect ∈ t.found := by
  induction h with
  | refl => exact hmem
  | head hnext _ ih =>
    obtain ⟨suspect, -, rfl, -⟩ := ScanState.exists_of_next? hnext
    exact ih (List.mem_append_left _ hmem)

/-- What is dropped names a suspect. -/
theorem covers (h : Rounds hosts n s t) (hop : op ∈ s.remaining) :
    op ∈ t.remaining ∨ ∃ suspect ∈ t.found, suspect.osd ∈ op := by
  induction h with
  | refl => exact Or.inl hop
  | head hnext hrounds ih =>
    obtain ⟨suspect, -, rfl, -⟩ := ScanState.exists_of_next? hnext
    by_cases hosd : suspect.osd ∈ op
    · exact Or.inr ⟨suspect, hrounds.mem_found (by simp), hosd⟩
    · exact ih (mem_without.mpr ⟨hop, hosd⟩)

end Rounds

/-- From every state the scan comes to an end. -/
theorem exists_rounds (hosts : HostMap) (s : ScanState) :
    ∃ n t, Rounds hosts n s t ∧ t.next? hosts = none := by
  induction hcount : namingCount s.remaining using Nat.strongRecOn generalizing s with
  | ind count ih =>
    cases hnext : s.next? hosts with
    | none => exact ⟨0, s, .refl s, hnext⟩
    | some t =>
      have hless := (Rounds.head hnext (.refl t)).namingCount_le
      obtain ⟨n, u, hrounds, hend⟩ := ih _ (by omega) t rfl
      exact ⟨n + 1, u, .head hnext hrounds, hend⟩

/-- A scan has no more rounds than there are operations that name an OSD, and no more than there are
OSDs. It ends with the suspects, and every operation that names an OSD names one of them. -/
theorem scan_ends (hosts : HostMap) (ops : List SlowOp) :
    (∀ n s, Rounds hosts n (.start ops) s → n ≤ namingCount ops ∧ n ≤ osdCount ops) ∧
      ∃ n s, Rounds hosts n (.start ops) s ∧ s.next? hosts = none ∧
        s.found = suspects ops hosts ∧ s.found.length = n ∧
        ∀ op ∈ ops, op ≠ [] → ∃ suspect ∈ suspects ops hosts, suspect.osd ∈ op := by
  constructor
  · intro n s hrounds
    have hnaming := hrounds.namingCount_le
    have hosds := hrounds.osdCount_le
    exact ⟨(Nat.le_add_right _ _).trans hnaming, (Nat.le_add_right _ _).trans hosds⟩
  · obtain ⟨n, s, hrounds, hend⟩ := exists_rounds hosts (.start ops)
    have hempty := ScanState.next?_eq_none_iff.mp hend
    have hfound : s.found = suspects ops hosts := by
      have hall := hrounds.found_append
      rwa [suspectsFrom_of_none (mostNamed?_occurrences_eq_none_iff.mpr hempty),
        List.append_nil] at hall
    refine ⟨n, s, hrounds, hend, hfound, hrounds.length_found.trans (Nat.zero_add n), ?_⟩
    intro op hop hnaming
    rw [← hfound]
    exact (hrounds.covers hop).resolve_left fun hleft => hnaming (hempty op hleft)

/-- Two operations that share no OSD take two rounds, and one that names none takes no round. -/
theorem scan_ends_apart :
    ∃ s, Rounds Table.empty 2 (.start [[7], [], [6]]) s ∧ s.next? Table.empty = none ∧
      2 ≤ namingCount [[7], [], [6]] ∧ 2 ≤ osdCount [[7], [], [6]] ∧
      ∃ suspect ∈ suspects [[7], [], [6]] Table.empty, suspect.osd ∈ ([6] : SlowOp) := by
  obtain ⟨hbounds, n, s, hrounds, hend, hfound, hlength, hcovers⟩ :=
    scan_ends Table.empty [[7], [], [6]]
  obtain rfl : n = 2 := by
    rw [← hlength, hfound]
    decide +kernel
  obtain ⟨hnaming, hosds⟩ := hbounds 2 s hrounds
  exact ⟨s, hrounds, hend, hnaming, hosds, hcovers [6] (by decide) (by decide)⟩

end OsdLatency
