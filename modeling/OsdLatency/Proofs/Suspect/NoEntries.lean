import OsdLatency.Proofs.CommandLine.FullSink
import OsdLatency.Proofs.Suspect.Greedy
import OsdLatency.Proofs.Suspect.Log

/-!
# When a scan finds no entries

A scan says that there are no matching entries if it has no suspects. A line is a slow operation by
its latency alone, but it makes a suspect only if its acting set names an OSD. So a log whose slow
operations name none is reported like one without slow operations.

## Main definitions

* `Run.WritesLine` — a run writes a line in one of its steps
* `SuspectReport.noEntries` — the message

## Main results

* `Scan.writes_noEntries_iff` — when the message is written
* `Scan.not_forall_writes_noEntries_iff` — not only without slow operations
-/

namespace OsdLatency

open Text

variable {ops : List SlowOp} {hosts : HostMap}

/-- A scan has no suspects exactly if no slow operation names an OSD. -/
theorem suspects_eq_nil_iff : suspects ops hosts = [] ↔ ∀ op ∈ ops, op = [] :=
  suspectsFrom_eq_iff.trans isGreedyScan_nil_iff

/-! ### The message -/

namespace SuspectReport

/-- The message of a scan without suspects. -/
def noEntries : String := "No matching entries found with the given criteria."

theorem lines_nil (operations : ℕ) : lines [] operations = [noEntries] := rfl

/-- A line that does not begin like the message. -/
def BeginsElse (line : String) : Prop := line.toList.head? ≠ some 'N'

instance : DecidablePred BeginsElse := fun _ => inferInstanceAs (Decidable (_ ≠ _))

theorem not_beginsElse_noEntries : ¬BeginsElse noEntries := by decide

theorem beginsElse_roundLine (s : Suspect) : BeginsElse (roundLine s) := by
  unfold BeginsElse roundLine
  simp only [String.toList_append, List.append_assoc]
  change some '[' ≠ some 'N'
  decide

/-- A row begins with the text of its first column. -/
theorem exists_toList_row (rank osd count host round : String) :
    ∃ rest, (row rank osd count host round).toList = rank.toList ++ rest := by
  unfold row
  simp only [String.toList_intercalate, Text.toList_alignLeft, List.rightpad, List.map_cons,
    List.intercalate, List.intersperse_cons_cons, List.flatten_cons, List.append_assoc]
  exact ⟨_, rfl⟩

theorem beginsElse_suspectRow (rank : ℕ) (s : Suspect) : BeginsElse (suspectRow rank s) := by
  intro h
  obtain ⟨rest, hrow⟩ := exists_toList_row (toString rank) s!"osd.{s.osd}" (toString s.count)
    s.host (toString s.round)
  rw [suspectRow, hrow, Nat.toString_eq_repr, Nat.toList_repr,
    List.head?_append_of_ne_nil _ Nat.toDigits_ne_nil] at h
  have hdigit := Nat.isDigit_of_mem_toDigits (by norm_num) le_rfl (List.mem_of_head? h)
  exact absurd hdigit (by decide)

theorem beginsElse_of_mem_summary {found : List Suspect} {operations : ℕ} :
    ∀ line ∈ summary found operations, BeginsElse line := by
  have htop : ∀ line ∈ ["", rule, "=== SUMMARY: Problematic OSDs Identified ===", rule,
      row "Rank" "OSD" "Count" "Host" "Iteration", thinRule], BeginsElse line := by
    decide +kernel
  unfold summary
  rw [List.forall_mem_append, List.forall_mem_append]
  refine ⟨⟨htop, fun line hline => ?_⟩, ?_⟩
  · obtain ⟨index, hindex, rfl⟩ := List.mem_mapIdx.mp hline
    exact beginsElse_suspectRow _ _
  · have htotal : some 'T' ≠ some 'N' := by decide
    simp only [List.forall_mem_cons, BeginsElse, String.toList_append]
    exact ⟨by decide, htotal, htotal, by decide, List.forall_mem_nil _⟩

/-- No line about suspects begins like the message. -/
theorem beginsElse_of_mem_lines {found : List Suspect} {operations : ℕ} (hne : found ≠ []) :
    ∀ line ∈ lines found operations, BeginsElse line := by
  have htop : ∀ line ∈ ["", rule, "Starting iterative analysis to identify problematic OSDs...",
      rule], BeginsElse line := by decide +kernel
  rw [lines, if_neg (by simpa using hne)]
  rw [List.forall_mem_append, List.forall_mem_append, List.forall_mem_append, List.forall_mem_map]
  refine ⟨⟨⟨htop, fun s _ => beginsElse_roundLine s⟩, ?_⟩, beginsElse_of_mem_summary⟩
  have hround : some '[' ≠ some 'N' := by decide
  simp only [List.forall_mem_cons, BeginsElse, String.toList_append]
  exact ⟨by decide, hround, List.forall_mem_nil _⟩

theorem noEntries_mem_lines_iff {found : List Suspect} {operations : ℕ} :
    noEntries ∈ lines found operations ↔ found = [] := by
  constructor
  · intro hmem
    by_contra hne
    exact not_beginsElse_noEntries (beginsElse_of_mem_lines hne _ hmem)
  · rintro rfl
    rw [lines_nil]
    exact List.mem_singleton_self _

end SuspectReport

/-! ### Written texts -/

namespace Run

variable {α β : Type} {first : Run α} {second : α → Run β} {value : α} {line : String}

/-- A run writes a line in one of its steps. -/
def WritesLine (run : Run α) (line : String) : Prop := Step.write (line ++ "\n") ∈ run.steps

theorem writesLine_bind_ok (h : first.outcome = .ok value) :
    (first >>= second).WritesLine line ↔ first.WritesLine line ∨ (second value).WritesLine line := by
  rw [WritesLine, bind_ok h]
  exact List.mem_append

theorem writesLine_writeLines_iff {lines : List String} :
    (writeLines lines).WritesLine line ↔ line ∈ lines := by
  simp only [WritesLine, writeLines, List.mem_map, Step.write.injEq, String.append_left_inj,
    exists_eq_right]

/-- A run that has written nothing has not written a line. -/
theorem Yields.not_writesLine (h : first.Yields value "") : ¬first.WritesLine line := by
  intro hwrites
  obtain ⟨front, back, hsteps⟩ := List.append_of_mem hwrites
  have houtput : String.join (first.steps.map Step.text) = "" := h.output
  rw [hsteps, List.map_append, List.map_cons, String.join_append, String.join_cons] at houtput
  have hnil := congrArg String.toList houtput
  simp [Step.text] at hnil

end Run

/-! ### Scans -/

namespace Scan

open SuspectReport (noEntries header)

variable {scan : Scan} {files : FileReader} {log tree : List UInt8} {line : String}

/-- A scan writes the lines of its heading and of its report. -/
theorem writesLine_iff (hlog : files scan.log = .ok log) (htree : files scan.tree = .ok tree) :
    (scan.run files).WritesLine line ↔
      line ∈ header scan.log scan.tree scan.threshold ∨
        line ∈ SuspectReport.lines
          (suspects (SlowOp.ofText scan.threshold (Utf8.decode log))
            (HostMap.ofText (Utf8.decode tree)))
          (SlowOp.ofText scan.threshold (Utf8.decode log)).length := by
  have hread := yields_readLog hlog
  have hmap := yields_readTree htree
  rw [run, Run.writesLine_bind_ok rfl, Run.writesLine_bind_ok hread.outcome,
    Run.writesLine_bind_ok hmap.outcome, or_iff_right hread.not_writesLine,
    or_iff_right hmap.not_writesLine, Run.writesLine_writeLines_iff, Run.writesLine_writeLines_iff]

theorem noEntries_not_mem_header (log tree : String) (threshold : UInt64) :
    noEntries ∉ header log tree threshold := by
  have hhead : ∀ line ∈ header log tree threshold, SuspectReport.BeginsElse line := by
    have hfirst : some 'A' ≠ some 'N' ∧ some 'O' ≠ some 'N' ∧ some 'L' ≠ some 'N' := by decide
    simp only [header, List.forall_mem_cons, SuspectReport.BeginsElse, String.toList_append]
    exact ⟨hfirst.1, hfirst.2.1, hfirst.2.2, List.forall_mem_nil _⟩
  exact fun hmem => SuspectReport.not_beginsElse_noEntries (hhead _ hmem)

/-- The operations decide, whatever the tree says. -/
theorem writes_noEntries_iff_of_ops (hlog : files scan.log = .ok log)
    (htree : files scan.tree = .ok tree) : (scan.run files).WritesLine noEntries ↔
      ∀ op ∈ SlowOp.ofText scan.threshold (Utf8.decode log), op = [] := by
  rw [writesLine_iff hlog htree, or_iff_right (noEntries_not_mem_header _ _ _),
    SuspectReport.noEntries_mem_lines_iff, suspects_eq_nil_iff]

/-- A scan that succeeds says that there are no matching entries exactly if no slow operation of its
log names an OSD. Without slow operations it says so too, but not only then. -/
theorem writes_noEntries_iff (hlog : files scan.log = .ok log)
    (htree : files scan.tree = .ok tree) :
    (scan.run files).outcome = .ok () ∧
      ((scan.run files).WritesLine noEntries ↔ ∀ line ∈ lines (Utf8.decode log),
        SlowOp.IsSlow scan.threshold line → ∀ osd, ¬SlowOp.Names line osd) ∧
      (SlowOp.ofText scan.threshold (Utf8.decode log) = [] ↔
        ∀ line ∈ lines (Utf8.decode log), ¬SlowOp.IsSlow scan.threshold line) := by
  refine ⟨(yields_run hlog htree).outcome, ?_, SlowOp.ofText_eq_nil_iff⟩
  rw [writes_noEntries_iff_of_ops hlog htree, SlowOp.forall_mem_ofText_iff]

/-- A log with one slow operation, which has an empty acting set. -/
def namelessLog : List UInt8 := bytesOf "a b c d e [] f g 150000\n"

/-- A scan of that log with an empty tree. -/
def namelessFiles : FileReader := fun path => .ok (if path = "rados.log" then namelessLog else [])

/-- A scan with the usual threshold. -/
def usualScan : Scan := { log := "rados.log", tree := "tree.txt", threshold := 100000 }

theorem ofText_namelessLog : SlowOp.ofText 100000 (Utf8.decode namelessLog) = [[]] := by
  decide +kernel

theorem writes_noEntries_nameless :
    (usualScan.run namelessFiles).outcome = .ok () ∧
      (usualScan.run namelessFiles).WritesLine noEntries ∧
      ¬∀ line ∈ lines (Utf8.decode namelessLog), ¬SlowOp.IsSlow 100000 line := by
  have hlog : namelessFiles usualScan.log = .ok namelessLog := by decide +kernel
  have htree : namelessFiles usualScan.tree = .ok [] := by decide +kernel
  obtain ⟨houtcome, hwrites, hslow⟩ := writes_noEntries_iff hlog htree
  have hops : ∀ op ∈ SlowOp.ofText 100000 (Utf8.decode namelessLog), op = [] := by
    rw [ofText_namelessLog]
    exact fun op => List.mem_singleton.mp
  refine ⟨houtcome, hwrites.mpr (SlowOp.forall_mem_ofText_iff.mp hops), fun hnone => ?_⟩
  have hnil := hslow.mpr hnone
  change SlowOp.ofText 100000 (Utf8.decode namelessLog) = [] at hnil
  rw [ofText_namelessLog] at hnil
  exact List.cons_ne_nil _ _ hnil

/-- The message does not mean that no line reaches the threshold: it is also written if the lines
that do have empty acting sets. -/
theorem not_forall_writes_noEntries_iff :
    ¬∀ (scan : Scan) (files : FileReader) (log tree : List UInt8), files scan.log = .ok log →
      files scan.tree = .ok tree →
        ((scan.run files).WritesLine noEntries ↔
          ∀ line ∈ lines (Utf8.decode log), ¬SlowOp.IsSlow scan.threshold line) := by
  intro hall
  have hlog : namelessFiles usualScan.log = .ok namelessLog := by decide +kernel
  have htree : namelessFiles usualScan.tree = .ok [] := by decide +kernel
  have hops : SlowOp.ofText usualScan.threshold (Utf8.decode namelessLog) = [[]] :=
    ofText_namelessLog
  have hiff := hall usualScan namelessFiles namelessLog [] hlog htree
  rw [writes_noEntries_iff_of_ops hlog htree, ← SlowOp.ofText_eq_nil_iff, hops] at hiff
  exact List.cons_ne_nil _ _ (hiff.mp fun op => List.mem_singleton.mp)

end Scan

end OsdLatency
