import OsdLatency.Proofs.Readers
import OsdLatency.Proofs.Suspect.Hosts

/-!
# Spaces in front of the lines of a tree

A line of a tree is told by its first characters, so spaces in front of it can make another line of
it: one that would open a host opens none, and one that would be passed over is read. The columns of
a line stay as they are. So only two kinds of lines must not be moved: those that open a host, and
those that begin like a heading or a total and name an OSD.

## Main definitions

* `Text.indent` — a text with spaces in front of its lines
* `HostMap.NeedsStart` — a line that is told by its first characters
* `HostMap.MovesOsd` — a line that must not be moved

## Main results

* `HostMap.step_append` — white space in front of all other lines makes no difference
* `HostMap.movesOsd_iff` — the lines that must not be moved are those told by their first characters
* `HostMap.hosts_indent` — which lines may be moved
* `HostMap.not_forall_hosts_indent` — not all of them
-/

namespace OsdLatency

namespace Text

/-- The text with spaces in front of its lines, as many as are chosen for each. -/
def indent (spaces : ℕ → ℕ) (text : List Char) : List Char :=
  ['\n'].intercalate ((pieces text).mapIdx fun i piece => List.replicate (spaces i) ' ' ++ piece)

theorem pieces_indent (spaces : ℕ → ℕ) (text : List Char) : pieces (indent spaces text) =
    (pieces text).mapIdx fun i piece => List.replicate (spaces i) ' ' ++ piece := by
  rw [pieces_eq_splitOn, indent]
  refine List.splitOn_intercalate '\n' (fun line hline => ?_) ?_
  · obtain ⟨i, hi, rfl⟩ := List.mem_mapIdx.mp hline
    have hpiece : (pieces text)[i] ∈ text.splitOn '\n' := by
      rw [← pieces_eq_splitOn]
      exact List.getElem_mem hi
    have hspaces : '\n' ∉ List.replicate (spaces i) ' ' := fun hmem =>
      absurd (List.eq_of_mem_replicate hmem) (by decide)
    exact fun hmem => (List.mem_append.mp hmem).elim hspaces (not_mem_of_mem_splitOn hpiece)
  · rw [ne_eq, List.mapIdx_eq_nil_iff]
    exact pieces_ne_nil text

theorem isRun_replicate_space {n : ℕ} (h : n ≠ 0) : IsRun isBlank (List.replicate n ' ') := by
  refine ⟨fun hnil => h (by simpa using hnil), fun c hc => ?_⟩
  rw [List.eq_of_mem_replicate hc]
  decide

end Text

namespace HostMap

open Text

variable {line pad : List Char} {osd : UInt32} {host : String}

/-- A line that is told by its first characters: it opens a host, or it is passed over as a heading
or a total although it names an OSD. -/
def NeedsStart (line : List Char) : Prop :=
  OpensHost line ∨ IsSummary line ∧ ∃ osd, NamesOsd osd line

/-- A line that stands in a tree in which spaces in front of it alone give an OSD another host. -/
def MovesOsd (line : List Char) : Prop :=
  ∃ text i, (pieces text)[i]? = some line ∧
    ∀ spaces, spaces i ≠ 0 → (∀ j, j ≠ i → spaces j = 0) →
      ∃ osd, (ofText (indent spaces text)).get? osd ≠ (ofText text).get? osd

/-! ### White space in front of a line -/

/-- No word begins with white space. -/
theorem not_prefix_append {word : List Char} (hword : IsRun isSolid word)
    (hpad : IsRun isBlank pad) (line : List Char) : ¬word <+: pad ++ line := by
  obtain ⟨c, others, rfl, hc⟩ := hword.exists_cons
  obtain ⟨d, blanks, rfl, hd⟩ := hpad.exists_cons
  rw [List.cons_append, List.cons_prefix_cons]
  rintro ⟨rfl, -⟩
  rw [isSolid_eq_true, hd] at hc
  exact Bool.noConfusion hc

theorem not_opensHost_append (hpad : IsRun isBlank pad) (line : List Char) :
    ¬OpensHost (pad ++ line) := fun h => not_prefix_append (by decide) hpad line h.1

theorem not_isSummary_append (hpad : IsRun isBlank pad) (line : List Char) :
    ¬IsSummary (pad ++ line) := by
  rintro (h | h | h)
  · exact not_prefix_append (by decide) hpad line h
  · exact not_prefix_append (by decide) hpad line h
  · exact not_prefix_append (by decide) hpad line h

theorem isPassedOver_append_iff (hpad : IsRun isBlank pad) :
    IsPassedOver (pad ++ line) ↔ IsPad line := by
  rw [IsPassedOver, or_iff_left (not_isSummary_append hpad line)]
  exact ⟨fun h c hc => h c (List.mem_append_right pad hc), hpad.isPad.append⟩

theorem namesOsd_append_iff (hpad : IsRun isBlank pad) :
    NamesOsd osd (pad ++ line) ↔ NamesOsd osd line := by
  simp only [NamesOsd, hasRuns_isSolid_iff, columns_append_of_isPad hpad.isPad]

/-- White space in front of a line that does not need its start makes no difference. -/
theorem step_append (hpad : IsRun isBlank pad) (hline : ¬NeedsStart line) (progress : Progress) :
    progress.step (pad ++ line) = progress.step line := by
  have hosd : osdOf? (pad ++ line) = osdOf? line := by
    rw [osdOf?, columns_append_of_isPad hpad.isPad, osdOf?]
  have hopens : opensHost (pad ++ line) = false :=
    Bool.eq_false_iff.mpr (opensHost_iff.not.mpr (not_opensHost_append hpad line))
  have hopens' : opensHost line = false :=
    Bool.eq_false_iff.mpr (opensHost_iff.not.mpr fun h => hline (Or.inl h))
  have hidle : isIdle (pad ++ line) = true ↔ IsPad line :=
    isIdle_iff.trans (isPassedOver_append_iff hpad)
  simp only [Progress.step_eq_unguardedStep, Progress.unguardedStep, hidle, isIdle_iff, hosd,
    hopens, hopens', IsPassedOver]
  by_cases hblank : IsPad line
  · rw [if_pos hblank, if_pos (Or.inl hblank)]
  · by_cases hsummary : IsSummary line
    · -- The line is read now, but there is no OSD in it.
      have hnone : osdOf? line = none := Option.eq_none_iff_forall_ne_some.mpr fun osd h =>
        hline (Or.inr ⟨hsummary, osd, osdOf?_eq_some_iff.mp h⟩)
      rw [if_neg hblank, if_pos (Or.inr hsummary), hnone]
      rfl
    · rw [if_neg hblank, if_neg (not_or.mpr ⟨hblank, hsummary⟩)]
      rfl

theorem ofText_eq_foldl_pieces (text : List Char) : ofText text =
    ((pieces text).foldl Progress.step { host := none, hosts := Table.empty }).hosts := by
  rw [ofText, foldl_lines_eq_foldl_pieces ignoresEnd_step fun _ => rfl]

theorem ofText_indent {spaces : ℕ → ℕ} {text : List Char}
    (h : ∀ i line, (pieces text)[i]? = some line → spaces i ≠ 0 → ¬NeedsStart line) :
    ofText (indent spaces text) = ofText text := by
  rw [ofText_eq_foldl_pieces, ofText_eq_foldl_pieces, pieces_indent]
  refine congrArg Progress.hosts (foldl_eq_of_map_eq (List.ext_getElem? fun i => ?_) _)
  rw [List.getElem?_map, List.getElem?_map, List.getElem?_mapIdx, Option.map_map]
  refine Option.map_congr fun line hline => funext fun progress => ?_
  by_cases hzero : spaces i = 0
  · simp [hzero]
  · exact step_append (isRun_replicate_space hzero) (h i line hline hzero) progress

/-! ### Lines that need their start -/

theorem get?_ofText_iff {text : List Char} : (ofText text).get? osd = some host ↔
    IsHostOf ((pieces text).filter fun line => ¬IsPassedOver line) osd host := by
  rw [ofText_eq_foldl_pieces]
  exact (Progress.knows_foldl _).hosts osd host

theorem OpensHost.not_isPassedOver (h : OpensHost line) : ¬IsPassedOver line := by
  obtain ⟨rest, rfl⟩ := h.1
  rintro (hpad | hword | hword | hword)
  · exact absurd (hpad '-' List.mem_cons_self) (by decide)
  · simp at hword
  · simp at hword
  · simp at hword

theorem IsSummary.not_isPad (h : IsSummary line) : ¬IsPad line := by
  rintro hpad
  rcases h with ⟨rest, rfl⟩ | ⟨rest, rfl⟩ | ⟨rest, rfl⟩
  · exact absurd (hpad 'I' (by simp)) (by decide)
  · exact absurd (hpad 'M' (by simp)) (by decide)
  · exact absurd (hpad 'T' (by simp)) (by decide)

/-- The line of the OSD with the number zero. -/
def zeroLine : List Char := "osd.0".toList

/-- A line that opens a host. -/
def hostLine : List Char := "- host".toList

theorem namesOsd_zeroLine : NamesOsd 0 zeroLine := osdOf?_eq_some_iff.mp (by decide +kernel)

theorem not_opensHost_zeroLine : ¬OpensHost zeroLine := opensHost_iff.not.mp (by decide +kernel)

theorem opensHost_hostLine : OpensHost hostLine := opensHost_iff.mp (by decide +kernel)

theorem not_isLatestHost_nil : ¬IsLatestHost [] host := fun ⟨_, _, h, _⟩ => not_isLast_nil h

theorem not_isHostOf_hostLine : ¬IsHostOf ([] ++ [hostLine]) osd host := fun h => by
  have hnone : osdOf? hostLine = none := by decide +kernel
  rw [isHostOf_concat, ← osdOf?_eq_some_iff, hnone] at h
  exact h.elim (fun hnames => Option.some_ne_none _ hnames.1.symm) fun hothers =>
    not_isHostOf_nil hothers.2

/-- A tree of two lines. -/
theorem get?_ofText_two_lines {first second : List Char} (hfirst : '\n' ∉ first)
    (hsecond : '\n' ∉ second) : (ofText (first ++ '\n' :: second)).get? osd = some host ↔
      IsHostOf ([first].filter (fun line => ¬IsPassedOver line) ++
        [second].filter fun line => ¬IsPassedOver line) osd host := by
  rw [get?_ofText_iff, pieces_append_newline, pieces_of_not_mem hfirst, pieces_of_not_mem hsecond,
    List.filter_append]

/-- An OSD behind a line has a host exactly if the line opens one. -/
theorem exists_host_iff_opensHost (hline : '\n' ∉ line) :
    (∃ host, (ofText (line ++ '\n' :: zeroLine)).get? 0 = some host) ↔ OpensHost line := by
  have hread : ¬IsPassedOver zeroLine := isIdle_iff.not.mp (by decide +kernel)
  have hzero : [zeroLine].filter (fun line => ¬IsPassedOver line) = [zeroLine] := by simp [hread]
  have hhost : ∀ tree host, IsHostOf (tree ++ [zeroLine]) 0 host ↔ IsLatestHost tree host := by
    intro tree host
    simp [isHostOf_concat, isLatestHost_concat, namesOsd_zeroLine, not_opensHost_zeroLine]
  simp only [get?_ofText_two_lines hline (by decide : '\n' ∉ zeroLine), hzero, hhost]
  by_cases hpassed : IsPassedOver line
  · have hopens : ¬OpensHost line := fun h => h.not_isPassedOver hpassed
    simp [hpassed, hopens, not_isLatestHost_nil]
  · have hsingle : [line].filter (fun line => ¬IsPassedOver line) = [] ++ [line] := by
      simp [hpassed]
    simp only [hsingle, isLatestHost_concat, not_isLatestHost_nil, and_false, or_false,
      exists_and_left]
    exact and_iff_left_of_imp OpensHost.exists_hasHostName

/-- An OSD behind an opened host has a host exactly if its line is read. -/
theorem exists_host_iff_not_isPassedOver (hline : '\n' ∉ line) (hosd : NamesOsd osd line) :
    (∃ host, (ofText (hostLine ++ '\n' :: line)).get? osd = some host) ↔ ¬IsPassedOver line := by
  have hsingle : [hostLine].filter (fun line => ¬IsPassedOver line) = [] ++ [hostLine] := by
    simp [opensHost_hostLine.not_isPassedOver]
  simp only [get?_ofText_two_lines (by decide : '\n' ∉ hostLine) hline, hsingle]
  by_cases hpassed : IsPassedOver line
  · have hnone : [line].filter (fun line => ¬IsPassedOver line) = [] := by simp [hpassed]
    rw [hnone, List.append_nil]
    refine iff_of_false ?_ (not_not.mpr hpassed)
    rintro ⟨_, h⟩
    exact not_isHostOf_hostLine h
  · have hline : [line].filter (fun line => ¬IsPassedOver line) = [line] := by simp [hpassed]
    obtain ⟨name, hname⟩ := opensHost_hostLine.exists_hasHostName
    have hopened : IsLatestHost ([] ++ [hostLine]) name :=
      isLatestHost_concat.mpr (Or.inl ⟨opensHost_hostLine, hname⟩)
    obtain ⟨host, hlatest⟩ := hopened.exists_append [line]
    rw [hline]
    exact iff_of_true ⟨host, isHostOf_concat.mpr (Or.inl ⟨hosd, hlatest⟩)⟩ hpassed

/-- Moving the line of a tree of two lines. -/
theorem indent_two_lines {first second : List Char} (hfirst : '\n' ∉ first)
    (hsecond : '\n' ∉ second) (spaces : ℕ → ℕ) : indent spaces (first ++ '\n' :: second) =
      (List.replicate (spaces 0) ' ' ++ first) ++ '\n' ::
        (List.replicate (spaces 1) ' ' ++ second) := by
  rw [indent, pieces_append_newline, pieces_of_not_mem hfirst, pieces_of_not_mem hsecond]
  simp

/-- A host is lost when its line is moved. -/
theorem OpensHost.movesOsd (hline : '\n' ∉ line) (hopens : OpensHost line) : MovesOsd line := by
  refine ⟨line ++ '\n' :: zeroLine, 0, ?_, fun spaces hmoved hothers => ⟨0, fun heq => ?_⟩⟩
  · rw [pieces_append_newline, pieces_of_not_mem hline]
    rfl
  · have hmovedLine : '\n' ∉ List.replicate (spaces 0) ' ' ++ line := by simp [hline]
    rw [indent_two_lines hline (by decide), hothers 1 one_ne_zero] at heq
    have hiff := exists_host_iff_opensHost hline
    rw [← heq] at hiff
    exact not_opensHost_append (isRun_replicate_space hmoved) line
      ((exists_host_iff_opensHost hmovedLine).mp (hiff.mpr hopens))

/-- An OSD in a heading or a total is found when the line is moved. -/
theorem NamesOsd.movesOsd (hline : '\n' ∉ line) (hosd : NamesOsd osd line)
    (hsummary : IsSummary line) : MovesOsd line := by
  refine ⟨hostLine ++ '\n' :: line, 1, ?_, fun spaces hmoved hothers => ⟨osd, fun heq => ?_⟩⟩
  · rw [pieces_append_newline, pieces_of_not_mem hline]
    rfl
  · have hpad := isRun_replicate_space hmoved
    have hmovedLine : '\n' ∉ List.replicate (spaces 1) ' ' ++ line := by simp [hline]
    rw [indent_two_lines (by decide) hline, hothers 0 zero_ne_one] at heq
    have hiff := exists_host_iff_not_isPassedOver hline hosd
    rw [← heq] at hiff
    have hread := (isPassedOver_append_iff hpad).not.mpr hsummary.not_isPad
    have hosd' := (namesOsd_append_iff hpad).mpr hosd
    exact hiff.mp ((exists_host_iff_not_isPassedOver hmovedLine hosd').mpr hread) (Or.inr hsummary)

theorem movesOsd_iff (hline : '\n' ∉ line) : MovesOsd line ↔ NeedsStart line := by
  constructor
  · rintro ⟨text, i, hi, hmoves⟩
    by_contra hneeds
    obtain ⟨osd, hosd⟩ := hmoves (fun j => if j = i then 1 else 0) (by simp) fun j hj => if_neg hj
    refine hosd (congrArg (Table.get? · osd) (ofText_indent fun j moved hj hmoved => ?_))
    obtain rfl : j = i := by
      by_contra hne
      exact hmoved (if_neg hne)
    rwa [Option.some_inj.mp (hj.symm.trans hi)]
  · rintro (hopens | ⟨hsummary, osd, hosd⟩)
    · exact hopens.movesOsd hline
    · exact hosd.movesOsd hline hsummary

/-- Which lines of a tree may be moved. Spaces in front of any lines that do not need their start
make no difference to the hosts. The lines that need it are just those that stand in a tree whose
hosts are others if the line alone is moved. -/
theorem hosts_indent :
    (∀ text spaces, (∀ i line, (pieces text)[i]? = some line → spaces i ≠ 0 → ¬NeedsStart line) →
      ofText (indent spaces text) = ofText text) ∧
    ∀ line, '\n' ∉ line → (MovesOsd line ↔ NeedsStart line) :=
  ⟨fun _ _ => ofText_indent, fun _ => movesOsd_iff⟩

/-- The line of an OSD may be moved, the line of a host must not be. -/
theorem hosts_indent_rightAligned :
    ofText (indent (fun i => if i = 1 then 2 else 0) "-10 host node-a\n1 osd.1".toList) =
      ofText "-10 host node-a\n1 osd.1".toList ∧ MovesOsd hostLine := by
  refine ⟨hosts_indent.1 _ _ fun i line hline hmoved => ?_,
    (hosts_indent.2 hostLine (by decide)).mpr (Or.inl opensHost_hostLine)⟩
  have hi : i = 1 := by
    by_contra hne
    exact hmoved (if_neg hne)
  subst hi
  have hosd : line = "1 osd.1".toList := by
    have hpiece : (pieces "-10 host node-a\n1 osd.1".toList)[1]? = some "1 osd.1".toList := by
      decide +kernel
    exact Option.some_inj.mp (hline.symm.trans hpiece)
  subst hosd
  rintro (hopens | ⟨hsummary, -⟩)
  · exact opensHost_iff.not.mp (by decide +kernel) hopens
  · revert hsummary
    unfold IsSummary
    decide

/-- The lines of a tree cannot all be moved: a host whose number is shorter by a digit, aligned to
the right, hands its OSDs to the host before. -/
theorem not_forall_hosts_indent :
    ¬∀ text spaces osd, (ofText (indent spaces text)).get? osd = (ofText text).get? osd := by
  intro h
  have hsecond := h "-10 host node-a\n  1 osd.1\n-9 host node-b\n  2 osd.2\n".toList
    (fun i => if i = 2 then 1 else 0) 2
  have hmoved : (ofText (indent (fun i => if i = 2 then 1 else 0)
      "-10 host node-a\n  1 osd.1\n-9 host node-b\n  2 osd.2\n".toList)).get? 2 =
        some "node-a" := by
    decide +kernel
  have hgiven : (ofText "-10 host node-a\n  1 osd.1\n-9 host node-b\n  2 osd.2\n".toList).get? 2 =
      some "node-b" := by
    decide +kernel
  rw [hmoved, hgiven] at hsecond
  exact absurd hsecond (by decide)

end HostMap

end OsdLatency
