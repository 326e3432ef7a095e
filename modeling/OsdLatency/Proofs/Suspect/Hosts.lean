import Mathlib.Data.List.Induction
import OsdLatency.Proofs.Table
import OsdLatency.Proofs.Text.Columns
import OsdLatency.Proofs.Text.LineEnds
import OsdLatency.Proofs.Text.Numerals
import OsdLatency.Suspect.HostMap

/-!
# The hosts of a tree

A tree is read line by line, with the host opened last carried along. What comes out of it depends
on two lines for each OSD: the last line that names the OSD, and the latest line up to there that
opens a host. Lines that are passed over count for neither, and a line can be both.

## Main definitions

* `IsLast` — the last element of a list with a property
* `HostMap.IsPassedOver`, `HostMap.OpensHost`, `HostMap.NamesOsd` — what a line of a tree is
* `HostMap.IsLatestHost`, `HostMap.IsHostOf` — the host opened last, and the host of an OSD
* `HostMap.Progress.unguardedStep` — reading a line without a search for the mark of an OSD

## Main results

* `HostMap.Progress.Knows.step` — what reading one more line keeps
* `HostMap.Progress.knows_foldl` — what is known after all lines
* `HostMap.hosts_exact` — the hosts of a tree
-/

namespace OsdLatency

/-! ### Last elements -/

section Last

variable {α : Type*} {p : α → Prop} {l front : List α} {a x : α}

/-- The last element of a list with a property, and what stands in front of it. -/
def IsLast (p : α → Prop) (l front : List α) (a : α) : Prop :=
  ∃ back, l = front ++ a :: back ∧ p a ∧ ∀ b ∈ back, ¬p b

theorem not_isLast_nil : ¬IsLast p [] front a := by
  rintro ⟨back, h, -⟩
  exact List.cons_ne_nil _ _ (List.append_eq_nil_iff.mp h.symm).2

/-- One more element is the last one with a property, or makes no difference. -/
theorem isLast_concat :
    IsLast p (l ++ [x]) front a ↔ p x ∧ front = l ∧ a = x ∨ ¬p x ∧ IsLast p l front a := by
  constructor
  · rintro ⟨back, h, ha, hback⟩
    rcases List.eq_nil_or_concat back with rfl | ⟨back, y, rfl⟩
    · obtain ⟨rfl, hx⟩ := List.append_inj' h rfl
      obtain rfl := List.singleton_inj.mp hx
      exact Or.inl ⟨ha, rfl, rfl⟩
    · rw [List.concat_eq_append, ← List.cons_append, ← List.append_assoc] at h
      obtain ⟨rfl, hx⟩ := List.append_inj' h rfl
      obtain rfl := List.singleton_inj.mp hx
      rw [List.concat_eq_append, List.forall_mem_append, List.forall_mem_singleton] at hback
      exact Or.inr ⟨hback.2, back, rfl, ha, hback.1⟩
  · rintro (⟨hx, rfl, rfl⟩ | ⟨hx, back, rfl, ha, hback⟩)
    · exact ⟨[], rfl, hx, List.forall_mem_nil _⟩
    · refine ⟨back ++ [x], by simp, ha, ?_⟩
      rw [List.forall_mem_append, List.forall_mem_singleton]
      exact ⟨hback, hx⟩

theorem exists_isLast_concat {q : List α → α → Prop} :
    (∃ front a, IsLast p (l ++ [x]) front a ∧ q front a) ↔
      p x ∧ q l x ∨ ¬p x ∧ ∃ front a, IsLast p l front a ∧ q front a := by
  simp only [isLast_concat]
  constructor
  · rintro ⟨front, a, ⟨hx, rfl, rfl⟩ | ⟨hx, hlast⟩, hq⟩
    · exact Or.inl ⟨hx, hq⟩
    · exact Or.inr ⟨hx, front, a, hlast, hq⟩
  · rintro (⟨hx, hq⟩ | ⟨hx, front, a, hlast, hq⟩)
    · exact ⟨l, x, Or.inl ⟨hx, rfl, rfl⟩, hq⟩
    · exact ⟨front, a, Or.inr ⟨hx, hlast⟩, hq⟩

end Last

namespace HostMap

open Text

variable {line text : List Char} {tree : List (List Char)} {osd : UInt32} {host : String}
  {progress : Progress}

/-! ### Lines of a tree -/

/-- A line that begins like the heading or like one of the totals. -/
def IsSummary (line : List Char) : Prop :=
  "ID".toList <+: line ∨ "MIN/MAX".toList <+: line ∨ "TOTAL".toList <+: line

/-- A line that is passed over. -/
def IsPassedOver (line : List Char) : Prop := IsPad line ∨ IsSummary line

instance : DecidablePred IsSummary := fun _ => inferInstanceAs (Decidable (_ ∨ _))

instance : DecidablePred IsPassedOver := fun _ => inferInstanceAs (Decidable (_ ∨ _))

/-- A line that opens a host: it begins with a minus sign and mentions `host`. -/
def OpensHost (line : List Char) : Prop := ['-'] <+: line ∧ "host".toList <:+: line

/-- The last column of a line. -/
def HasHostName (line : List Char) (host : String) : Prop :=
  ∃ found, HasRuns isSolid line found ∧ found.getLast? = some host.toList

/-- The number of an OSD stands behind the mark in the first column that begins with the mark, up to
the next point. -/
def NamesOsd (osd : UInt32) (line : List Char) : Prop :=
  ∃ found, HasRuns isSolid line found ∧ ∃ before text after,
    found = before ++ ("osd.".toList ++ text) :: after ∧
    (∀ column ∈ before, ¬"osd.".toList <+: column) ∧
    IsUnsigned osd.toNat (text.takeWhile (· != '.'))

/-- The lines of a tree that are not passed over. -/
def treeLines (text : List Char) : List (List Char) :=
  (lines text).filter fun line => ¬IsPassedOver line

/-- The host opened last by some lines. -/
def IsLatestHost (tree : List (List Char)) (host : String) : Prop :=
  ∃ front line, IsLast OpensHost tree front line ∧ HasHostName line host

/-- The host of an OSD is the latest one at the last line that names the OSD and has a host opened
in it or in front of it. -/
def IsHostOf (tree : List (List Char)) (osd : UInt32) (host : String) : Prop :=
  ∃ front line back, tree = front ++ line :: back ∧
    NamesOsd osd line ∧ IsLatestHost (front ++ [line]) host ∧
    ∀ between later rest, back = between ++ later :: rest → NamesOsd osd later →
      ∀ other, ¬IsLatestHost (front ++ line :: (between ++ [later])) other

theorem isIdle_iff : isIdle line = true ↔ IsPassedOver line := by
  simp only [isIdle, Bool.or_eq_true, List.all_eq_true, List.isPrefixOf_iff_prefix]
  rw [or_assoc, or_assoc]
  rfl

theorem opensHost_iff : opensHost line = true ↔ OpensHost line := by
  rw [opensHost, Bool.and_eq_true, occursIn_iff, OpensHost, beq_iff_eq, List.head?_eq_some_iff]
  exact and_congr_left fun _ => exists_congr fun rest => eq_comm

theorem getLast?_columns_iff :
    (columns line).getLast?.map String.ofList = some host ↔ HasHostName line host := by
  simp only [HasHostName, hasRuns_isSolid_iff, exists_eq_left', Option.map_eq_some_iff]
  constructor
  · rintro ⟨column, hcolumn, rfl⟩
    rw [hcolumn, String.toList_ofList]
  · intro hcolumn
    exact ⟨_, hcolumn, String.ofList_toList⟩

/-- What stands behind the mark, if a column begins with it. -/
theorem behindMark?_eq_some_iff {column behind : List Char} :
    behindMark? column = some behind ↔ column = "osd.".toList ++ behind := by
  rw [behindMark?, Option.ite_none_right_eq_some, List.isPrefixOf_iff_prefix, Option.some_inj]
  constructor
  · rintro ⟨⟨rest, rfl⟩, rfl⟩
    rfl
  · rintro rfl
    exact ⟨List.prefix_append _ _, rfl⟩

theorem behindMark?_eq_none_iff {column : List Char} :
    behindMark? column = none ↔ ¬"osd.".toList <+: column := by
  rw [behindMark?, ite_eq_right_iff, ← List.isPrefixOf_iff_prefix]
  exact imp_congr_right fun _ => iff_of_false (Option.some_ne_none _) id

theorem osdOf?_eq_some_iff : osdOf? line = some osd ↔ NamesOsd osd line := by
  simp only [osdOf?, NamesOsd, hasRuns_isSolid_iff, exists_eq_left', Option.bind_eq_some_iff,
    List.findSome?_eq_some_iff, behindMark?_eq_some_iff, behindMark?_eq_none_iff,
    uint32?_eq_some_iff, isNumeral_dropPlus_iff]
  constructor
  · rintro ⟨text, ⟨before, _, after, hfound, rfl, hbefore⟩, hosd⟩
    exact ⟨before, text, after, hfound, hbefore, hosd⟩
  · rintro ⟨before, text, after, hfound, hbefore, hosd⟩
    exact ⟨text, ⟨before, _, after, hfound, rfl, hbefore⟩, hosd⟩

/-- A line that opens a host has a column, and so a name for it. -/
theorem OpensHost.exists_hasHostName (h : OpensHost line) : ∃ host, HasHostName line host := by
  obtain ⟨rest, rfl⟩ := h.1
  have hsolid : isSolid '-' = true := by decide
  rw [List.singleton_append]
  have hcolumns := columns_cons_of_isSolid hsolid rest
  obtain ⟨host, hhost⟩ := Option.isSome_iff_exists.mp
    (List.getLast?_isSome.mpr (hcolumns ▸ List.cons_ne_nil _ _ : columns ('-' :: rest) ≠ []))
  exact ⟨String.ofList host, getLast?_columns_iff.mp (congrArg _ hhost)⟩

/-- A line that names an OSD mentions the mark. -/
theorem NamesOsd.occursIn (h : NamesOsd osd line) : Text.occursIn "osd." line = true := by
  obtain ⟨found, hfound, before, text, after, rfl, -⟩ := h
  have hcolumn : "osd.".toList ++ text ∈ Scanner.findAll (Scanner.run isSolid) line := by
    rw [hasRuns_iff.mp hfound]
    exact List.mem_append_right before List.mem_cons_self
  obtain ⟨-, front, rest, rfl, -⟩ := Scanner.mem_findAll_run_iff.mp hcolumn
  exact occursIn_iff.mpr ⟨front, text ++ rest, by simp only [List.append_assoc]⟩

/-! ### What one more line adds -/

theorem isLatestHost_concat : IsLatestHost (tree ++ [line]) host ↔
    OpensHost line ∧ HasHostName line host ∨ ¬OpensHost line ∧ IsLatestHost tree host :=
  exists_isLast_concat

/-- Once a host has been opened, there is a latest one. -/
theorem IsLatestHost.exists_append (h : IsLatestHost tree host) (more : List (List Char)) :
    ∃ host', IsLatestHost (tree ++ more) host' := by
  induction more using List.reverseRecOn with
  | nil => exact ⟨host, by rwa [List.append_nil]⟩
  | append_singleton more line ih =>
    obtain ⟨host', hlatest⟩ := ih
    rw [← List.append_assoc]
    by_cases hopens : OpensHost line
    · obtain ⟨name, hname⟩ := hopens.exists_hasHostName
      exact ⟨name, isLatestHost_concat.mpr (Or.inl ⟨hopens, hname⟩)⟩
    · exact ⟨host', isLatestHost_concat.mpr (Or.inr ⟨hopens, hlatest⟩)⟩

/-- Once a host has been opened, all lines have one. So the last line that names an OSD behind an
opened host is the last one of all that name it. -/
theorem isHostOf_iff : IsHostOf tree osd host ↔
    ∃ front line, IsLast (NamesOsd osd) tree front line ∧ IsLatestHost (front ++ [line]) host := by
  constructor
  · rintro ⟨front, line, back, rfl, hnames, hlatest, hback⟩
    refine ⟨front, line, ⟨back, rfl, hnames, fun later hlater hosd => ?_⟩, hlatest⟩
    obtain ⟨between, rest, rfl⟩ := List.append_of_mem hlater
    obtain ⟨other, hother⟩ := hlatest.exists_append (between ++ [later])
    rw [List.append_assoc, List.singleton_append] at hother
    exact hback between later rest rfl hosd other hother
  · rintro ⟨front, line, ⟨back, rfl, hnames, hback⟩, hlatest⟩
    refine ⟨front, line, back, rfl, hnames, hlatest, ?_⟩
    rintro between later rest rfl hosd
    exact absurd hosd (hback later (List.mem_append_right between List.mem_cons_self))

theorem not_isHostOf_nil : ¬IsHostOf [] osd host := by
  rintro ⟨front, line, back, h, -⟩
  exact List.append_ne_nil_of_right_ne_nil front (List.cons_ne_nil line back) h.symm

theorem isHostOf_concat : IsHostOf (tree ++ [line]) osd host ↔
    NamesOsd osd line ∧ IsLatestHost (tree ++ [line]) host ∨
      ¬NamesOsd osd line ∧ IsHostOf tree osd host := by
  rw [isHostOf_iff, isHostOf_iff]
  exact exists_isLast_concat

/-- An OSD has a host only if one has been opened. -/
theorem IsHostOf.exists_isLatestHost (h : IsHostOf tree osd host) :
    ∃ host', IsLatestHost tree host' := by
  obtain ⟨front, line, back, rfl, -, hlatest, -⟩ := h
  have := hlatest.exists_append back
  rwa [List.append_assoc] at this

namespace Progress

/-- Read one line of the tree without a search for the mark of an OSD. -/
def unguardedStep (progress : Progress) (line : List Char) : Progress :=
  if isIdle line then progress
  else
    let host :=
      if opensHost line then (columns line).getLast?.map String.ofList else progress.host
    let hosts :=
      match osdOf? line, host with
      | some osd, some host => progress.hosts.insert osd host
      | _, _ => progress.hosts
    { host, hosts }

/-- The search for the mark passes over no OSD. -/
theorem step_eq_unguardedStep (progress : Progress) (line : List Char) :
    progress.step line = progress.unguardedStep line := by
  cases hosd : osdOf? line with
  | none => simp only [step, unguardedStep, hosd, ite_self]
  | some osd =>
    have hmark := (osdOf?_eq_some_iff.mp hosd).occursIn
    simp only [step, hmark, if_true]
    rfl

/-- What is known after some lines of a tree. -/
structure Knows (tree : List (List Char)) (progress : Progress) : Prop where
  host : ∀ host, progress.host = some host ↔ IsLatestHost tree host
  hosts : ∀ osd host, progress.hosts.get? osd = some host ↔ IsHostOf tree osd host

theorem knows_start : Knows [] { host := none, hosts := Table.empty } where
  host _ := iff_of_false (Option.some_ne_none _).symm fun ⟨_, _, h, _⟩ => not_isLast_nil h
  hosts _ _ := iff_of_false (Option.some_ne_none _).symm not_isHostOf_nil

/-- One more line that is not passed over. -/
theorem Knows.step (h : Knows tree progress) (hline : ¬IsPassedOver line) :
    Knows (tree ++ [line]) (progress.step line) := by
  rw [step_eq_unguardedStep, unguardedStep, if_neg (isIdle_iff.not.mpr hline)]
  generalize hhost' : (if opensHost line then (columns line).getLast?.map String.ofList
    else progress.host) = host'
  have hlatest : ∀ host, host' = some host ↔ IsLatestHost (tree ++ [line]) host := fun host => by
    rw [isLatestHost_concat, ← hhost', ← getLast?_columns_iff, ← h.host, ← opensHost_iff]
    split_ifs with hopens <;> simp [hopens]
  refine ⟨hlatest, fun osd host => ?_⟩
  rw [isHostOf_concat, ← hlatest, ← h.hosts, ← osdOf?_eq_some_iff]
  cases hosd : osdOf? line with
  | none => simp
  | some named =>
    cases hhost : host' with
    | none =>
      -- No host has been opened yet, so the OSD is still without one.
      have hnone : progress.hosts.get? osd ≠ some host := fun hget => by
        obtain ⟨_, hopened⟩ := ((h.hosts osd host).mp hget).exists_isLatestHost
        obtain ⟨_, hopened'⟩ := hopened.exists_append [line]
        rw [← hlatest, hhost] at hopened'
        exact Option.some_ne_none _ hopened'.symm
      simp [hnone]
    | some name =>
      rw [Table.get?_insert]
      by_cases hnamed : named = osd
      · simp [hnamed]
      · simp [hnamed]

/-- What is known after all lines. -/
theorem knows_foldl (lines : List (List Char)) :
    Knows (lines.filter fun line => ¬IsPassedOver line)
      (lines.foldl step { host := none, hosts := Table.empty }) := by
  induction lines using List.reverseRecOn with
  | nil => exact knows_start
  | append_singleton lines line ih =>
    rw [List.filter_append, List.foldl_append]
    by_cases hline : IsPassedOver line
    · have hstep : ∀ progress : Progress, progress.step line = progress := fun progress =>
        if_pos (isIdle_iff.mpr hline)
      simpa [hline, hstep] using ih
    · have hsingle : [line].filter (fun line => ¬IsPassedOver line) = [line] := by simp [hline]
      rw [hsingle]
      exact ih.step hline

end Progress

/-- An OSD has a host exactly if, among the lines of the tree that are not passed over, one that
names it has a host opened in it or in front of it. Its host is then the latest one at the last such
line. The search for the mark of an OSD makes no difference. -/
theorem hosts_exact (text : List Char) :
    (∀ osd host, (ofText text).get? osd = some host ↔ IsHostOf (treeLines text) osd host) ∧
    ofText text = ((lines text).foldl Progress.unguardedStep
      { host := none, hosts := Table.empty }).hosts := by
  refine ⟨(Progress.knows_foldl (lines text)).hosts, ?_⟩
  have hstep : Progress.step = Progress.unguardedStep :=
    funext₂ Progress.step_eq_unguardedStep
  rw [ofText, hstep]

end HostMap

end OsdLatency
