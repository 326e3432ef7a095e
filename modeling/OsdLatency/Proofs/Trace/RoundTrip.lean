import OsdLatency.Proofs.Table
import OsdLatency.Proofs.Trace.Rendering

/-!
# A written record is read back

The parts of a written line are found whatever stands in front of it without the first label, and
behind it without going on with its last number. No closing bracket of a list is taken for the end
of the list too early, since the next part does not follow it.

## Main results

* `Capture.DetailList.passes` — the details do not end at a parenthesis within their list
* `Capture.Written.scanner_append` — the parts of a written line are found
* `Capture.Written.record?_eq` — they have the record that has been written
* `Record.ofLine?_of_written` — the record is read back between other texts
-/

namespace OsdLatency

open Text Text.Scanner

namespace Capture

variable {c : Capture} {peers details items : List (List Char × List Char)}
  {pad name gap text before line after rest : List Char}

/-! ### Where a list ends -/

theorem isWord_finalName (kind : FinalKind) : IsRun isWord kind.name.toList := by
  cases kind <;> decide +kernel

/-- A word that is no label of a final latency does not begin one. -/
theorem finalScanner_eq_none_of_word (hpad : IsPad pad) (hname : IsRun isWord name)
    (hlabel : ∀ kind : FinalKind, name ≠ kind.name.toList) (hrest : Boundary isWord rest) :
    finalScanner (pad ++ (name ++ rest)) = none := by
  rw [Option.eq_none_iff_forall_ne_some]
  rintro ⟨final, left⟩ h
  obtain ⟨_, htext, heq, -⟩ := finalScanner_sound h
  obtain @⟨kind, pad', gap, latency, hpad', hgap, -⟩ := htext
  simp only [List.append_assoc] at heq
  -- Behind the white space, the label and the name are the same run.
  have hbehind : Boundary isBlank (name ++ rest) :=
    hname.boundary_append fun _ => not_isBlank_of_isWord
  have hbehind' : Boundary isBlank (kind.name.toList ++ (gap ++ (latency ++ left))) :=
    (isSolid_finalName kind).boundary_append fun _ => isBlank_of_isSolid
  have hdrop := congrArg (List.dropWhile isBlank) heq
  rw [dropWhile_append_of_boundary hpad hbehind,
    dropWhile_append_of_boundary hpad' hbehind'] at hdrop
  have hgap' : Boundary isWord (gap ++ (latency ++ left)) :=
    hgap.boundary_append fun _ => not_isWord_of_isBlank
  have htake := congrArg (List.takeWhile isWord) hdrop
  rw [takeWhile_append_of_boundary hname.2 hrest,
    takeWhile_append_of_boundary (isWord_finalName kind).2 hgap'] at htake
  exact hlabel kind htake

/-- Within a list of details, no final latency begins in front of an item. -/
theorem DetailList.finalScanner_eq_none (h : DetailList items text) (rest : List Char) :
    finalScanner (text ++ ')' :: rest) = none := by
  -- The list is at its end, or an item follows: in parentheses, or with a name that is no label.
  cases h with
  | nil hpad => exact finalScanner_eq_none_of_cons hpad (by decide) (by decide) (by decide)
  | cons hpad hitem hlabel htext hlist =>
    simp only [List.append_assoc]
    cases hitem with
    | nested =>
      exact finalScanner_eq_none_of_cons hpad (by decide) (by decide) (by decide)
    | plain htaken =>
      obtain ⟨hname, hgap, hvalue⟩ := htaken
      simp only [List.append_assoc]
      exact finalScanner_eq_none_of_word hpad hname hlabel
        (hgap.boundary_append fun _ => not_isWord_of_isBlank)

theorem DetailSpells.not_mem {item : List Char × List Char} (h : DetailSpells item text) {c : Char}
    (hword : isWord c = false) (hblank : isBlank c = false) (hdigit : isDigit c = false) :
    c ∉ text := by
  obtain ⟨hname, hgap, hvalue⟩ := h
  simp only [List.mem_append, not_or]
  exact ⟨hname.not_mem hword, hgap.not_mem hblank, hvalue.not_mem hdigit⟩

/-- The details do not end at a parenthesis within their list. -/
theorem DetailList.passes (h : DetailList items text) (hline : '\n' ∉ text) (rest : List Char) :
    Passes ')' finalScanner text (')' :: rest) := by
  induction h with
  | nil hpad => exact passes_of_not_mem hline (hpad.not_mem (by decide))
  | @cons pad taken text item items hpad hitem hlabel htext hlist ih =>
    simp only [List.mem_append, not_or] at hline
    obtain ⟨hpadline, htakenline, htextline⟩ := hline
    apply (passes_of_not_mem hpadline (hpad.not_mem (by decide))).append
    refine Passes.append ?_ (ih htextline)
    cases hitem with
    | plain htaken =>
      refine passes_of_not_mem htakenline (htaken.not_mem ?_ ?_ ?_) <;> decide +kernel
    | @nested pad' taken pad'' hpad' htaken hpad'' =>
      -- Behind the parenthesis of a single detail comes another one, or the end of the list.
      have hinner : ')' ∉ '(' :: (pad' ++ (taken ++ pad'')) := by
        simp only [List.mem_cons, List.mem_append, not_or]
        refine ⟨by decide, hpad'.not_mem (by decide), htaken.not_mem ?_ ?_ ?_,
          hpad''.not_mem (by decide)⟩ <;> decide +kernel
      have hend : Passes ')' finalScanner [')'] (text ++ ')' :: rest) :=
        passes_cons (by decide) (fun _ => hlist.finalScanner_eq_none rest) passes_nil
      have hsplit : '(' :: (pad' ++ (taken ++ (pad'' ++ [')']))) =
          '(' :: (pad' ++ (taken ++ pad'')) ++ [')'] := by simp
      rw [hsplit] at htakenline ⊢
      refine (passes_of_not_mem ?_ hinner).append hend
      simp only [List.mem_append, not_or] at htakenline
      exact htakenline.1

/-! ### The parts of a written line -/

theorem detailsScanner_append {part : Option (List Char)} {final : Final}
    (h : Ending part final text) (hpart : DetailsPart details part)
    (hafter : Boundary isDigit after) :
    detailsScanner (text ++ after) = some ((part, final), after) := by
  cases h with
  | plain hfinal =>
    obtain ⟨pad, behind, heq, hpad, hboundary, hparen⟩ := hfinal.exists_pad after
    have hfound := finalScanner_append hfinal hafter
    rw [heq] at hfound ⊢
    rw [detailsScanner_plain hpad hboundary hparen, hfound]
    rfl
  | details hpad hline hfinal =>
    obtain _ | hlist := hpart
    simp only [List.append_assoc, List.cons_append]
    rw [detailsScanner_paren hpad, upTo_append (hlist.passes hline _),
      upTo_close (finalScanner_append hfinal hafter)]
    simp

theorem storeScanner_written {store : Store} (h : store.Spells text)
    (hpart : DetailsPart details store.details) (hafter : Boundary isDigit after) :
    storeScanner (text ++ after) = some (store, after) := by
  obtain ⟨hgap, hlatency, hending⟩ := h
  simp only [List.append_assoc]
  rw [storeScanner_append hgap hlatency hending.boundary_append,
    detailsScanner_append hending hpart hafter]
  rfl

theorem peersScanner_append {part : Option (List Char)} {store : Store} (h : Back part store text)
    (hpeers : PeersPart peers part) (hdetails : DetailsPart details store.details)
    (hafter : Boundary isDigit after) :
    peersScanner (text ++ after) = some ((part, store), after) := by
  cases h with
  | plain hstore =>
    rw [hstore.peersScanner_eq, storeScanner_written hstore hdetails hafter]
    rfl
  | @peers list gap gap' text store hgap hline hgap' hstore =>
    -- The first closing bracket is that of the list, since the replicas have none.
    have hlist : ']' ∉ list := hpeers.peerList.not_mem (by decide) (by decide) (by decide)
    have hnext := (hstore.blanks_eq hgap' after).trans (storeScanner_written hstore hdetails hafter)
    simp only [List.append_assoc, List.cons_append]
    rw [peersScanner_bracket hgap, upTo_append (passes_of_not_mem hline hlist), upTo_close hnext]
    simp

/-- The parts of a written line are found. -/
theorem Written.scanner_append (h : c.Written peers details line)
    (hafter : Boundary isDigit after) :
    scanner (line ++ after) = some (c, after) := by
  obtain ⟨front, back, hfront, hback, rfl⟩ := h.spells
  rw [List.append_assoc, Capture.scanner_append hfront hback.boundary_append,
    peersScanner_append hback h.peers h.details hafter]
  rfl

/-- The label that a line begins with does not begin in front of the line. -/
theorem Written.refused (h : c.Written peers details line) (hbefore : ¬ "osd".toList <:+: before)
    (after : List Char) : Refused scanner before (line ++ after) := by
  obtain ⟨front, back, ⟨-, hfront⟩, -, rfl⟩ := h.spells
  obtain ⟨gap, others, -, -, -, rfl⟩ := spaced_cons_iff.mp hfront
  rintro x y rfl hne
  refine bind_of_eq_none (bind_of_eq_none (number_eq_none ?_))
  rintro ⟨left, hleft⟩
  -- Only its first or its first two characters could stand in front of the line.
  rcases y with _ | ⟨a, _ | ⟨b, _ | ⟨d, y⟩⟩⟩
  · exact hne rfl
  · simp at hleft
  · simp at hleft
  · refine hbefore ⟨x, y, ?_⟩
    obtain ⟨rfl, rfl, rfl, -⟩ : 'o' = a ∧ 's' = b ∧ 'd' = d ∧ _ := by simpa using hleft
    simp

/-- The parts of a written line are found between other texts. -/
theorem Written.ofLine?_eq (h : c.Written peers details line) (hbefore : ¬ "osd".toList <:+: before)
    (hafter : Boundary isDigit after) : ofLine? (before ++ (line ++ after)) = some c := by
  rw [ofLine?, findFirst_append (h.refused hbefore after),
    findFirst_of_eq_some (h.scanner_append hafter)]

/-- The parts of a written line have the record that has been written. -/
theorem Written.record?_eq {r : Record} (h : c.Written peers details line) (hvalues : c.Values r)
    (hpeers : List.Forall₂ PeerValue peers r.peers)
    (hdetails : List.Forall₂ DetailValue details r.details.toList) : c.record? = some r := by
  have hfoundPeers : Finds PeerSpells (c.peers.getD []) peers :=
    peerScanner_takesLongest.finds_iff.mpr h.peers.findAll_eq
  have hfoundDetails : Finds DetailSpells (c.store.details.getD []) details :=
    detailScanner_takesLongest.finds_iff.mpr h.details.findAll_eq
  rw [record?_eq_some_iff hfoundPeers hfoundDetails]
  exact ⟨hvalues, hpeers, _, hdetails, (Table.ofList_toList _).symm⟩

end Capture

/-- A written record is read back, whatever stands in front of the line without its first label and
behind it without going on with its last number. -/
theorem Record.ofLine?_of_written {r : Record} {before line after : List Char} (h : r.Written line)
    (hbefore : ¬ "osd".toList <:+: before) (hafter : Boundary isDigit after) :
    Record.ofLine? (before ++ (line ++ after)) = some r := by
  obtain ⟨c, peers, details, hwritten, hvalues, hpeers, hdetails⟩ := h
  rw [Record.ofLine?_eq_bind, hwritten.ofLine?_eq hbefore hafter]
  exact hwritten.record?_eq hvalues hpeers hdetails

namespace Record

/-- A write with two replicas and two details of the store. -/
def sample : Record where
  osd := 22
  pg := "3.1f"
  kind := .write
  size := 4096
  client := 84211
  tid := 9
  throttle := 2
  recv := 14
  dispatch := 3
  queue := 20
  osdLatency := 310
  peers := [⟨4, 631⟩, ⟨17, 702⟩]
  bluestore := 880
  details := ⟨[("aio_wait", 0), ("aio_size", 4096)], by decide⟩
  finalKind := .op
  final := 918978

example : sample.render =
    ("osd 22 pg 3.1f op_w size 4096 client 84211 tid 9 throttle_lat 2 recv_lat 14 " ++
      "dispatch_lat 3 queue_lat 20 osd_lat 310 peers [(4, 631), (17, 702)] bluestore_lat 880 " ++
      "(aio_wait 0 (aio_size 4096)) op_lat 918978").toList := by decide +kernel

theorem isWritable_sample : sample.IsWritable :=
  ⟨by decide, by decide +kernel, by decide +kernel⟩

/-- The sample is read back between two texts. -/
theorem ofLine?_render_sample :
    Record.ofLine? ("2024-05-11 host7: ".toList ++ (sample.render ++ " trailing text".toList)) =
      some sample :=
  ofLine?_of_written ⟨_, writtenAs_render isWritable_sample⟩ (by decide +kernel) (by decide)

end Record

end OsdLatency
