import OsdLatency.Proofs.Trace.Cut

/-!
# Where an open list ends in the next line

A list that has been left open goes on into the next line up to the end of the same list there. The
brackets and parentheses in front of it are passed over: those in the placement group are followed
by the kind of the operation, those of single items by the other items.

## Main results

* `Capture.Head.Spells.passes` — a bracket or parenthesis in the parts up to the replicas
* `Capture.Written.upTo_paren` — where open details end in a written line
* `Capture.Written.upTo_bracket` — where open replicas end in a written line
-/

namespace OsdLatency.Capture

open Text Text.Scanner

variable {c : Char} {text front gap pad rest : List Char}
  {items : List (List Char × List Char)}

/-! ### The parts up to the replicas -/

/-- A closing character in the placement group is followed by the kind of the operation, and none
stands elsewhere. -/
theorem Head.Spells.passes {next : Scanner α} {head : Head} (h : head.Spells front)
    (hline : '\n' ∉ front) (hc : c = ')' ∨ c = ']')
    (hnext : ∀ (token gap rest : List Char), (∀ d ∈ token, isSolid d = true) → IsRun isBlank gap →
      Boundary isSolid rest → next (token ++ (gap ++ (head.kind.name.toList ++ rest))) = none) :
    Passes c next front rest := by
  obtain ⟨hformed, hspaced⟩ := h
  have hblank : isBlank c = false := by rcases hc with rfl | rfl <;> decide
  have hdigits {text : List Char} (htext : IsRun isDigit text) : c ∉ text := by
    apply htext.not_mem
    rcases hc with rfl | rfl <;> decide
  -- The placement group is the fourth token.
  obtain ⟨gap₁, text₁, -, hgap₁, htext₁, rfl⟩ := spaced_cons_iff.mp hspaced
  obtain ⟨gap₂, text₂, -, hgap₂, htext₂, rfl⟩ := spaced_cons_iff.mp htext₁
  obtain ⟨gap₃, text₃, -, hgap₃, htext₃, rfl⟩ := spaced_cons_iff.mp htext₂
  obtain ⟨gap₄, text₄, hpg, hgap₄, htext₄, rfl⟩ := spaced_cons_iff.mp htext₃
  have hsplit : "osd".toList ++ (gap₁ ++ (head.osd ++ (gap₂ ++ ("pg".toList ++ (gap₃ ++
      (head.pg ++ (gap₄ ++ text₄))))))) =
      ("osd".toList ++ (gap₁ ++ (head.osd ++ (gap₂ ++ ("pg".toList ++ gap₃))))) ++
        (head.pg ++ (gap₄ ++ text₄)) := by simp
  rw [hsplit] at hline ⊢
  obtain ⟨hlineBefore, hlineBehind⟩ := not_or.mp fun h => hline (List.mem_append.mpr h)
  obtain ⟨hlinePg, hlineAfter⟩ := not_or.mp fun h => hlineBehind (List.mem_append.mpr h)
  have hbefore : c ∉ "osd".toList ++ (gap₁ ++ (head.osd ++ (gap₂ ++ ("pg".toList ++ gap₃)))) := by
    simp only [List.mem_append, not_or]
    refine ⟨?_, hgap₁.not_mem hblank, hdigits hformed.osd, hgap₂.not_mem hblank, ?_,
      hgap₃.not_mem hblank⟩
    · rcases hc with rfl | rfl <;> decide
    · rcases hc with rfl | rfl <;> decide
  have hafter : c ∉ gap₄ ++ text₄ := by
    have hlabels : ∀ label ∈ ["size", "client", "tid", "throttle_lat", "recv_lat", "dispatch_lat",
        "queue_lat", "osd_lat"], c ∉ label.toList := by
      rcases hc with rfl | rfl <;> decide
    have hkind : c ∉ head.kind.name.toList := by
      rcases hc with rfl | rfl <;> cases head.kind <;> decide
    simp only [List.mem_append, not_or]
    refine ⟨hgap₄.not_mem hblank, htext₄.not_mem hblank ?_⟩
    simp only [List.forall_mem_cons] at hlabels ⊢
    obtain ⟨hsize, hclient, htid, hthrottle, hrecv, hdispatch, hqueue, hosd, -⟩ := hlabels
    exact ⟨hkind, hsize, hdigits hformed.size, hclient, hdigits hformed.client, htid,
      hdigits hformed.tid, hthrottle, hdigits hformed.throttle, hrecv, hdigits hformed.recv,
      hdispatch, hdigits hformed.dispatch, hqueue, hdigits hformed.queue, hosd,
      hdigits hformed.osdLatency, by simp⟩
  refine (passes_of_not_mem hlineBefore hbefore).append (Passes.append ⟨hlinePg, ?_⟩
    (passes_of_not_mem hlineAfter hafter))
  intro x y hxy
  obtain ⟨gap₅, text₅, -, hgap₅, -, rfl⟩ := spaced_cons_iff.mp htext₄
  have hsolid : ∀ d ∈ y, isSolid d = true := fun d hd => hpg.2 d (by simp [hxy, hd])
  have hboundary : Boundary isSolid (gap₅ ++ (text₅ ++ rest)) :=
    hgap₅.boundary_append fun _ => isSolid_of_isBlank
  simpa using hnext y gap₄ (gap₅ ++ (text₅ ++ rest)) hsolid hgap₄ hboundary

/-- The kind of an operation is no label of a final latency. -/
theorem finalScanner_eq_none_of_kind {kind : OpKind} {token : List Char}
    (htoken : ∀ d ∈ token, isSolid d = true) (hgap : IsRun isBlank gap)
    (hrest : Boundary isSolid rest) :
    finalScanner (token ++ (gap ++ (kind.name.toList ++ rest))) = none := by
  have hkind := columns_run_append (isSolid_kindName kind) hrest
  by_contra hne
  obtain ⟨label, value, others, hcolumns, hvalue⟩ := finalScanner_ne_none_iff.mp hne
  by_cases hnil : token = []
  · -- The kind stands where the label would have to stand.
    rw [hnil, List.nil_append, columns_append_of_isPad hgap.isPad, hkind] at hcolumns
    have hname := (List.cons.inj hcolumns).1
    cases kind <;> cases label <;> simp [OpKind.name, FinalKind.name] at hname
  · -- The kind stands where the number would have to stand.
    have hboundary : Boundary isSolid (gap ++ (kind.name.toList ++ rest)) :=
      hgap.boundary_append fun _ => isSolid_of_isBlank
    rw [columns_run_append ⟨hnil, htoken⟩ hboundary, columns_append_of_isPad hgap.isPad,
      hkind] at hcolumns
    obtain ⟨-, rfl, -⟩ : token = label.name.toList ∧ kind.name.toList = value ∧ _ := by
      simpa using hcolumns
    exact hvalue (by cases kind <;> decide)

/-- The kind of an operation is not the label of the latency of the store. -/
theorem storeScanner_eq_none_of_kind {kind : OpKind} {token : List Char}
    (htoken : ∀ d ∈ token, isSolid d = true) (hgap : IsRun isBlank gap) :
    (blanks >>= fun _ => storeScanner) (token ++ (gap ++ (kind.name.toList ++ rest))) = none := by
  cases token with
  | nil =>
    have hboundary : Boundary isBlank (kind.name.toList ++ rest) :=
      (isSolid_kindName kind).boundary_append fun _ => isBlank_of_isSolid
    rw [List.nil_append, bind_of_eq_some (blanks_append hgap hboundary)]
    apply storeScanner_eq_none
    cases kind <;> simp [OpKind.name]
  | cons d token =>
    have hd : isBlank d = false := isBlank_of_isSolid (htoken d List.mem_cons_self)
    exact bind_of_eq_none (blanks_eq_none (boundary_cons.mpr hd))

/-! ### The lists of the next line -/

/-- A parenthesis in the replicas is followed by a comma or by their end. -/
theorem PeerList.passes (h : PeerList items text) (hline : '\n' ∉ text) (rest : List Char) :
    Passes ')' finalScanner text (']' :: rest) := by
  -- The only parenthesis of a replica is its last character, and no label follows it.
  have hitem {item : List Char × List Char} {taken pad : List Char} {d : Char} (left : List Char)
      (htaken : PeerSpells item taken) (hpad : IsPad pad) (hline : '\n' ∉ taken)
      (hd : isBlank d = false) (ho : d ≠ 'o') (hs : d ≠ 's') :
      Passes ')' finalScanner taken (pad ++ d :: left) := by
    obtain @⟨osd, pad', latency, hosd, hpad', hlatency⟩ := htaken
    have hsplit : '(' :: (osd ++ ',' :: (pad' ++ (latency ++ [')']))) =
        '(' :: (osd ++ ',' :: (pad' ++ latency)) ++ [')'] := by simp
    rw [hsplit] at hline ⊢
    simp only [List.mem_append, not_or] at hline
    refine (passes_of_not_mem hline.1 ?_).append (passes_cons (by decide) ?_ passes_nil)
    · simp only [List.mem_cons, List.mem_append, not_or]
      exact ⟨by decide, hosd.not_mem (by decide), by decide, hpad'.not_mem (by decide),
        hlatency.not_mem (by decide)⟩
    · exact fun _ => finalScanner_eq_none_of_cons hpad hd ho hs
  induction h with
  | nil hpad => exact passes_of_not_mem hline (hpad.not_mem (by decide))
  | last hpad htaken hpad' =>
    simp only [List.mem_append, not_or] at hline
    refine (passes_of_not_mem hline.1 (hpad.not_mem (by decide))).append (Passes.append ?_
      (passes_of_not_mem hline.2.2 (hpad'.not_mem (by decide))))
    exact hitem rest htaken hpad' hline.2.1 (by decide) (by decide) (by decide)
  | cons hpad htaken hpad' _ _ ih =>
    simp only [List.mem_append, List.mem_cons, not_or] at hline
    refine (passes_of_not_mem hline.1 (hpad.not_mem (by decide))).append (Passes.append ?_
      (Passes.append (passes_of_not_mem hline.2.2.1 (hpad'.not_mem (by decide)))
        (passes_cons (by decide) (by simp) (ih hline.2.2.2.2))))
    rw [List.append_assoc]
    exact hitem _ htaken hpad' hline.2.1 (by decide) (by decide) (by decide)

theorem Store.ClosesDetails.append {store : Store} {inner : List Char}
    (h : store.ClosesDetails text inner) :
    store.ClosesDetails (front ++ text) (front ++ inner) := by
  obtain ⟨list, before, after, hat, rfl⟩ := h
  exact ⟨list, front ++ before, after, hat.append, by simp⟩

/-- Open details go on in a text up to the end of its own details, or through all of it. -/
def Store.EndsDetails (store : Store) (text : List Char) : Prop :=
  (∃ inner after, store.ClosesDetails text inner ∧ text = inner ++ ')' :: after ∧
    store.final.Spells after ∧ Passes ')' finalScanner inner (')' :: after)) ∨
  (store.details = none ∧ Passes ')' finalScanner text [])

/-- A front in which nothing ends does not change where the details end. -/
theorem Store.EndsDetails.append {store : Store} (h : store.EndsDetails text)
    (hfront : ∀ rest, Passes ')' finalScanner front rest) : store.EndsDetails (front ++ text) := by
  rcases h with ⟨inner, after, hcloses, rfl, hafter, hpass⟩ | ⟨hnone, hpass⟩
  · exact Or.inl ⟨front ++ inner, after, hcloses.append, by simp, hafter, (hfront _).append hpass⟩
  · exact Or.inr ⟨hnone, (hfront _).append hpass⟩

theorem Store.Spells.endsDetails {store : Store} {details : List (List Char × List Char)}
    (h : store.Spells text) (hpart : DetailsPart details store.details) (hline : '\n' ∉ text) :
    store.EndsDetails text := by
  obtain @⟨latency, gap, behind, part, final, hgap, hlatency, hending⟩ := h
  simp only [List.mem_append, not_or] at hline
  obtain ⟨-, hgapline, -, hbehindline⟩ := hline
  -- No parenthesis stands in front of the details, nor in a line that has none.
  have hfront {tail : List Char} (hline : '\n' ∉ tail) (htail : ')' ∉ tail) (rest : List Char) :
      Passes ')' finalScanner ("bluestore_lat".toList ++ (gap ++ (latency ++ tail))) rest := by
    refine passes_of_not_mem ?_ ?_
    · simp only [List.mem_append, not_or]
      exact ⟨by decide, hgapline, hlatency.not_mem (by decide), hline⟩
    · simp only [List.mem_append, not_or]
      exact ⟨by decide, hgap.not_mem (by decide), hlatency.not_mem (by decide), htail⟩
  cases hending with
  | plain hfinal => exact Or.inr ⟨rfl, hfront hbehindline hfinal.not_mem_paren []⟩
  | @details list pad after _ hpad hlistline hafter =>
    obtain _ | hlist := hpart
    simp only [List.mem_append, List.mem_cons, not_or] at hbehindline
    have hends : Store.EndsDetails ⟨latency, some list, final⟩ ('(' :: (list ++ ')' :: after)) :=
      Or.inl ⟨'(' :: list, after, ⟨list, [], after, ⟨rfl, hafter, rfl⟩, rfl⟩, rfl, hafter,
        passes_cons (by decide) (by simp) (hlist.passes hlistline after)⟩
    have := hends.append (hfront hbehindline.1 (hpad.not_mem (by decide)))
    simpa using this

theorem Back.endsDetails {peers : Option (List Char)} {store : Store}
    {details : List (List Char × List Char)} (h : Back peers store text)
    (hpeers : PeersPart items peers) (hdetails : DetailsPart details store.details)
    (hline : '\n' ∉ text) : store.EndsDetails text := by
  cases h with
  | plain hstore => exact hstore.endsDetails hdetails hline
  | @peers list gap gap' text _ hgap hlistline hgap' hstore =>
    simp only [List.mem_append, List.mem_cons, not_or] at hline
    obtain ⟨-, hgapline, -, -, -, hgapline', htextline⟩ := hline
    -- The replicas have parentheses, but none that ends the details.
    have hfront (rest : List Char) : Passes ')' finalScanner
        (("peers".toList ++ (gap ++ ['['])) ++ (list ++ ']' :: gap')) rest := by
      refine Passes.append (passes_of_not_mem ?_ ?_)
        (Passes.append (hpeers.peerList.passes hlistline (gap' ++ rest)) (passes_of_not_mem ?_ ?_))
      · simp only [List.mem_append, not_or]
        exact ⟨by decide, hgapline, by decide⟩
      · simp only [List.mem_append, not_or]
        exact ⟨by decide, hgap.not_mem (by decide), by decide⟩
      · simp only [List.mem_cons, not_or]
        exact ⟨by decide, hgapline'⟩
      · simp only [List.mem_cons, not_or]
        exact ⟨by decide, hgap'.not_mem (by decide)⟩
    have := (hstore.endsDetails hdetails htextline).append hfront
    simpa using this

variable {b : Capture} {peers details : List (List Char × List Char)} {B : List Char}

/-- Open details that go on into a written line end where its own details end, or not at all. -/
theorem Written.upTo_paren (h : b.Written peers details B) :
    (∃ inner, b.store.ClosesDetails B inner ∧
      upTo ')' finalScanner (' ' :: B) = some ((' ' :: inner, b.store.final), [])) ∨
    (b.store.details = none ∧ upTo ')' finalScanner (' ' :: B) = none) := by
  obtain ⟨front, back, hhead, hback, rfl⟩ := h.spells
  obtain ⟨hfrontline, hbackline⟩ := not_or.mp fun hmem => h.line (List.mem_append.mpr hmem)
  -- In the head, a parenthesis may stand in the placement group, where the kind follows it.
  have hfront (rest : List Char) : Passes ')' finalScanner front rest :=
    hhead.passes hfrontline (Or.inl rfl) fun _ _ _ htoken hgap hrest =>
      finalScanner_eq_none_of_kind htoken hgap hrest
  rcases (hback.endsDetails h.peers h.details hbackline).append hfront with
    ⟨inner, after, hcloses, heq, hafter, hpass⟩ | ⟨hnone, hpass⟩
  · refine Or.inl ⟨inner, hcloses, ?_⟩
    have hblank : Passes ')' finalScanner (' ' :: inner) (')' :: after) :=
      passes_cons (by decide) (by simp) hpass
    have hfinal := finalScanner_append hafter boundary_nil
    rw [List.append_nil] at hfinal
    rw [heq, ← List.cons_append, upTo_append hblank, upTo_close hfinal]
    simp
  · exact Or.inr ⟨hnone, upTo_eq_none (passes_cons (by decide) (by simp) hpass)⟩

/-- Open replicas that go on into a written line end where its own replicas end, or not at all. -/
theorem Written.upTo_bracket (h : b.Written peers details B) :
    (∃ inner, b.ClosesPeers B inner ∧
      upTo ']' (blanks >>= fun _ => storeScanner) (' ' :: B) =
        some ((' ' :: inner, b.store), [])) ∨
    (b.peers = none ∧ upTo ']' (blanks >>= fun _ => storeScanner) (' ' :: B) = none) := by
  obtain ⟨front, back, hhead, hback, hsplit⟩ := h.spells
  have hline := h.line
  rw [hsplit] at hline
  obtain ⟨hfrontline, hbackline⟩ := not_or.mp fun hmem => hline (List.mem_append.mpr hmem)
  -- In the head, a bracket may stand in the placement group, where the kind follows it.
  have hfront (rest : List Char) : Passes ']' (blanks >>= fun _ => storeScanner) front rest :=
    hhead.passes hfrontline (Or.inr rfl) fun _ _ _ htoken hgap _ =>
      storeScanner_eq_none_of_kind htoken hgap
  obtain ⟨head, part, store⟩ := b
  cases hback with
  | plain hstore =>
    refine Or.inr ⟨rfl, upTo_eq_none ?_⟩
    rw [hsplit]
    exact passes_cons (by decide) (by simp) ((hfront _).append
      (passes_of_not_mem hbackline (hstore.not_mem_bracket h.details)))
  | @peers list gap gap' text _ hgap hlistline hgap' hstore =>
    have hlist : ']' ∉ list := h.peers.peerList.not_mem (by decide) (by decide) (by decide)
    have hat : PeersAt ⟨head, some ('[' :: list ++ [']']), store⟩ B list
        (front ++ ("peers".toList ++ gap)) (gap' ++ text) :=
      ⟨rfl, ⟨gap', text, rfl, hgap', hstore⟩, by rw [hsplit]; simp⟩
    refine Or.inl ⟨_, ⟨list, _, _, hat, rfl⟩, ?_⟩
    simp only [List.mem_append, List.mem_cons, not_or] at hbackline
    obtain ⟨-, hgapline, -⟩ := hbackline
    have hpass (rest : List Char) : Passes ']' (blanks >>= fun _ => storeScanner)
        (' ' :: (front ++ ("peers".toList ++ gap) ++ '[' :: list)) rest := by
      apply passes_cons (by decide) (by simp)
      rw [List.append_assoc]
      refine (hfront _).append (passes_of_not_mem ?_ ?_)
      · simp only [List.mem_append, List.mem_cons, not_or]
        exact ⟨⟨by decide, hgapline⟩, by decide, hlistline⟩
      · simp only [List.mem_append, List.mem_cons, not_or]
        exact ⟨⟨by decide, hgap.not_mem (by decide)⟩, by decide, hlist⟩
    have hnext := (hstore.blanks_eq hgap' []).trans
      (storeScanner_written hstore h.details boundary_nil)
    rw [List.append_nil] at hnext
    have hwhole : ' ' :: B = ' ' :: (front ++ ("peers".toList ++ gap) ++ '[' :: list) ++
        ']' :: (gap' ++ text) := by
      rw [hsplit]
      simp
    rw [hwhole, upTo_append (hpass _), upTo_close hnext]
    simp

end OsdLatency.Capture
