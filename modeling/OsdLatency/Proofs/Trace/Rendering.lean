import OsdLatency.Proofs.Trace.Written

/-!
# Writing a record

Every record whose names are of the right form has a trace line. Numbers are written without leading
zeros, single blanks stand between the parts, and lists without items are left out.

## Main definitions

* `Capture.render`, `Record.render` — the line of given parts and of a record
* `Record.IsWritable` — a record with names of the right form

## Main results

* `Capture.render_spells` — the line of given parts is a line of the grammar
* `Record.writtenAs_render` — the line of a record is a line of that record
-/

namespace OsdLatency

open Text

/-! ### Lists -/

namespace Capture

/-- One replica. -/
def renderPeer (item : List Char × List Char) : List Char :=
  '(' :: (item.1 ++ ',' :: ([' '] ++ (item.2 ++ [')'])))

/-- The replicas between their brackets. -/
def renderPeers : List (List Char × List Char) → List Char
  | [] => []
  | [item] => renderPeer item
  | item :: items => renderPeer item ++ ',' :: ' ' :: renderPeers items

/-- One detail of the store. The size of an operation in flight stands in parentheses. -/
def renderDetail (item : List Char × List Char) : List Char :=
  if item.1 = "aio_size".toList then '(' :: (item.1 ++ ([' '] ++ item.2) ++ [')'])
  else item.1 ++ ([' '] ++ item.2)

/-- The details of the store between their parentheses. -/
def renderDetails : List (List Char × List Char) → List Char
  | [] => []
  | [item] => renderDetail item
  | item :: items => renderDetail item ++ ' ' :: renderDetails items

/-- The line of given parts. -/
def render (c : Capture) : List Char :=
  c.head.tokens.flatMap (· ++ [' ']) ++
    (c.peers.elim [] (fun text => "peers".toList ++ ' ' :: (text ++ [' '])) ++
      ("bluestore_lat".toList ++ ([' '] ++ (c.store.latency ++
        (c.store.details.elim [] (fun text => [' '] ++ '(' :: (text ++ [')'])) ++
          ([' '] ++ (c.store.final.kind.name.toList ++ ([' '] ++ c.store.final.latency))))))))

end Capture

namespace Record

/-- The items of the replicas. -/
def peerItems (r : Record) : List (List Char × List Char) :=
  r.peers.map fun peer => (numeral peer.osd.toNat, numeral peer.latency.toNat)

/-- The items of the details of the store. -/
def detailItems (r : Record) : List (List Char × List Char) :=
  r.details.toList.map fun entry => (entry.1.toList, numeral entry.2.toNat)

/-- The parts of the line of a record. -/
def capture (r : Record) : Capture where
  head :=
    { osd := numeral r.osd.toNat, pg := r.pg.toList, kind := r.kind, size := numeral r.size.toNat
      client := numeral r.client.toNat, tid := numeral r.tid.toNat
      throttle := numeral r.throttle.toNat, recv := numeral r.recv.toNat
      dispatch := numeral r.dispatch.toNat, queue := numeral r.queue.toNat
      osdLatency := numeral r.osdLatency.toNat }
  peers :=
    if r.peers.isEmpty then none else some ('[' :: Capture.renderPeers r.peerItems ++ [']'])
  store :=
    { latency := numeral r.bluestore.toNat
      details :=
        if r.details.toList.isEmpty then none else some (Capture.renderDetails r.detailItems)
      final := ⟨r.finalKind, numeral r.final.toNat⟩ }

/-- The line of a record. -/
def render (r : Record) : List Char := r.capture.render

/-- A record whose placement group is a token and whose details have words for their names, none of
them the label of a final latency. -/
structure IsWritable (r : Record) : Prop where
  pg : IsRun isSolid r.pg.toList
  word : ∀ entry ∈ r.details.toList, IsRun isWord entry.1.toList
  label : ∀ entry ∈ r.details.toList, entry.1 ≠ FinalKind.op.name ∧ entry.1 ≠ FinalKind.subop.name

end Record

namespace Capture

variable {items : List (List Char × List Char)}

theorem isPad_blank : IsPad [' '] := by decide

theorem renderPeer_spells {item : List Char × List Char} (hosd : IsRun isDigit item.1)
    (hlatency : IsRun isDigit item.2) : PeerSpells item (renderPeer item) :=
  .intro hosd isPad_blank hlatency

theorem renderPeers_list (h : ∀ item ∈ items, IsRun isDigit item.1 ∧ IsRun isDigit item.2) :
    ∀ {pad : List Char}, IsPad pad → PeerList items (pad ++ renderPeers items) := by
  induction items with
  | nil =>
    intro pad hpad
    simpa [renderPeers] using PeerList.nil hpad
  | cons item items ih =>
    intro pad hpad
    obtain ⟨⟨hosd, hlatency⟩, hitems⟩ := List.forall_mem_cons.mp h
    have hitem := renderPeer_spells hosd hlatency
    -- A comma stands behind a replica exactly if another one follows.
    cases items with
    | nil => simpa [renderPeers] using PeerList.last hpad hitem isPad_nil
    | cons next items =>
      exact PeerList.cons hpad hitem isPad_nil (ih hitems isPad_blank) (List.cons_ne_nil _ _)

theorem renderDetail_item {item : List Char × List Char} (hname : IsRun isWord item.1)
    (hvalue : IsRun isDigit item.2) : DetailItem item (renderDetail item) := by
  have hspells : DetailSpells item (item.1 ++ ([' '] ++ item.2)) := .intro hname (by decide) hvalue
  unfold renderDetail
  split
  · exact .nested isPad_nil hspells isPad_nil
  · exact .plain hspells

theorem renderDetails_list
    (h : ∀ item ∈ items, IsRun isWord item.1 ∧ IsRun isDigit item.2 ∧
      ∀ kind : FinalKind, item.1 ≠ kind.name.toList) :
    ∀ {pad : List Char}, IsPad pad → DetailList items (pad ++ renderDetails items) := by
  induction items with
  | nil =>
    intro pad hpad
    simpa [renderDetails] using DetailList.nil hpad
  | cons item items ih =>
    intro pad hpad
    obtain ⟨⟨hname, hvalue, hlabel⟩, hitems⟩ := List.forall_mem_cons.mp h
    have hitem := renderDetail_item hname hvalue
    -- A blank stands behind a detail exactly if another one follows.
    cases items with
    | nil =>
      simpa [renderDetails] using DetailList.cons hpad hitem hlabel boundary_nil (.nil isPad_nil)
    | cons next items =>
      exact DetailList.cons hpad hitem hlabel (boundary_cons.mpr (by decide))
        (ih hitems isPad_blank)

theorem spaced_render {tokens : List (List Char)} (h : ∀ token ∈ tokens, IsRun isSolid token) :
    Spaced tokens (tokens.flatMap (· ++ [' '])) := by
  induction tokens with
  | nil => exact .nil
  | cons token tokens ih =>
    obtain ⟨htoken, htokens⟩ := List.forall_mem_cons.mp h
    rw [List.flatMap_cons, List.append_assoc]
    exact .cons htoken (by decide) (ih htokens)

theorem Head.WellFormed.isSolid_token {head : Head} (h : head.WellFormed) :
    ∀ token ∈ head.tokens, IsRun isSolid token := by
  have hdigits {text : List Char} (htext : IsRun isDigit text) : IsRun isSolid text :=
    htext.imp fun _ => isSolid_of_isDigit
  simp only [Head.tokens, List.forall_mem_cons]
  refine ⟨by decide, hdigits h.osd, by decide, h.pg, isSolid_kindName head.kind, by decide,
    hdigits h.size, by decide, hdigits h.client, by decide, hdigits h.tid, by decide,
    hdigits h.throttle, by decide, hdigits h.recv, by decide, hdigits h.dispatch, by decide,
    hdigits h.queue, by decide, hdigits h.osdLatency, by simp⟩

variable {c : Capture} {peers details : List (List Char × List Char)}

/-! ### Lines -/

/-- No line feed stands in the parts of a line. -/
structure OneLine (c : Capture) : Prop where
  peers : '\n' ∉ c.peers.getD []
  details : '\n' ∉ c.store.details.getD []

/-- The line of given parts is a line of the grammar. -/
theorem render_spells (hhead : c.head.WellFormed) (hstore : IsRun isDigit c.store.latency)
    (hfinal : IsRun isDigit c.store.final.latency) (hpeers : PeersPart peers c.peers)
    (hline : c.OneLine) : c.Spells c.render := by
  obtain ⟨head, part, latency, list, kind, final⟩ := c
  refine ⟨_, _, ⟨hhead, spaced_render hhead.isSolid_token⟩, ?_, rfl⟩
  have hend : Final.Spells ⟨kind, final⟩ ([' '] ++ (kind.name.toList ++ ([' '] ++ final))) :=
    .intro isPad_blank (by decide) hfinal
  have hending : Ending list ⟨kind, final⟩
      (list.elim [] (fun text => [' '] ++ '(' :: (text ++ [')'])) ++
        ([' '] ++ (kind.name.toList ++ ([' '] ++ final)))) := by
    cases list with
    | none => exact .plain hend
    | some text => simpa using Ending.details isPad_blank hline.details hend
  have hgap : IsRun isBlank [' '] := by decide
  have hback := Store.Spells.intro hgap hstore hending
  cases hpeers with
  | missing => exact .plain hback
  | @list _ text _ =>
    have hlist : '\n' ∉ text := fun hmem => hline.peers (by simp [hmem])
    simpa using Back.peers hgap hlist hgap hback

theorem not_mem_renderPeers (h : ∀ item ∈ items, IsRun isDigit item.1 ∧ IsRun isDigit item.2) :
    '\n' ∉ renderPeers items := by
  have hitem (item : List Char × List Char) (hosd : IsRun isDigit item.1)
      (hlatency : IsRun isDigit item.2) : '\n' ∉ renderPeer item := by
    simp [renderPeer, hosd.not_mem (show isDigit '\n' = false by decide),
      hlatency.not_mem (show isDigit '\n' = false by decide)]
  induction items with
  | nil => simp [renderPeers]
  | cons item items ih =>
    obtain ⟨⟨hosd, hlatency⟩, hitems⟩ := List.forall_mem_cons.mp h
    cases items with
    | nil => exact hitem item hosd hlatency
    | cons next items => simp [renderPeers, hitem item hosd hlatency, ih hitems]

theorem not_mem_renderDetails (h : ∀ item ∈ items, IsRun isWord item.1 ∧ IsRun isDigit item.2) :
    '\n' ∉ renderDetails items := by
  have hitem (item : List Char × List Char) (hname : IsRun isWord item.1)
      (hvalue : IsRun isDigit item.2) : '\n' ∉ renderDetail item := by
    have hname' := hname.not_mem (show isWord '\n' = false by decide +kernel)
    have hvalue' := hvalue.not_mem (show isDigit '\n' = false by decide)
    unfold renderDetail
    split
    · simp [hname', hvalue']
    · simp [hname', hvalue']
  induction items with
  | nil => simp [renderDetails]
  | cons item items ih =>
    obtain ⟨⟨hname, hvalue⟩, hitems⟩ := List.forall_mem_cons.mp h
    cases items with
    | nil => exact hitem item hname hvalue
    | cons next items => simp [renderDetails, hitem item hname hvalue, ih hitems]

theorem not_mem_render (hhead : c.head.WellFormed) (hstore : IsRun isDigit c.store.latency)
    (hfinal : IsRun isDigit c.store.final.latency) (hline : c.OneLine) : '\n' ∉ c.render := by
  have hdigits {text : List Char} (htext : IsRun isDigit text) : '\n' ∉ text :=
    htext.not_mem (by decide)
  -- The tokens of the head are runs, and so are the numbers behind it.
  have htokens : '\n' ∉ c.head.tokens.flatMap (· ++ [' ']) := by
    intro hmem
    obtain ⟨token, htoken, hmem⟩ := List.mem_flatMap.mp hmem
    have := (hhead.isSolid_token token htoken).not_mem (show isSolid '\n' = false by decide)
    simp [this] at hmem
  have hkind : '\n' ∉ c.store.final.kind.name.toList := by cases c.store.final.kind <;> decide
  obtain ⟨hpeers, hdetails⟩ := hline
  simp only [render, List.mem_append, not_or]
  refine ⟨htokens, ?_, by decide, by decide, hdigits hstore, ?_, by decide, hkind, by decide,
    hdigits hfinal⟩
  · cases hpart : c.peers with
    | none => simp
    | some text => simpa [hpart] using hpeers
  · cases hpart : c.store.details with
    | none => simp
    | some text => simpa [hpart] using hdetails

end Capture

/-! ### Records -/

namespace Record

variable {r : Record}

theorem isDigits_peerItems : ∀ item ∈ r.peerItems, IsRun isDigit item.1 ∧ IsRun isDigit item.2 := by
  intro item hitem
  obtain ⟨peer, -, rfl⟩ := List.mem_map.mp hitem
  exact ⟨isDigits_numeral _, isDigits_numeral _⟩

theorem IsWritable.detailItems (h : r.IsWritable) :
    ∀ item ∈ r.detailItems, IsRun isWord item.1 ∧ IsRun isDigit item.2 ∧
      ∀ kind : FinalKind, item.1 ≠ kind.name.toList := by
  intro item hitem
  obtain ⟨entry, hentry, rfl⟩ := List.mem_map.mp hitem
  refine ⟨h.word entry hentry, isDigits_numeral _, ?_⟩
  obtain ⟨hop, hsubop⟩ := h.label entry hentry
  intro kind hkind
  have hname := String.toList_inj.mp hkind
  cases kind with
  | op => exact hop hname
  | subop => exact hsubop hname

theorem peersPart_capture (r : Record) : Capture.PeersPart r.peerItems r.capture.peers := by
  by_cases hnil : r.peers = []
  · simpa [capture, peerItems, hnil] using Capture.PeersPart.missing
  · have hlist := Capture.renderPeers_list r.isDigits_peerItems isPad_nil
    simpa [capture, hnil] using Capture.PeersPart.list hlist

theorem detailsPart_capture (h : r.IsWritable) :
    Capture.DetailsPart r.detailItems r.capture.store.details := by
  by_cases hnil : r.details.toList = []
  · simpa [capture, detailItems, hnil] using Capture.DetailsPart.missing
  · have hlist := Capture.renderDetails_list h.detailItems isPad_nil
    simpa [capture, hnil] using Capture.DetailsPart.list hlist

theorem oneLine_capture (h : r.IsWritable) : r.capture.OneLine := by
  have hpeers := Capture.not_mem_renderPeers r.isDigits_peerItems
  have hdetails := Capture.not_mem_renderDetails fun item hitem =>
    ⟨(h.detailItems item hitem).1, (h.detailItems item hitem).2.1⟩
  constructor
  · by_cases hnil : r.peers = []
    · simp [capture, hnil]
    · simp [capture, hnil, hpeers]
  · by_cases hnil : r.details.toList = []
    · simp [capture, hnil]
    · simp [capture, hnil, hdetails]

/-- The line of a record is a line of that record. -/
theorem writtenAs_render (h : r.IsWritable) : r.WrittenAs r.capture r.render := by
  have hhead : r.capture.head.WellFormed :=
    ⟨isDigits_numeral _, h.pg, isDigits_numeral _, isDigits_numeral _, isDigits_numeral _,
      isDigits_numeral _, isDigits_numeral _, isDigits_numeral _, isDigits_numeral _,
      isDigits_numeral _⟩
  have hline := oneLine_capture h
  refine ⟨r.peerItems, r.detailItems, ⟨?_, r.peersPart_capture, detailsPart_capture h, ?_⟩, ?_, ?_,
    ?_⟩
  · exact Capture.render_spells hhead (isDigits_numeral _) (isDigits_numeral _) r.peersPart_capture
      hline
  · exact Capture.not_mem_render hhead (isDigits_numeral _) (isDigits_numeral _) hline
  · exact ⟨isNumeral_numeral _, (String.ofList_toList).symm, rfl, isNumeral_numeral _,
      isNumeral_numeral _, isNumeral_numeral _, isNumeral_numeral _, isNumeral_numeral _,
      isNumeral_numeral _, isNumeral_numeral _, isNumeral_numeral _, isNumeral_numeral _, rfl,
      isNumeral_numeral _⟩
  · rw [peerItems, List.forall₂_map_left_iff]
    exact List.forall₂_same.mpr fun peer _ => ⟨isNumeral_numeral _, isNumeral_numeral _⟩
  · rw [detailItems, List.forall₂_map_left_iff]
    exact List.forall₂_same.mpr fun entry _ =>
      ⟨(String.ofList_toList).symm, isNumeral_numeral _⟩

end Record

end OsdLatency
