import OsdLatency.Proofs.DumpedLine

/-!
# The dump in microseconds loses nothing

The line of a record in microseconds tells the record. The labels are the same in every line, and
each value ends where a character follows that it cannot have: a blank behind the value of a label,
a bracket behind the replicas, a parenthesis behind the details of the store. The items of these two
lists are found again by the scanners that read a trace.

## Main definitions

* `Record.IsTraced` — a record as a trace line holds it
* `Dump.fields` — the labels in front of the replicas, with their values
* `Dump.detailItem` — one detail of the store

## Main results

* `Record.isTraced_of_ofLine?` — the record that a line holds is traced
* `Dump.toList_line_micros` — the parts of a line
* `Dump.line_micros_lossless` — traced records with the same line are the same
-/

namespace OsdLatency

open Text Text.Scanner

/-! ### Traced records -/

namespace Record

variable {r : Record} {line : List Char}

/-- A record as a trace line holds it: the placement group is a token, and the names of the details
are words. -/
structure IsTraced (r : Record) : Prop where
  pg : IsRun isSolid r.pg.toList
  word : ∀ entry ∈ r.details.toList, IsRun isWord entry.1.toList

/-- The record that a line holds is traced. -/
theorem isTraced_of_ofLine? (h : ofLine? line = some r) : r.IsTraced := by
  rw [ofLine?_eq_bind] at h
  obtain ⟨c, hc, hrecord⟩ := Option.bind_eq_some_iff.mp h
  obtain ⟨_, ⟨_, _, -, _, _, ⟨hhead, -⟩, -, -⟩, -⟩ := Capture.ofLine?_eq_some_iff.mp hc
  have hpeers := Capture.peerScanner_takesLongest.finds (c.peers.getD [])
  have hdetails := Capture.detailScanner_takesLongest.finds (c.store.details.getD [])
  obtain ⟨values, -, entries, hentries, htable⟩ :=
    (Capture.record?_eq_some_iff hpeers hdetails).mp hrecord
  refine ⟨?_, fun entry hentry => ?_⟩
  · rw [values.pg, String.toList_ofList]
    exact hhead.pg
  · -- A name in the table is that of an item, and items have words for their names.
    have hkey : entry.1 ∈ r.details.keys := List.mem_map_of_mem hentry
    rw [htable, Table.mem_keys_ofList, List.mem_map] at hkey
    obtain ⟨given, hgiven, hname⟩ := hkey
    have hwords : ∀ item ∈ findAll Capture.detailScanner (c.store.details.getD []),
        IsRun isWord item.1 := fun item hitem => by
      obtain ⟨_, hspells⟩ := hdetails.exists_item item hitem
      cases hspells with
      | intro hname => exact hname
    have hboth := ((List.forall₂_and_left _ _).mpr ⟨hwords, hentries⟩).flip
    obtain ⟨item, hword, hvalue⟩ := exists_forall₂_iff.mp ⟨_, hboth⟩ given hgiven
    rw [← hname, hvalue.1, String.toList_ofList]
    exact hword

/-- The items of the details of a traced record have words for their names. -/
theorem IsTraced.detailItems (h : r.IsTraced) :
    ∀ item ∈ r.detailItems, IsRun isWord item.1 ∧ IsRun isDigit item.2 := by
  intro item hitem
  obtain ⟨entry, hentry, rfl⟩ := List.mem_map.mp hitem
  exact ⟨h.word entry hentry, isDigits_numeral _⟩

end Record

/-! ### Names of kinds -/

theorem OpKind.name_injective : Function.Injective OpKind.name := fun a b h =>
  Option.some.inj (by rw [← ofName?_name a, h, ofName?_name])

theorem FinalKind.name_injective : Function.Injective FinalKind.name := fun a b h =>
  Option.some.inj (by rw [← ofName?_name a, h, ofName?_name])

namespace Dump

variable {a b r : Record} {items : List (List Char × List Char)}

/-! ### The parts of a line -/

/-- A label and its value, with a blank behind each. -/
def field (f : String × List Char) : List Char := f.1.toList ++ ' ' :: (f.2 ++ [' '])

/-- The labels in front of the replicas, with their values. -/
def fields (r : Record) : List (String × List Char) := [
  ("osd", numeral r.osd.toNat),
  ("pg", r.pg.toList),
  ("op", r.kind.name.toList),
  ("size", numeral r.size.toNat),
  ("client", numeral r.client.toNat),
  ("tid", numeral r.tid.toNat),
  ("throttle_lat", numeral r.throttle.toNat),
  ("recv_lat", numeral r.recv.toNat),
  ("dispatch_lat", numeral r.dispatch.toNat),
  ("queue_lat", numeral r.queue.toNat),
  ("osd_lat", numeral r.osdLatency.toNat)]

/-- One detail of the store. -/
def detailItem (item : List Char × List Char) : List Char := item.1 ++ ([' '] ++ item.2)

theorem toList_toString_uint32 (v : UInt32) : (toString v).toList = numeral v.toNat :=
  Nat.toList_repr

theorem toList_peer (p : Peer) :
    (peer p).toList = Capture.renderPeer (numeral p.osd.toNat, numeral p.latency.toNat) := by
  simp [peer, Capture.renderPeer, toList_toString_uint32, toList_toString]
  rfl

theorem toList_detail_micros (name : String) (value : UInt64) :
    (detail .micros name value).toList = detailItem (name.toList, numeral value.toNat) := by
  simp [detail, detailItem, TimeUnit.rounded, toList_toString]

/-- The parts of a line in microseconds. -/
theorem toList_line_micros (r : Record) : (line .micros r).toList =
    (fields r).flatMap field ++
      ("peers [".toList ++ ([',', ' '].intercalate (r.peerItems.map Capture.renderPeer) ++ ']' ::
        (" bluestore_lat ".toList ++ (numeral r.bluestore.toNat ++ ' ' :: '(' ::
          ([' '].intercalate (r.detailItems.map detailItem) ++ ')' ::
            (" lat_type ".toList ++ (r.finalKind.name.toList ++ ' ' ::
              ("lat ".toList ++ numeral r.final.toNat)))))))) := by
  simp [line, labelled, fields, field, TimeUnit.rounded, toList_toString_uint32,
    toList_toString, String.toList_intercalate, Record.peerItems, Record.detailItems,
    Function.comp_def, toList_peer, toList_detail_micros]

/-! ### Values of labels -/

theorem isSolid_numeral (n : ℕ) : IsRun isSolid (numeral n) :=
  (isDigits_numeral n).imp fun _ => Capture.isSolid_of_isDigit

theorem not_mem_of_isSolid {text : List Char} (h : IsRun isSolid text) : ' ' ∉ text :=
  h.not_mem (by decide)

theorem not_mem_fields (h : r.IsTraced) : ∀ f ∈ fields r, ' ' ∉ f.2 := by
  simp only [fields, List.forall_mem_cons]
  refine ⟨?_, not_mem_of_isSolid h.pg, not_mem_of_isSolid (Capture.isSolid_kindName _), ?_⟩
  · exact not_mem_of_isSolid (isSolid_numeral _)
  · simp [not_mem_of_isSolid (isSolid_numeral _)]

/-- The same labels part a text into the same values. -/
theorem fields_inj {fs gs : List (String × List Char)} {rest rest' : List Char}
    (hlabels : fs.map Prod.fst = gs.map Prod.fst) (hf : ∀ f ∈ fs, ' ' ∉ f.2)
    (hg : ∀ g ∈ gs, ' ' ∉ g.2) (h : fs.flatMap field ++ rest = gs.flatMap field ++ rest') :
    fs = gs ∧ rest = rest' := by
  induction fs generalizing gs with
  | nil =>
    obtain rfl := List.map_eq_nil_iff.mp hlabels.symm
    exact ⟨rfl, h⟩
  | cons f fs ih =>
    obtain ⟨g, gs, rfl, hlabel, hlabels⟩ := List.map_eq_cons_iff.mp hlabels.symm
    obtain ⟨hf, hfs⟩ := List.forall_mem_cons.mp hf
    obtain ⟨hg, hgs⟩ := List.forall_mem_cons.mp hg
    simp only [List.flatMap_cons, field, hlabel, List.append_assoc, List.append_cancel_left_eq,
      List.cons_append, List.cons.injEq, true_and, List.nil_append] at h
    obtain ⟨hvalue, hothers⟩ := append_cons_inj_of_not_mem_front hf hg h
    obtain ⟨rfl, hrest⟩ := ih hlabels.symm hfs hgs hothers
    exact ⟨by rw [Prod.ext hlabel.symm hvalue], hrest⟩

/-! ### Items of lists -/

theorem not_mem_intercalate {c : Char} {separator : List Char} {parts : List (List Char)}
    (hseparator : c ∉ separator) (hparts : ∀ part ∈ parts, c ∉ part) :
    c ∉ separator.intercalate parts := by
  induction parts with
  | nil => simp
  | cons part parts ih =>
    obtain ⟨hpart, hparts⟩ := List.forall_mem_cons.mp hparts
    cases parts with
    | nil => simpa using hpart
    | cons next parts =>
      rw [List.intercalate_cons_cons, List.mem_append, List.mem_append, not_or, not_or]
      exact ⟨⟨hpart, hseparator⟩, ih hparts⟩

theorem intercalate_renderPeer (items : List (List Char × List Char)) :
    [',', ' '].intercalate (items.map Capture.renderPeer) = Capture.renderPeers items := by
  induction items with
  | nil => rfl
  | cons item items ih =>
    cases items with
    | nil => simp [Capture.renderPeers]
    | cons next items =>
      rw [List.map_cons, List.map_cons, List.intercalate_cons_cons, ← List.map_cons, ih]
      simp [Capture.renderPeers]

/-- The replicas of a line are a list of replicas as a trace has them. -/
theorem peerList_intercalate (r : Record) :
    Capture.PeerList r.peerItems ([',', ' '].intercalate (r.peerItems.map Capture.renderPeer)) := by
  rw [intercalate_renderPeer]
  exact Capture.renderPeers_list r.isDigits_peerItems isPad_nil

/-- The replicas of a line are found again. -/
theorem findAll_intercalate_renderPeer (r : Record) :
    findAll Capture.peerScanner ([',', ' '].intercalate (r.peerItems.map Capture.renderPeer)) =
      r.peerItems := by
  simpa using (peerList_intercalate r).findAll_append (show '(' ∉ [] by simp)

/-- The details of a line are found again. -/
theorem findAll_intercalate_detailItem
    (h : ∀ item ∈ items, IsRun isWord item.1 ∧ IsRun isDigit item.2) :
    findAll Capture.detailScanner ([' '].intercalate (items.map detailItem)) = items := by
  induction items with
  | nil => rfl
  | cons item items ih =>
    obtain ⟨⟨hname, hvalue⟩, hitems⟩ := List.forall_mem_cons.mp h
    have hspells : Capture.DetailSpells item (detailItem item) := .intro hname (by decide) hvalue
    cases items with
    | nil => simpa using hspells.findAll_append boundary_nil
    | cons next items =>
      have hblank (rest : List Char) : Boundary isDigit ([' '] ++ rest) :=
        boundary_cons.mpr (by decide)
      rw [List.map_cons, List.map_cons, List.intercalate_cons_cons, ← List.map_cons,
        List.append_assoc, hspells.findAll_append (hblank _),
        Capture.findAll_detailScanner_pad Capture.isPad_blank, ih hitems]

theorem not_mem_intercalate_detailItem
    (h : ∀ item ∈ items, IsRun isWord item.1 ∧ IsRun isDigit item.2) :
    ')' ∉ [' '].intercalate (items.map detailItem) := by
  refine not_mem_intercalate (by decide) fun part hpart => ?_
  obtain ⟨item, hitem, rfl⟩ := List.mem_map.mp hpart
  obtain ⟨hname, hvalue⟩ := h item hitem
  simp only [detailItem, List.mem_append, not_or]
  exact ⟨hname.not_mem (by decide +kernel), by decide, hvalue.not_mem (by decide)⟩

theorem peerItems_inj (h : a.peerItems = b.peerItems) : a.peers = b.peers := by
  refine List.map_injective_iff.mpr (fun p q heq => ?_) h
  obtain ⟨hosd, hlatency⟩ := Prod.mk.inj heq
  cases p
  cases q
  rw [Peer.mk.injEq]
  exact ⟨UInt32.toNat_inj.mp (numeral_injective hosd),
    UInt64.toNat_inj.mp (numeral_injective hlatency)⟩

theorem detailItems_inj (h : a.detailItems = b.detailItems) : a.details = b.details := by
  refine Table.eq_of_toList_eq (List.map_injective_iff.mpr (fun p q heq => ?_) h)
  obtain ⟨hname, hvalue⟩ := Prod.mk.inj heq
  exact Prod.ext (String.toList_inj.mp hname) (UInt64.toNat_inj.mp (numeral_injective hvalue))

/-! ### Lines -/

/-- The parts of a line make up a record. -/
theorem eq_of_parts (hfields : fields a = fields b) (hpeers : a.peerItems = b.peerItems)
    (hbluestore : numeral a.bluestore.toNat = numeral b.bluestore.toNat)
    (hdetails : a.detailItems = b.detailItems)
    (hfinalKind : a.finalKind.name.toList = b.finalKind.name.toList)
    (hfinal : numeral a.final.toNat = numeral b.final.toNat) : a = b := by
  have hpeers := peerItems_inj hpeers
  have hdetails := detailItems_inj hdetails
  simp only [fields, List.cons.injEq, Prod.mk.injEq, true_and, and_true, String.toList_inj,
    numeral_injective.eq_iff, UInt32.toNat_inj, UInt64.toNat_inj, OpKind.name_injective.eq_iff]
    at hfields
  rw [numeral_injective.eq_iff, UInt64.toNat_inj] at hbluestore hfinal
  rw [String.toList_inj, FinalKind.name_injective.eq_iff] at hfinalKind
  cases a
  cases b
  simp_all only

/-- Traced records with the same line in microseconds are the same. -/
theorem line_micros_inj (ha : a.IsTraced) (hb : b.IsTraced)
    (h : line .micros a = line .micros b) : a = b := by
  have htext := congrArg String.toList h
  rw [toList_line_micros, toList_line_micros] at htext
  -- Each part ends where a character follows that it does not have.
  have hbracket (r : Record) : ']' ∉ [',', ' '].intercalate (r.peerItems.map Capture.renderPeer) :=
    (peerList_intercalate r).not_mem (by decide) (by decide) (by decide)
  have hnumeral (n : ℕ) : ' ' ∉ numeral n := not_mem_of_isSolid (isSolid_numeral n)
  have hkind (kind : FinalKind) : ' ' ∉ kind.name.toList := by cases kind <;> decide
  have hlabels : (fields a).map Prod.fst = (fields b).map Prod.fst := rfl
  obtain ⟨hfields, hrest⟩ := fields_inj hlabels (not_mem_fields ha) (not_mem_fields hb) htext
  obtain ⟨hpeers, hrest⟩ := append_cons_inj_of_not_mem_front (hbracket a) (hbracket b)
    (List.append_cancel_left hrest)
  obtain ⟨hbluestore, hrest⟩ := append_cons_inj_of_not_mem_front (hnumeral _) (hnumeral _)
    (List.append_cancel_left hrest)
  obtain ⟨hdetails, hrest⟩ := append_cons_inj_of_not_mem_front
    (not_mem_intercalate_detailItem ha.detailItems) (not_mem_intercalate_detailItem hb.detailItems)
    (List.cons.inj hrest).2
  obtain ⟨hfinalKind, hrest⟩ := append_cons_inj_of_not_mem_front (hkind _) (hkind _)
    (List.append_cancel_left hrest)
  have hfinal := List.append_cancel_left hrest
  -- The scanners of a trace find the items of both lists again.
  have hpeers := congrArg (findAll Capture.peerScanner) hpeers
  rw [findAll_intercalate_renderPeer, findAll_intercalate_renderPeer] at hpeers
  have hdetails := congrArg (findAll Capture.detailScanner) hdetails
  rw [findAll_intercalate_detailItem ha.detailItems,
    findAll_intercalate_detailItem hb.detailItems] at hdetails
  exact eq_of_parts hfields hpeers hbluestore hdetails hfinalKind hfinal

/-- Every record that a trace line holds is traced, and traced records are told apart by their lines
in microseconds: all fields agree, the replicas and the details in their order among them. -/
theorem line_micros_lossless :
    (∀ text r, Record.ofLine? text = some r → r.IsTraced) ∧
      ∀ a b : Record, a.IsTraced → b.IsTraced → (line .micros a = line .micros b ↔ a = b) :=
  ⟨fun _ _ => Record.isTraced_of_ofLine?,
    fun _ _ ha hb => ⟨line_micros_inj ha hb, congrArg (line .micros)⟩⟩

/-- A read whose placement group and details look like other parts of a line. -/
def mimic : Record where
  osd := 4
  pg := "]bluestore_lat(8"
  kind := .read
  size := 0
  client := 84211
  tid := 9
  throttle := 2
  recv := 14
  dispatch := 3
  queue := 20
  osdLatency := 310
  peers := []
  bluestore := 880
  details := ⟨[("lat_type", 4), ("peers", 17)], by decide⟩
  finalKind := .op
  final := 918978

/-- The same read with its details turned around. -/
def mimicTurned : Record := { mimic with details := ⟨[("peers", 17), ("lat_type", 4)], by decide⟩ }

/-- The order of details shows. -/
theorem line_micros_lossless_mimic :
    Record.ofLine? mimic.render = some mimic ∧ mimic.IsTraced ∧ mimicTurned.IsTraced ∧
      line .micros mimic ≠ line .micros mimicTurned := by
  have hline : Record.ofLine? mimic.render = some mimic := by decide +kernel
  have hmimic : mimic.IsTraced := line_micros_lossless.1 _ _ hline
  have hturned : mimicTurned.IsTraced := ⟨by decide +kernel, by decide +kernel⟩
  have hne : mimic ≠ mimicTurned := by decide +kernel
  exact ⟨hline, hmimic, hturned, (line_micros_lossless.2 _ _ hmimic hturned).not.mpr hne⟩

end Dump

end OsdLatency
