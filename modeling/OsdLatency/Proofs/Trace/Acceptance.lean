import Mathlib.Data.List.Forall2
import OsdLatency.Proofs.Trace.Items
import OsdLatency.Proofs.Trace.Matching
import OsdLatency.Trace.Reading

/-!
# Which lines hold a record

A line without a match of the grammar is noise. A line with a match holds a record exactly if all
numbers fit that are written in the used match, and is counted as dropped otherwise.

## Main definitions

* `Capture.Values`, `Capture.Denotes` — the record that the parts of a line stand for
* `Capture.Fits` — whether all numbers fit their words

## Main results

* `Capture.record?_eq_some_iff` — the parts have the record that they stand for
* `Capture.exists_denotes_iff` — they stand for a record exactly if all numbers fit
* `LineContent.ofLine_exact` — what every line holds
-/

namespace OsdLatency

open Text

/-! ### Numbers that fit -/

theorem exists_uint32_iff {text : List Char} :
    (∃ v : UInt32, IsNumeral v.toNat text) ↔ FitsBelow (2 ^ 32) text := by
  rw [← uint32?_isSome_iff, Option.isSome_iff_exists]
  simp only [uint32?_eq_some_iff]

theorem exists_uint64_iff {text : List Char} :
    (∃ v : UInt64, IsNumeral v.toNat text) ↔ FitsBelow (2 ^ 64) text := by
  rw [← uint64?_isSome_iff, Option.isSome_iff_exists]
  simp only [uint64?_eq_some_iff]

/-- Reading all items of a list reads each of them. -/
theorem mapM_eq_some_iff {α β : Type} {read : α → Option β} {items : List α} {values : List β} :
    items.mapM read = some values ↔
      List.Forall₂ (fun item value => read item = some value) items values := by
  induction items generalizing values with
  | nil => simp [eq_comm]
  | cons item items ih =>
    simp only [List.mapM_cons, Option.bind_eq_bind, Option.bind_eq_some_iff,
      List.forall₂_cons_left_iff, ih, Option.pure_def, Option.some.injEq]
    constructor
    · rintro ⟨value, hvalue, values, hvalues, rfl⟩
      exact ⟨value, values, hvalue, hvalues, rfl⟩
    · rintro ⟨value, values, hvalue, hvalues, rfl⟩
      exact ⟨value, hvalue, values, hvalues, rfl⟩

theorem exists_forall₂_iff {α β : Type} {R : α → β → Prop} {items : List α} :
    (∃ values, List.Forall₂ R items values) ↔ ∀ item ∈ items, ∃ value, R item value := by
  induction items with
  | nil => simp
  | cons item items ih =>
    simp only [List.forall₂_cons_left_iff, List.forall_mem_cons, ← ih]
    constructor
    · rintro ⟨_, value, values, hvalue, hvalues, rfl⟩
      exact ⟨⟨value, hvalue⟩, values, hvalues⟩
    · rintro ⟨⟨value, hvalue⟩, values, hvalues⟩
      exact ⟨_, value, values, hvalue, hvalues, rfl⟩

namespace Capture

/-! ### The record of the parts of a line -/

/-- The values of a record outside its lists are those that are written in the parts of a line. -/
structure Values (c : Capture) (r : Record) : Prop where
  osd : IsNumeral r.osd.toNat c.head.osd
  pg : r.pg = String.ofList c.head.pg
  kind : r.kind = c.head.kind
  size : IsNumeral r.size.toNat c.head.size
  client : IsNumeral r.client.toNat c.head.client
  tid : IsNumeral r.tid.toNat c.head.tid
  throttle : IsNumeral r.throttle.toNat c.head.throttle
  recv : IsNumeral r.recv.toNat c.head.recv
  dispatch : IsNumeral r.dispatch.toNat c.head.dispatch
  queue : IsNumeral r.queue.toNat c.head.queue
  osdLatency : IsNumeral r.osdLatency.toNat c.head.osdLatency
  bluestore : IsNumeral r.bluestore.toNat c.store.latency
  finalKind : r.finalKind = c.store.final.kind
  final : IsNumeral r.final.toNat c.store.final.latency

/-- A replica is written as an item. -/
def PeerValue (item : List Char × List Char) (peer : Peer) : Prop :=
  IsNumeral peer.osd.toNat item.1 ∧ IsNumeral peer.latency.toNat item.2

/-- A detail of the store is written as an item. -/
def DetailValue (item : List Char × List Char) (entry : String × UInt64) : Prop :=
  entry.1 = String.ofList item.1 ∧ IsNumeral entry.2.toNat item.2

/-- The record that the parts of a line stand for, with the items of its lists. -/
structure Denotes (c : Capture) (peers details : List (List Char × List Char)) (r : Record) :
    Prop where
  values : c.Values r
  peers : List.Forall₂ PeerValue peers r.peers
  details : ∃ entries, List.Forall₂ DetailValue details entries ∧ r.details = Table.ofList entries

/-- The numbers of the parts of a line and of the items of its lists that are 32 bits wide. -/
def numbers32 (c : Capture) (peers : List (List Char × List Char)) : List (List Char) :=
  c.head.osd :: peers.map Prod.fst

/-- The numbers of the parts of a line and of the items of its lists that are 64 bits wide. -/
def numbers64 (c : Capture) (peers details : List (List Char × List Char)) : List (List Char) :=
  [c.head.size, c.head.client, c.head.tid, c.head.throttle, c.head.recv, c.head.dispatch,
    c.head.queue, c.head.osdLatency, c.store.latency, c.store.final.latency] ++
  (peers.map Prod.snd ++ details.map Prod.snd)

/-- All numbers of a line are written in ASCII digits and fit their words. -/
structure Fits (c : Capture) (peers details : List (List Char × List Char)) : Prop where
  narrow : ∀ number ∈ c.numbers32 peers, FitsBelow (2 ^ 32) number
  wide : ∀ number ∈ c.numbers64 peers details, FitsBelow (2 ^ 64) number

variable {c : Capture} {r : Record} {peers details : List (List Char × List Char)}
  {text : List Char}

theorem peersOf?_eq_some_iff (hpeers : Finds PeerSpells text peers) {found : List Peer} :
    peersOf? text = some found ↔ List.Forall₂ PeerValue peers found := by
  rw [peersOf?, peerScanner_takesLongest.finds_iff.mp hpeers, mapM_eq_some_iff]
  -- An item that is found is read by itself, so the statement is one about a single item.
  have hread (item : List Char × List Char) (peer : Peer) :
      (do return { osd := ← uint32? item.1, latency := ← uint64? item.2 }) = some peer ↔
        PeerValue item peer := by
    obtain ⟨osd, latency⟩ := peer
    simp only [Option.bind_eq_bind, Option.bind_eq_some_iff, uint32?_eq_some_iff,
      uint64?_eq_some_iff, Option.pure_def, Option.some.injEq, Peer.mk.injEq, PeerValue]
    constructor
    · rintro ⟨_, hosd, _, hlatency, rfl, rfl⟩
      exact ⟨hosd, hlatency⟩
    · rintro ⟨hosd, hlatency⟩
      exact ⟨osd, hosd, latency, hlatency, rfl, rfl⟩
  simp only [hread]

theorem detailsOf?_eq_some_iff (hdetails : Finds DetailSpells text details)
    {found : Table String UInt64} :
    detailsOf? text = some found ↔
      ∃ entries, List.Forall₂ DetailValue details entries ∧ found = Table.ofList entries := by
  rw [detailsOf?, detailScanner_takesLongest.finds_iff.mp hdetails, Option.map_eq_map,
    Option.map_eq_some_iff]
  have hread (item : List Char × List Char) (entry : String × UInt64) :
      (do return (String.ofList item.1, ← uint64? item.2)) = some entry ↔
        DetailValue item entry := by
    obtain ⟨name, value⟩ := entry
    simp only [Option.bind_eq_bind, Option.bind_eq_some_iff, uint64?_eq_some_iff, Option.pure_def,
      Option.some.injEq, Prod.mk.injEq, DetailValue]
    constructor
    · rintro ⟨_, hvalue, rfl, rfl⟩
      exact ⟨rfl, hvalue⟩
    · rintro ⟨rfl, hvalue⟩
      exact ⟨value, hvalue, rfl, rfl⟩
  simp only [mapM_eq_some_iff, hread, eq_comm (b := found)]

/-- The parts of a line have a record exactly if they stand for it. -/
theorem record?_eq_some_iff (hpeers : Finds PeerSpells (c.peers.getD []) peers)
    (hdetails : Finds DetailSpells (c.store.details.getD []) details) :
    c.record? = some r ↔ c.Denotes peers details r := by
  constructor
  · intro h
    -- The values are read in the order of the line, and each must be readable.
    obtain ⟨osd, hosd, h₁⟩ := Option.bind_eq_some_iff.mp h
    obtain ⟨size, hsize, h₂⟩ := Option.bind_eq_some_iff.mp h₁
    obtain ⟨client, hclient, h₃⟩ := Option.bind_eq_some_iff.mp h₂
    obtain ⟨tid, htid, h₄⟩ := Option.bind_eq_some_iff.mp h₃
    obtain ⟨throttle, hthrottle, h₅⟩ := Option.bind_eq_some_iff.mp h₄
    obtain ⟨recv, hrecv, h₆⟩ := Option.bind_eq_some_iff.mp h₅
    obtain ⟨dispatch, hdispatch, h₇⟩ := Option.bind_eq_some_iff.mp h₆
    obtain ⟨queue, hqueue, h₈⟩ := Option.bind_eq_some_iff.mp h₇
    obtain ⟨osdLatency, hosdLatency, h₉⟩ := Option.bind_eq_some_iff.mp h₈
    obtain ⟨replicas, hreplicas, h₁₀⟩ := Option.bind_eq_some_iff.mp h₉
    obtain ⟨bluestore, hbluestore, h₁₁⟩ := Option.bind_eq_some_iff.mp h₁₀
    obtain ⟨table, htable, h₁₂⟩ := Option.bind_eq_some_iff.mp h₁₁
    obtain ⟨final, hfinal, h₁₃⟩ := Option.bind_eq_some_iff.mp h₁₂
    obtain rfl := Option.some.inj h₁₃
    rw [uint64?_eq_some_iff] at *
    exact ⟨⟨uint32?_eq_some_iff.mp hosd, rfl, rfl, hsize, hclient, htid, hthrottle, hrecv,
      hdispatch, hqueue, hosdLatency, hbluestore, rfl, hfinal⟩,
      (peersOf?_eq_some_iff hpeers).mp hreplicas, (detailsOf?_eq_some_iff hdetails).mp htable⟩
  · rintro ⟨values, hreplicas, htable⟩
    simp only [record?, Option.bind_eq_bind, Option.bind_some, Option.pure_def,
      uint32?_eq_some_iff.mpr values.osd, uint64?_eq_some_iff.mpr values.size,
      uint64?_eq_some_iff.mpr values.client, uint64?_eq_some_iff.mpr values.tid,
      uint64?_eq_some_iff.mpr values.throttle, uint64?_eq_some_iff.mpr values.recv,
      uint64?_eq_some_iff.mpr values.dispatch, uint64?_eq_some_iff.mpr values.queue,
      uint64?_eq_some_iff.mpr values.osdLatency, (peersOf?_eq_some_iff hpeers).mpr hreplicas,
      uint64?_eq_some_iff.mpr values.bluestore, (detailsOf?_eq_some_iff hdetails).mpr htable,
      uint64?_eq_some_iff.mpr values.final, ← values.pg, ← values.kind, ← values.finalKind]

/-- The numbers of a line that stands for a record fit. -/
theorem Denotes.fits (h : c.Denotes peers details r) : c.Fits peers details := by
  obtain ⟨values, hpeers, entries, hentries, -⟩ := h
  have hpeer : ∀ item ∈ peers, ∃ peer, PeerValue item peer := exists_forall₂_iff.mp ⟨_, hpeers⟩
  have hdetail : ∀ item ∈ details, ∃ entry, DetailValue item entry :=
    exists_forall₂_iff.mp ⟨_, hentries⟩
  -- A number that has a value fits, whichever part or item it belongs to.
  refine ⟨?_, ?_⟩
  · intro number hnumber
    rcases List.mem_cons.mp hnumber with rfl | hnumber
    · exact exists_uint32_iff.mp ⟨_, values.osd⟩
    · obtain ⟨item, hitem, rfl⟩ := List.mem_map.mp hnumber
      obtain ⟨peer, hosd, -⟩ := hpeer item hitem
      exact exists_uint32_iff.mp ⟨_, hosd⟩
  · intro number hnumber
    rcases List.mem_append.mp hnumber with hnumber | hnumber
    · simp only [List.mem_cons, List.not_mem_nil, or_false] at hnumber
      rcases hnumber with rfl | rfl | rfl | rfl | rfl | rfl | rfl | rfl | rfl | rfl
      · exact exists_uint64_iff.mp ⟨_, values.size⟩
      · exact exists_uint64_iff.mp ⟨_, values.client⟩
      · exact exists_uint64_iff.mp ⟨_, values.tid⟩
      · exact exists_uint64_iff.mp ⟨_, values.throttle⟩
      · exact exists_uint64_iff.mp ⟨_, values.recv⟩
      · exact exists_uint64_iff.mp ⟨_, values.dispatch⟩
      · exact exists_uint64_iff.mp ⟨_, values.queue⟩
      · exact exists_uint64_iff.mp ⟨_, values.osdLatency⟩
      · exact exists_uint64_iff.mp ⟨_, values.bluestore⟩
      · exact exists_uint64_iff.mp ⟨_, values.final⟩
    · rcases List.mem_append.mp hnumber with hnumber | hnumber
      · obtain ⟨item, hitem, rfl⟩ := List.mem_map.mp hnumber
        obtain ⟨peer, -, hlatency⟩ := hpeer item hitem
        exact exists_uint64_iff.mp ⟨_, hlatency⟩
      · obtain ⟨item, hitem, rfl⟩ := List.mem_map.mp hnumber
        obtain ⟨entry, -, hvalue⟩ := hdetail item hitem
        exact exists_uint64_iff.mp ⟨_, hvalue⟩

/-- A line whose numbers fit stands for a record. -/
theorem Fits.exists_denotes (h : c.Fits peers details) : ∃ r, c.Denotes peers details r := by
  obtain ⟨hnarrow, hwide⟩ := h
  obtain ⟨osd, hosd⟩ := exists_uint32_iff.mpr (hnarrow c.head.osd (by simp [numbers32]))
  -- Only the OSDs are narrow; every other number is read the same way.
  have hnumber (number : List Char) (hmem : number ∈ c.numbers64 peers details) :
      ∃ v : UInt64, IsNumeral v.toNat number := exists_uint64_iff.mpr (hwide number hmem)
  obtain ⟨size, hsize⟩ := hnumber c.head.size (by simp [numbers64])
  obtain ⟨client, hclient⟩ := hnumber c.head.client (by simp [numbers64])
  obtain ⟨tid, htid⟩ := hnumber c.head.tid (by simp [numbers64])
  obtain ⟨throttle, hthrottle⟩ := hnumber c.head.throttle (by simp [numbers64])
  obtain ⟨recv, hrecv⟩ := hnumber c.head.recv (by simp [numbers64])
  obtain ⟨dispatch, hdispatch⟩ := hnumber c.head.dispatch (by simp [numbers64])
  obtain ⟨queue, hqueue⟩ := hnumber c.head.queue (by simp [numbers64])
  obtain ⟨osdLatency, hosdLatency⟩ := hnumber c.head.osdLatency (by simp [numbers64])
  obtain ⟨bluestore, hbluestore⟩ := hnumber c.store.latency (by simp [numbers64])
  obtain ⟨final, hfinal⟩ := hnumber c.store.final.latency (by simp [numbers64])
  obtain ⟨replicas, hreplicas⟩ : ∃ replicas, List.Forall₂ PeerValue peers replicas := by
    refine exists_forall₂_iff.mpr fun item hitem => ?_
    obtain ⟨peer, hpeer⟩ := exists_uint32_iff.mpr
      (hnarrow item.1 (List.mem_cons_of_mem _ (List.mem_map_of_mem hitem)))
    obtain ⟨latency, hlatency⟩ := hnumber item.2 (by
      simp only [numbers64, List.mem_append]
      exact Or.inr (Or.inl (List.mem_map_of_mem hitem)))
    exact ⟨⟨peer, latency⟩, hpeer, hlatency⟩
  obtain ⟨entries, hentries⟩ : ∃ entries, List.Forall₂ DetailValue details entries := by
    refine exists_forall₂_iff.mpr fun item hitem => ?_
    obtain ⟨value, hvalue⟩ := hnumber item.2 (by
      simp only [numbers64, List.mem_append]
      exact Or.inr (Or.inr (List.mem_map_of_mem hitem)))
    exact ⟨⟨String.ofList item.1, value⟩, rfl, hvalue⟩
  exact ⟨⟨osd, String.ofList c.head.pg, c.head.kind, size, client, tid, throttle, recv, dispatch,
    queue, osdLatency, replicas, bluestore, Table.ofList entries, c.store.final.kind, final⟩,
    ⟨hosd, rfl, rfl, hsize, hclient, htid, hthrottle, hrecv, hdispatch, hqueue, hosdLatency,
      hbluestore, rfl, hfinal⟩, hreplicas, entries, hentries, rfl⟩

/-- The parts of a line stand for a record exactly if all numbers fit. -/
theorem exists_denotes_iff : (∃ r, c.Denotes peers details r) ↔ c.Fits peers details :=
  ⟨fun ⟨_, h⟩ => h.fits, Fits.exists_denotes⟩

end Capture

/-! ### What a line holds -/

/-- The check in front passes over no line that has a match. -/
theorem Record.ofLine?_eq_bind (line : List Char) :
    Record.ofLine? line = (Capture.ofLine? line).bind Capture.record? := by
  unfold Record.ofLine?
  split
  · rfl
  · rename_i hmay
    cases hcapture : Capture.ofLine? line with
    | none => rfl
    | some c =>
      -- What the check passes over would have a match, and every match passes the check.
      have hmatch := Capture.ofLine?_isSome_iff.mp (by rw [hcapture]; rfl)
      exact absurd (Capture.mayBeIn_of_hasMatch hmatch) hmay

/-- A line is noise, or its used match stands for a record exactly if all numbers fit. -/
theorem LineContent.ofLine_exact (line : List Char) :
    (¬ Capture.HasMatch line ∧ Record.ofLine? line = none ∧
      (LineContent.ofLine line).isOverflow = false) ∨
    (Capture.HasMatch line ∧ Record.mayBeIn line = true ∧
      ∃ c peers details, Capture.IsUsed c line ∧
        Finds Capture.PeerSpells (c.peers.getD []) peers ∧
        Finds Capture.DetailSpells (c.store.details.getD []) details ∧
        (∀ r, Record.ofLine? line = some r ↔ c.Denotes peers details r) ∧
        ((∃ r, Record.ofLine? line = some r) ↔ c.Fits peers details) ∧
        ((LineContent.ofLine line).isOverflow = true ↔ ¬ c.Fits peers details)) := by
  by_cases hmatch : Capture.HasMatch line
  · -- The used match and the items of its lists are those that the searches find.
    obtain ⟨c, hc⟩ := Option.isSome_iff_exists.mp (Capture.ofLine?_isSome_iff.mpr hmatch)
    have hmay := Capture.mayBeIn_of_hasMatch hmatch
    have hrecord : Record.ofLine? line = c.record? := by rw [Record.ofLine?_eq_bind, hc]; rfl
    obtain ⟨peers, hpeers⟩ : ∃ peers, Finds Capture.PeerSpells (c.peers.getD []) peers :=
      ⟨_, Capture.peerScanner_takesLongest.finds _⟩
    obtain ⟨details, hdetails⟩ :
        ∃ details, Finds Capture.DetailSpells (c.store.details.getD []) details :=
      ⟨_, Capture.detailScanner_takesLongest.finds _⟩
    have hdenotes (r : Record) : Record.ofLine? line = some r ↔ c.Denotes peers details r := by
      rw [hrecord, Capture.record?_eq_some_iff hpeers hdetails]
    have hfits : (∃ r, Record.ofLine? line = some r) ↔ c.Fits peers details := by
      simp only [hdenotes, Capture.exists_denotes_iff]
    refine Or.inr ⟨hmatch, hmay, c, peers, details, Capture.ofLine?_eq_some_iff.mp hc, hpeers,
      hdetails, hdenotes, hfits, ?_⟩
    rw [LineContent.isOverflow_ofLine, ← hfits, ← Option.isSome_iff_exists]
    simp [Record.overflowsIn, hmay, hc]
  · have hnone : Capture.ofLine? line = none := by
      rw [← Option.not_isSome_iff_eq_none, Capture.ofLine?_isSome_iff]
      exact hmatch
    refine Or.inl ⟨hmatch, by rw [Record.ofLine?_eq_bind, hnone]; rfl, ?_⟩
    rw [LineContent.isOverflow_ofLine]
    simp [Record.overflowsIn, hnone]

end OsdLatency
