import OsdLatency.Proofs.Trace.Closing
import OsdLatency.Proofs.Trace.Heads

/-!
# Lines that are cut off

Behind a line that has been cut off in front of its final latency, the next line is read as if it
stood alone, unless the first line has opened a list that the second one closes. Then the list goes
on from the one into the other, and the parts in front of it come from the first line, those behind
it from the second.

## Main definitions

* `Capture.Stitches` — the parts that are stitched together from two lines

## Main results

* `Capture.Stitches.unique` — there is at most one way to stitch two lines together
* `Capture.scanner_cut` — what is found at the beginning of the cut line
* `Capture.Written.ofLine?_cut` — what is found in the two lines together
* `Record.ofLine?_cut_iff` — which cut lines spoil no record
* `Record.exists_ofLine?_cut` — a cut line that takes its final latency from another record
-/

namespace OsdLatency

open Text Text.Scanner

namespace Capture

/-- The parts of the line `A`, cut off to `T`, and of the next line `B`, stitched together at a list
that `T` has opened: at the details if both lines have them, or else at the replicas. -/
inductive Stitches (a b : Capture) (A B T : List Char) : Capture → Prop
  | details {inner inner' : List Char} :
      a.store.OpensDetails A T inner → b.store.ClosesDetails B inner' →
      Stitches a b A B T
        ⟨a.head, a.peers, ⟨a.store.latency, some (inner ++ ' ' :: inner'), b.store.final⟩⟩
  | peers {inner inner' : List Char} :
      (∀ inner, a.store.OpensDetails A T inner → b.store.details = none) →
      a.OpensPeers A T inner → b.ClosesPeers B inner' →
      Stitches a b A B T ⟨a.head, some ('[' :: (inner ++ ' ' :: inner') ++ [']']), b.store⟩

/-- The parts with fewer digits of the final latency. -/
def shorten (c : Capture) (latency : List Char) : Capture :=
  { c with store := c.store.shorten latency }

variable {a b c c' : Capture} {A B T inner inner' : List Char}
  {peers details peers' details' : List (List Char × List Char)}

/-! ### Two lines are stitched together in one way -/

theorem Store.OpensDetails.unique {store : Store} (h : store.OpensDetails A T inner)
    (h' : store.OpensDetails A T inner') : inner = inner' := by
  obtain ⟨list, before, after, hat, rfl⟩ := h
  obtain ⟨list', before', after', hat', heq⟩ := h'
  obtain ⟨-, rfl, -⟩ := hat.unique hat'
  exact (List.cons.inj (List.append_cancel_left heq)).2

theorem Store.ClosesDetails.unique {store : Store} (h : store.ClosesDetails B inner)
    (h' : store.ClosesDetails B inner') : inner = inner' := by
  obtain ⟨list, before, after, hat, rfl⟩ := h
  obtain ⟨list', before', after', hat', rfl⟩ := h'
  obtain ⟨rfl, rfl, -⟩ := hat.unique hat'
  rfl

theorem OpensPeers.unique (hpart : DetailsPart details c.store.details)
    (h : c.OpensPeers A T inner) (h' : c.OpensPeers A T inner') : inner = inner' := by
  obtain ⟨list, before, after, hat, rfl⟩ := h
  obtain ⟨list', before', after', hat', heq⟩ := h'
  obtain ⟨-, rfl, -⟩ := hat.unique hpart hat'
  exact (List.cons.inj (List.append_cancel_left heq)).2

theorem ClosesPeers.unique (hpart : DetailsPart details c.store.details)
    (h : c.ClosesPeers B inner) (h' : c.ClosesPeers B inner') : inner = inner' := by
  obtain ⟨list, before, after, hat, rfl⟩ := h
  obtain ⟨list', before', after', hat', rfl⟩ := h'
  obtain ⟨rfl, rfl, -⟩ := hat.unique hpart hat'
  rfl

theorem Store.ClosesDetails.details_ne_none {store : Store} (h : store.ClosesDetails B inner) :
    store.details ≠ none := by
  obtain ⟨list, before, after, hat, -⟩ := h
  rw [hat.details]
  exact Option.some_ne_none list

theorem ClosesPeers.peers_ne_none (h : c.ClosesPeers B inner) : c.peers ≠ none := by
  obtain ⟨list, before, after, hat, -⟩ := h
  rw [hat.peers]
  exact Option.some_ne_none _

/-- There is at most one way to stitch two lines together. -/
theorem Stitches.unique (ha : a.Written peers details A) (hb : b.Written peers' details' B)
    (h : Stitches a b A B T c) (h' : Stitches a b A B T c') : c = c' := by
  cases h with
  | details hopens hcloses =>
    cases h' with
    | details hopens' hcloses' => rw [hopens.unique hopens', hcloses.unique hcloses']
    | peers hnone => exact absurd (hnone _ hopens) hcloses.details_ne_none
  | peers hnone hopens hcloses =>
    cases h' with
    | details hopens' hcloses' => exact absurd (hnone _ hopens') hcloses'.details_ne_none
    | peers _ hopens' hcloses' =>
      rw [hopens.unique ha.details hopens', hcloses.unique hb.details hcloses']

/-! ### At the beginning of the cut line -/

theorem Written.exists_columns (hb : b.Written peers details B) :
    ∃ others, columns B = "osd".toList :: b.head.osd :: others ∧ IsRun isDigit b.head.osd := by
  obtain ⟨front, back, ⟨hformed, hspaced⟩, -, rfl⟩ := hb.spells
  exact ⟨_, hspaced.columns_append back, hformed.osd⟩

theorem Written.beginsLine (hb : b.Written peers details B) : BeginsLine B := by
  obtain ⟨front, back, ⟨-, hspaced⟩, -, rfl⟩ := hb.spells
  obtain ⟨gap, rest, -, hgap, -, rfl⟩ := spaced_cons_iff.mp hspaced
  refine ⟨gap ++ (rest ++ back), by simp, hgap.boundary_append fun _ => isSolid_of_isBlank⟩

/-- A head that is cut off is not completed by the next line. -/
theorem scanner_head_cut {head : Head} {front : List Char} (hfront : head.Spells front)
    (hb : b.Written peers details B) (hT : T <+: front) : scanner (T ++ ' ' :: B) = none := by
  by_contra hne
  obtain ⟨⟨c, left⟩, hfound⟩ := Option.ne_none_iff_exists'.mp hne
  obtain ⟨head', rest, hhead, hbehind⟩ := bind_eq_some_iff.mp hfound
  obtain ⟨others, hB, hid⟩ := hb.exists_columns
  obtain ⟨more, hcolumns, hrest⟩ := columns_of_headScanner hB hid hhead
  -- All columns of the front belong to the head, so the next line is all that is left.
  have hnil : more = [] := by
    obtain ⟨behind, rfl⟩ := hT
    have hle := length_columns_le T behind
    have hall := hfront.2.columns_append []
    rw [List.append_nil, columns_nil, List.append_nil] at hall
    rw [hcolumns, hall, List.length_append] at hle
    have hlength : head.tokens.length = head'.tokens.length := rfl
    exact List.eq_nil_of_length_eq_zero (by omega)
  rw [hnil, List.nil_append, hB] at hrest
  obtain ⟨text, -, -, hboundary⟩ := headScanner_sound hhead
  obtain ⟨pad, rest', rfl, hpad, -⟩ := columns_eq_cons_iff.mp hrest
  have hpadnil : pad = [] := by
    cases pad with
    | nil => rfl
    | cons d pad =>
      have hd := boundary_cons.mp hboundary
      rw [hpad d List.mem_cons_self] at hd
      simp at hd
  subst hpadnil
  have hpeers : peersScanner ("osd".toList ++ rest') = none := by
    rw [peersScanner_plain (by simp), storeScanner_eq_none (by simp)]
    rfl
  obtain ⟨_, _, hscan, -⟩ := bind_eq_some_iff.mp hbehind
  rw [List.nil_append, hpeers] at hscan
  simp at hscan

/-- At the beginning of a line that is cut off in front of its final latency, the parts are found
that are stitched together from it and the next line, if there are any. -/
theorem scanner_cut (ha : a.Written peers details A) (hb : b.Written peers' details' B)
    (hT : T <+: A)
    (hcut : ∀ latency, latency ≠ [] → latency <+: a.store.final.latency →
      ¬ (a.shorten latency).Spells T) :
    (∃ c left, Stitches a b A B T c ∧ scanner (T ++ ' ' :: B) = some (c, left)) ∨
      ((∀ c, ¬ Stitches a b A B T c) ∧ scanner (T ++ ' ' :: B) = none) := by
  obtain ⟨front, back, hfront, hback, rfl⟩ := ha.spells
  obtain ⟨-, hline⟩ := not_or.mp fun hmem => ha.line (List.mem_append.mpr hmem)
  have hopensDetails {T inner : List Char} (h : a.store.OpensDetails (front ++ back) T inner) :=
    h.of_append fun _ => hback.exists_detailsAt
  have hopensPeers {T inner : List Char} (h : a.OpensPeers (front ++ back) T inner) :=
    h.of_append hback ha.details
  -- A line that is cut off within its head has opened no list.
  rcases prefix_append_cases hT with hle | ⟨t, rfl, hne, ht⟩
  · refine Or.inr ⟨?_, scanner_head_cut hfront hb hle⟩
    have hlength := hle.length_le
    intro c hc
    cases hc with
    | details hopens _ =>
      obtain ⟨t, rfl, hne, -⟩ := hopensDetails hopens
      simp [hne] at hlength
    | peers _ hopens _ =>
      obtain ⟨t, rfl, hne, -⟩ := hopensPeers hopens
      simp [hne] at hlength
  · have hboundary : Boundary isBlank (t ++ ' ' :: B) := by
      obtain ⟨c, t, rfl⟩ := List.exists_cons_of_ne_nil hne
      obtain ⟨left, rfl⟩ := ht
      have hfirst : Boundary isBlank (c :: t ++ left ++ []) := hback.boundary_append
      simpa using hfirst
    have hscan : scanner ((front ++ t) ++ ' ' :: B) =
        (peersScanner (t ++ ' ' :: B)).map fun found =>
          (⟨a.head, found.1.1, found.1.2⟩, found.2) := by
      rw [List.append_assoc]
      exact scanner_append hfront hboundary
    -- Where the details have been opened, those of the next line are missing.
    have hmissing (h : ∀ inner, a.store.OpensDetails back t inner →
        upTo ')' finalScanner (' ' :: B) = none) (inner : List Char)
        (hopens : a.store.OpensDetails (front ++ back) (front ++ t) inner) :
        b.store.details = none := by
      obtain ⟨t', heq, -, hopens'⟩ := hopensDetails hopens
      obtain rfl : t = t' := List.append_cancel_left heq
      rcases hb.upTo_paren with ⟨inner', -, hfound⟩ | ⟨hnone, -⟩
      · rw [h inner hopens'] at hfound
        simp at hfound
      · exact hnone
    have hcutoff := peersScanner_cut hb.beginsLine hback ha.peers ha.details hline ht hne
      fun latency hlatency hle hspells => hcut latency hlatency hle ⟨front, t, hfront, hspells, rfl⟩
    rw [hscan]
    generalize peersScanner (t ++ ' ' :: B) = result at hcutoff
    cases hcutoff with
    | @details inner found hopens hfound =>
      rcases hb.upTo_paren with ⟨inner', hcloses, hfound'⟩ | ⟨-, hnone⟩
      · rw [hfound] at hfound'
        obtain rfl := Option.some.inj hfound'
        exact Or.inl ⟨_, _, .details hopens.append hcloses, rfl⟩
      · rw [hfound] at hnone
        simp at hnone
    | @peers inner hnone hopens =>
      rcases hb.upTo_bracket with ⟨inner', hcloses, hfound⟩ | ⟨hpeersNone, hfound⟩
      · rw [hfound]
        exact Or.inl ⟨_, _, .peers (hmissing hnone) hopens.append hcloses, rfl⟩
      · rw [hfound]
        refine Or.inr ⟨?_, rfl⟩
        intro c hc
        cases hc with
        | details hopens' hcloses =>
          exact hcloses.details_ne_none (hmissing hnone _ hopens')
        | peers _ _ hcloses => exact hcloses.peers_ne_none hpeersNone
    | refused hnone hno =>
      refine Or.inr ⟨?_, rfl⟩
      intro c hc
      cases hc with
      | details hopens' hcloses => exact hcloses.details_ne_none (hmissing hnone _ hopens')
      | peers _ hopens' _ =>
        obtain ⟨t', heq, -, hopens⟩ := hopensPeers hopens'
        obtain rfl : t = t' := List.append_cancel_left heq
        exact hno _ hopens

/-! ### The two lines together -/

/-- Behind the beginning of a cut line, nothing is found in front of the next line. -/
theorem Written.refused_cut (ha : a.Written peers details A) (hb : b.Written peers' details' B)
    (hT : T <+: A) (hnone : scanner (T ++ ' ' :: B) = none) :
    Refused scanner (T ++ [' ']) B := by
  obtain ⟨others, hB, hid⟩ := hb.exists_columns
  rintro before behind hsplit hne
  -- Behind the first character of the cut line no head begins.
  rcases List.eq_nil_or_concat behind with rfl | ⟨t, d, rfl⟩
  · exact absurd rfl hne
  · rw [List.concat_eq_append] at hsplit ⊢
    obtain ⟨rfl, rfl⟩ : T = before ++ t ∧ ' ' = d := by
      rw [← List.append_assoc] at hsplit
      simpa using List.append_inj' hsplit rfl
    rw [List.append_assoc, List.singleton_append]
    by_cases hnil : before = []
    · simpa [hnil] using hnone
    · exact bind_of_eq_none (ha.headScanner_eq_none hB hid hnil hT)

/-- What is found in a cut line and the next line together: the parts that are stitched together, or
else those of the next line. -/
theorem Written.ofLine?_cut (ha : a.Written peers details A) (hb : b.Written peers' details' B)
    (hT : T <+: A)
    (hcut : ∀ latency, latency ≠ [] → latency <+: a.store.final.latency →
      ¬ (a.shorten latency).Spells T) :
    (∃ c, Stitches a b A B T c ∧ ofLine? (T ++ ' ' :: B) = some c) ∨
      ((∀ c, ¬ Stitches a b A B T c) ∧ ofLine? (T ++ ' ' :: B) = some b) := by
  rcases scanner_cut ha hb hT hcut with ⟨c, left, hc, hfound⟩ | ⟨hno, hnone⟩
  · exact Or.inl ⟨c, hc, findFirst_of_eq_some hfound⟩
  · refine Or.inr ⟨hno, ?_⟩
    have hbehind : ofLine? ([] ++ (B ++ [])) = some b :=
      hb.ofLine?_eq (by decide) boundary_nil
    rw [List.nil_append, List.append_nil] at hbehind
    have hline : T ++ ' ' :: B = (T ++ [' ']) ++ B := by simp
    rw [hline, ofLine?, findFirst_append (ha.refused_cut hb hT hnone)]
    exact hbehind

end Capture

namespace Record

variable {a b : Record} {p q : Capture} {A B T : List Char}

/-- A line that is cut off within the digits of its final latency still has a record. -/
theorem WrittenAs.exists_ofLine? (ha : a.WrittenAs p A) (hT : T <+: A) {latency : List Char}
    (hne : latency ≠ []) (hle : latency <+: p.store.final.latency)
    (hspells : (p.shorten latency).Spells T) : ∃ r, Record.ofLine? T = some r := by
  obtain ⟨peers, details, hwritten, hvalues, hpeers, hdetails⟩ := ha
  obtain ⟨rest, hrest⟩ := hle
  have hfinal := hvalues.final
  rw [← hrest] at hfinal
  obtain ⟨n, hn, hnumeral⟩ := hfinal.front hne
  have hlt : n < UInt64.size := lt_of_le_of_lt hn a.final.toNat_lt
  -- What is left is a written line of its own, with a smaller final latency.
  have hcut : (p.shorten latency).Written peers details T :=
    ⟨hspells, hwritten.peers, hwritten.details, fun hmem => hwritten.line (hT.subset hmem)⟩
  have hcutValues : (p.shorten latency).Values { a with final := UInt64.ofNat n } :=
    { hvalues with final := by rwa [UInt64.toNat_ofNat_of_lt' hlt] }
  have hfound : Capture.ofLine? ([] ++ (T ++ [])) = some (p.shorten latency) :=
    hcut.ofLine?_eq (by decide) boundary_nil
  rw [List.nil_append, List.append_nil] at hfound
  refine ⟨{ a with final := UInt64.ofNat n }, ?_⟩
  rw [Record.ofLine?_eq_bind, hfound]
  exact hcut.record?_eq hcutValues hpeers hdetails

/-- Behind a cut line without a record of its own, the record is found that the parts stitched
together from the two lines have, or else that of the next line. -/
theorem ofLine?_cut (ha : a.WrittenAs p A) (hb : b.WrittenAs q B) (hT : T <+: A)
    (hnone : Record.ofLine? T = none) :
    (∃ c, Capture.Stitches p q A B T c ∧ Record.ofLine? (T ++ ' ' :: B) = c.record?) ∨
      ((∀ c, ¬ Capture.Stitches p q A B T c) ∧ Record.ofLine? (T ++ ' ' :: B) = some b) := by
  -- A cut line with digits of its final latency would have a record.
  have hcut : ∀ latency, latency ≠ [] → latency <+: p.store.final.latency →
      ¬ (p.shorten latency).Spells T := by
    intro latency hne hle hspells
    obtain ⟨r, hr⟩ := ha.exists_ofLine? hT hne hle hspells
    rw [hnone] at hr
    simp at hr
  obtain ⟨_, _, haWritten, -⟩ := ha
  obtain ⟨_, _, hbWritten, hvalues, hpeers, hdetails⟩ := hb
  rw [Record.ofLine?_eq_bind]
  rcases haWritten.ofLine?_cut hbWritten hT hcut with ⟨c, hc, hfound⟩ | ⟨hno, hfound⟩
  · exact Or.inl ⟨c, hc, by rw [hfound]; rfl⟩
  · refine Or.inr ⟨hno, ?_⟩
    rw [hfound]
    exact hbWritten.record?_eq hvalues hpeers hdetails

/-- A cut line spoils no record exactly if the parts that are stitched together from it and the next
line have no record, or that of the next line. Where nothing is stitched together, the record of the
next line is found. -/
theorem ofLine?_cut_iff (ha : a.WrittenAs p A) (hb : b.WrittenAs q B) (hT : T <+: A)
    (hnone : Record.ofLine? T = none) :
    (∀ c, Capture.Stitches p q A B T c → Record.ofLine? (T ++ ' ' :: B) = c.record?) ∧
    ((∀ c, ¬ Capture.Stitches p q A B T c) → Record.ofLine? (T ++ ' ' :: B) = some b) ∧
    ((Record.ofLine? (T ++ ' ' :: B) = none ∨ Record.ofLine? (T ++ ' ' :: B) = some b) ↔
      ∀ c, Capture.Stitches p q A B T c → c.record? = none ∨ c.record? = some b) := by
  rcases ofLine?_cut ha hb hT hnone with ⟨c, hc, hfound⟩ | ⟨hno, hfound⟩
  · obtain ⟨_, _, haWritten, -⟩ := ha
    obtain ⟨_, _, hbWritten, -⟩ := hb
    -- There is only one way to stitch the lines together, so the parts that are found are all there
    -- are.
    have honly (c' : Capture) (hc' : Capture.Stitches p q A B T c') : c' = c :=
      hc'.unique haWritten hbWritten hc
    refine ⟨fun c' hc' => by rw [honly c' hc', hfound], fun hno => absurd hc (hno c), ?_⟩
    rw [hfound]
    exact ⟨fun h c' hc' => by rw [honly c' hc']; exact h, fun h => h c hc⟩
  · refine ⟨fun c hc => absurd hc (hno c), fun _ => hfound, ?_⟩
    exact ⟨fun _ c hc => absurd hc (hno c), fun _ => Or.inr hfound⟩

/-- The line of the sample, cut off within its replicas. -/
def sampleCut : List Char :=
  ("osd 22 pg 3.1f op_w size 4096 client 84211 tid 9 throttle_lat 2 recv_lat 14 dispatch_lat 3 " ++
    "queue_lat 20 osd_lat 310 peers [(4, 631),").toList

/-- A write of another OSD. -/
def nextSample : Record :=
  { sample with osd := 5, client := 84300, tid := 77, peers := [⟨9, 55⟩], final := 790 }

theorem isWritable_nextSample : nextSample.IsWritable :=
  ⟨by decide, by decide +kernel, by decide +kernel⟩

/-- Whether the cut sample spoils the next line depends on the parts that are stitched together. -/
theorem ofLine?_sampleCut_iff :
    Record.ofLine? sampleCut = none ∧
    ((Record.ofLine? (sampleCut ++ ' ' :: nextSample.render) = none ∨
        Record.ofLine? (sampleCut ++ ' ' :: nextSample.render) = some nextSample) ↔
      ∀ c, Capture.Stitches sample.capture nextSample.capture sample.render nextSample.render
        sampleCut c → c.record? = none ∨ c.record? = some nextSample) :=
  have hnone : Record.ofLine? sampleCut = none := by decide +kernel
  ⟨hnone, (ofLine?_cut_iff (writtenAs_render isWritable_sample)
    (writtenAs_render isWritable_nextSample) (by decide +kernel) hnone).2.2⟩

/-- A cut line can take its final latency from another record: the OSD of the one line is charged
with the latency of the other. -/
theorem exists_ofLine?_cut :
    ∃ (a b r : Record) (A B T : List Char), a.Written A ∧ b.Written B ∧ T <+: A ∧
      Record.ofLine? T = none ∧ Record.ofLine? (T ++ ' ' :: B) = some r ∧
      a.osd ≠ b.osd ∧ r.osd = a.osd ∧ r.final = b.final ∧ a.final ≠ b.final := by
  refine ⟨sample, nextSample, { nextSample with
      osd := 22, client := 84211, tid := 9, peers := [⟨4, 631⟩, ⟨9, 55⟩] },
    sample.render, nextSample.render, sampleCut, ⟨_, writtenAs_render isWritable_sample⟩,
    ⟨_, writtenAs_render isWritable_nextSample⟩, ?_⟩
  decide +kernel

end Record

end OsdLatency
