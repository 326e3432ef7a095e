import OsdLatency.Proofs.Amounts
import OsdLatency.Proofs.Trace.RoundTrip
import OsdLatency.Report.Dump

/-!
# Latencies in a dumped line

A dumped line is cut into segments, of which some are latencies and the others are the same in
every unit. In milliseconds each latency of the operation and of its store is written as such. The
round trips to the replicas are latencies too, but stay in microseconds, so exactly the lines with
replicas differ from what they would be with every latency in milliseconds.

## Main definitions

* `Dump.IsLatencyName` — the names of details that are latencies
* `Dump.Segment`, `Dump.segments` — the segments of a line
* `Dump.scaledLine` — the line with every latency in a unit

## Main results

* `Dump.line_eq_join` — the segments make up the line
* `Dump.line_millis_eq_scaledLine_iff` — which lines have every latency in milliseconds
* `Dump.line_latencies` — the latencies of a line and how they are written
-/

namespace OsdLatency

theorem Substage.ofName?_eq_some_iff {name : String} {stage : Substage} :
    Substage.ofName? name = some stage ↔ stage.name = name := by
  constructor
  · intro h
    exact LawfulBEq.eq_of_beq (List.find?_some h :)
  · rintro rfl
    exact ofName?_name stage

theorem Substage.isLatency_iff {stage : Substage} : stage.isLatency = true ↔ stage ≠ .aioSize := by
  cases stage <;> decide

namespace Dump

open Binary64 Text

variable {name : String} {r : Record} {p : Peer} {v : UInt64}

/-! ### Names of latencies -/

/-- A detail is a latency if it is a known one that does not count bytes, or an unknown one whose
name ends like that of a latency. -/
def IsLatencyName (name : String) : Prop :=
  (∃ stage : Substage, stage.name = name ∧ stage ≠ .aioSize) ∨
    (∀ stage : Substage, stage.name ≠ name) ∧ "lat".toList <:+ name.toList

theorem isLatencyDetail_iff : isLatencyDetail name = true ↔ IsLatencyName name := by
  rw [isLatencyDetail, IsLatencyName]
  simp only [← Substage.ofName?_eq_some_iff, ne_eq, ← Option.eq_none_iff_forall_ne_some]
  cases Substage.ofName? name with
  | none => simp
  | some stage => simp [Substage.isLatency_iff]

instance : DecidablePred IsLatencyName := fun _ => decidable_of_iff _ isLatencyDetail_iff

/-! ### Segments -/

/-- A segment of a dumped line. -/
inductive Segment
  /-- A text that is no latency. -/
  | fixed (text : String)
  /-- A latency of the operation or of its store. -/
  | latency (micros : UInt64)
  /-- The latency of a replica. -/
  | roundTrip (micros : UInt64)

namespace Segment

/-- The latency in a segment. -/
def latency? : Segment → Option UInt64
  | fixed _ => none
  | latency micros => some micros
  | roundTrip micros => some micros

/-- The latency of a replica in a segment. -/
def roundTrip? : Segment → Option UInt64
  | roundTrip micros => some micros
  | _ => none

/-- A segment as it is written. -/
def written (unit : TimeUnit) : Segment → String
  | fixed text => text
  | latency micros => unit.rounded micros
  | roundTrip micros => TimeUnit.micros.rounded micros

/-- A segment with its latency in a unit, whatever latency it is. -/
def scaled (unit : TimeUnit) : Segment → String
  | fixed text => text
  | latency micros => unit.rounded micros
  | roundTrip micros => unit.rounded micros

/-- A value behind its label. -/
def under (label : String) (value : Segment) : List Segment :=
  [fixed (label ++ " "), value]

/-- One replica. -/
def ofPeer (p : Peer) : List Segment :=
  [fixed "(", fixed (toString p.osd), fixed ", ", roundTrip p.latency, fixed ")"]

/-- One detail of the store. -/
def ofDetail (entry : String × UInt64) : List Segment :=
  under entry.1 (if IsLatencyName entry.1 then latency entry.2 else fixed (toString entry.2))

end Segment

open Segment

/-- The segments in front of the replicas. -/
def opSegments (r : Record) : List Segment :=
  [fixed " "].intercalate [
    under "osd" (fixed (toString r.osd)),
    under "pg" (fixed r.pg),
    under "op" (fixed r.kind.name),
    under "size" (fixed (toString r.size)),
    under "client" (fixed (toString r.client)),
    under "tid" (fixed (toString r.tid)),
    under "throttle_lat" (latency r.throttle),
    under "recv_lat" (latency r.recv),
    under "dispatch_lat" (latency r.dispatch),
    under "queue_lat" (latency r.queue),
    under "osd_lat" (latency r.osdLatency)] ++ [fixed " peers ["]

/-- The segments behind the replicas. -/
def storeSegments (r : Record) : List Segment :=
  fixed "] " :: under "bluestore_lat" (latency r.bluestore) ++
  fixed " (" :: [fixed " "].intercalate (r.details.toList.map ofDetail) ++
  fixed ") " :: [fixed " "].intercalate [
    under "lat_type" (fixed r.finalKind.name),
    under "lat" (latency r.final)]

/-- The segments of the line of a record. -/
def segments (r : Record) : List Segment :=
  opSegments r ++ [fixed ", "].intercalate (r.peers.map ofPeer) ++ storeSegments r

/-- The line of a record with every latency in a unit. -/
def scaledLine (unit : TimeUnit) (r : Record) : String :=
  String.join ((segments r).map (Segment.scaled unit))

theorem intercalate_cons (separator : Segment) (part : List Segment)
    (parts : List (List Segment)) : [separator].intercalate (part :: parts) =
      part ++ parts.flatMap (separator :: ·) := by
  induction parts generalizing part with
  | nil => simp
  | cons next parts ih =>
    rw [List.intercalate_cons_cons, ih, List.flatMap_cons, List.append_assoc]
    rfl

theorem join_map_intercalate (shown : Segment → String) (separator : Segment)
    (parts : List (List Segment)) : String.join (([separator].intercalate parts).map shown) =
      (shown separator).intercalate (parts.map fun part => String.join (part.map shown)) := by
  induction parts with
  | nil => simp
  | cons part parts ih =>
    cases parts with
    | nil => simp
    | cons next parts =>
      rw [List.intercalate_cons_cons]
      simp_all [String.append_assoc]

theorem join_ofPeer (unit : TimeUnit) (p : Peer) :
    String.join ((ofPeer p).map (written unit)) = peer p := by
  simp [ofPeer, written, peer, TimeUnit.rounded, String.append_assoc]
  rfl

theorem join_ofDetail (unit : TimeUnit) (entry : String × UInt64) :
    String.join ((ofDetail entry).map (written unit)) = detail unit entry.1 entry.2 := by
  simp only [ofDetail, under, detail, isLatencyDetail_iff]
  split_ifs <;> simp [written, String.append_assoc]

/-- The segments make up the line. -/
theorem line_eq_join (unit : TimeUnit) (r : Record) :
    line unit r = String.join ((segments r).map (written unit)) := by
  have hpeers : (fun p => String.join ((ofPeer p).map (written unit))) = peer :=
    funext (join_ofPeer unit)
  have hdetails : (fun entry => String.join ((ofDetail entry).map (written unit))) =
      fun entry : String × UInt64 => detail unit entry.1 entry.2 := funext (join_ofDetail unit)
  simp [segments, opSegments, storeSegments, under, written, line, labelled,
    join_map_intercalate, Function.comp_def, hpeers, hdetails, ← String.toList_inj]

/-! ### Latencies -/

theorem filterMap_intercalate {α : Type*} {f : Segment → Option α} {separator : Segment}
    (h : f separator = none) (parts : List (List Segment)) :
    ([separator].intercalate parts).filterMap f = parts.flatMap (List.filterMap f) := by
  cases parts with
  | nil => simp
  | cons part parts =>
    rw [intercalate_cons, List.filterMap_append, List.filterMap_flatMap, List.flatMap_cons]
    simp only [List.filterMap_cons_none h]

/-- The latencies of a record, as they follow in its line. -/
def latencies (r : Record) : List UInt64 :=
  [r.throttle, r.recv, r.dispatch, r.queue, r.osdLatency] ++ r.peers.map Peer.latency ++
    r.bluestore :: (r.details.toList.filter fun entry => IsLatencyName entry.1).map Prod.snd ++
    [r.final]

theorem filterMap_latency?_details (entries : List (String × UInt64)) :
    ([fixed " "].intercalate (entries.map ofDetail)).filterMap latency? =
      (entries.filter fun entry => IsLatencyName entry.1).map Prod.snd := by
  rw [filterMap_intercalate rfl, List.flatMap_map]
  induction entries with
  | nil => rfl
  | cons entry entries ih =>
    rw [List.flatMap_cons, ih]
    by_cases h : IsLatencyName entry.1
    · simp [ofDetail, under, latency?, h, List.filterMap_cons]
    · simp [ofDetail, under, latency?, h, List.filterMap_cons]

theorem filterMap_latency?_peers (peers : List Peer) :
    ([fixed ", "].intercalate (peers.map ofPeer)).filterMap latency? =
      peers.map Peer.latency := by
  rw [filterMap_intercalate rfl, List.flatMap_map]
  exact (List.map_eq_flatMap).symm

/-- The latencies in the segments of a line are those of its record. -/
theorem filterMap_latency?_segments (r : Record) :
    (segments r).filterMap latency? = latencies r := by
  have hop : (opSegments r).filterMap latency? =
      [r.throttle, r.recv, r.dispatch, r.queue, r.osdLatency] := rfl
  have hstore : (storeSegments r).filterMap latency? = r.bluestore ::
      (r.details.toList.filter fun entry => IsLatencyName entry.1).map Prod.snd ++ [r.final] := by
    simp [storeSegments, filterMap_latency?_details, under, latency?, List.filterMap_cons]
  rw [segments, List.filterMap_append, List.filterMap_append, hop, filterMap_latency?_peers,
    hstore, latencies]
  simp

/-! ### Round trips -/

/-- Segments without round trips are written in the unit of the line. -/
theorem map_written_eq {unit : TimeUnit} {segments : List Segment}
    (h : segments.filterMap roundTrip? = []) :
    segments.map (written unit) = segments.map (scaled unit) := by
  refine List.map_congr_left fun s hs => ?_
  cases s with
  | roundTrip v => exact absurd (List.filterMap_eq_nil_iff.mp h _ hs) (Option.some_ne_none v)
  | _ => rfl

theorem filterMap_roundTrip?_opSegments (r : Record) :
    (opSegments r).filterMap roundTrip? = [] := rfl

theorem filterMap_roundTrip?_storeSegments (r : Record) :
    (storeSegments r).filterMap roundTrip? = [] := by
  have hdetails : ([fixed " "].intercalate (r.details.toList.map ofDetail)).filterMap roundTrip? =
      [] := by
    rw [filterMap_intercalate rfl, List.flatMap_map, List.flatMap_eq_nil_iff]
    intro entry _
    rw [ofDetail]
    split_ifs <;> rfl
  simp [storeSegments, hdetails, under, roundTrip?, List.filterMap_cons]

theorem line_micros_eq_scaledLine (r : Record) : line .micros r = scaledLine .micros r := by
  rw [line_eq_join, scaledLine]
  refine congrArg String.join (List.map_congr_left fun s _ => ?_)
  cases s <;> rfl

theorem toList_toString (v : UInt64) : (toString v).toList = numeral v.toNat :=
  Nat.toList_repr

/-- A count of microseconds is not a number of milliseconds: behind its digits stands no point. -/
theorem numeral_append_ne {text rest rest' : List Char} (h : IsPointed text) (n : ℕ) :
    numeral n ++ ')' :: rest ≠ text ++ rest' := by
  obtain ⟨whole, fraction, rfl, hwhole, -⟩ := h
  intro heq
  rw [List.append_assoc, List.cons_append] at heq
  have hdigits := Scanner.run_append (isNumeral_numeral n).1
    (boundary_cons.mpr (by decide) : Boundary isAsciiDigit (')' :: rest))
  rw [heq, Scanner.run_append hwhole (boundary_cons.mpr (by decide))] at hdigits
  simp at hdigits

/-- The first replica of a line tells the unit of the replicas. -/
theorem line_millis_ne_scaledLine {peers : List Peer} (h : r.peers = p :: peers) :
    line .millis r ≠ scaledLine .millis r := by
  obtain ⟨others, hothers⟩ : ∃ others,
      [fixed ", "].intercalate (r.peers.map ofPeer) = ofPeer p ++ others :=
    ⟨_, by rw [h, List.map_cons, intercalate_cons]⟩
  rw [line_eq_join, scaledLine, segments, hothers, List.append_assoc, List.append_assoc,
    List.map_append, List.map_append, map_written_eq (filterMap_roundTrip?_opSegments r)]
  intro heq
  -- What stands in front of the first round trip is the same in both lines.
  have hpeer : (toString p.latency).toList ++ ')' ::
        (String.join ((others ++ storeSegments r).map (written .millis))).toList =
      (TimeUnit.millis.rounded p.latency).toList ++ ')' ::
        (String.join ((others ++ storeSegments r).map (scaled .millis))).toList := by
    simpa [ofPeer, written, scaled, TimeUnit.rounded.eq_1, ← String.toList_inj] using heq
  rw [toList_toString] at hpeer
  exact numeral_append_ne (isPointed_rounded p.latency) p.latency.toNat hpeer

/-- In milliseconds the lines without replicas, and only those, have every latency so. -/
theorem line_millis_eq_scaledLine_iff : line .millis r = scaledLine .millis r ↔ r.peers = [] := by
  constructor
  · intro heq
    cases hpeers : r.peers with
    | nil => rfl
    | cons p peers => exact absurd heq (line_millis_ne_scaledLine hpeers)
  · intro hnil
    rw [line_eq_join, scaledLine, map_written_eq]
    rw [segments, hnil, List.filterMap_append, List.filterMap_append,
      filterMap_roundTrip?_opSegments, filterMap_roundTrip?_storeSegments]
    rfl

/-- The latencies in a line are those of the record. In microseconds all of them are written so. In
milliseconds those of the operation and of its store are, rounded to two places, while the round
trips stay as they were; so every latency is in milliseconds exactly if there are no replicas. -/
theorem line_latencies (r : Record) :
    (segments r).filterMap latency? = latencies r ∧
    line .micros r = scaledLine .micros r ∧
    line .millis r = String.join ((segments r).map (written .millis)) ∧
    (∀ v, ∃ x, TimeUnit.millis.rounded v = Amount.plain x ∧
      HasValue x (hundredthsValue (scaledValue .millis v))) ∧
    (line .millis r = scaledLine .millis r ↔ r.peers = []) :=
  ⟨filterMap_latency?_segments r, line_micros_eq_scaledLine r, line_eq_join .millis r,
    exists_hasValue_rounded, line_millis_eq_scaledLine_iff⟩

example : line .millis Record.sample =
    "osd 22 pg 3.1f op op_w size 4096 client 84211 tid 9 throttle_lat 0.0 recv_lat 0.01 " ++
      "dispatch_lat 0.0 queue_lat 0.02 osd_lat 0.31 peers [(4, 631), (17, 702)] " ++
      "bluestore_lat 0.88 (aio_wait 0.0 aio_size 4096) lat_type op_lat lat 918.98" := by
  decide +kernel

/-- Not every line in milliseconds has every latency in milliseconds. -/
theorem not_forall_line_millis_eq_scaledLine : ¬∀ r, line .millis r = scaledLine .millis r :=
  fun h => line_millis_ne_scaledLine (r := Record.sample) rfl (h Record.sample)

end Dump

end OsdLatency
