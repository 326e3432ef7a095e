import OsdLatency.Text.Decimal
import OsdLatency.Text.Scanner
import OsdLatency.Trace.Record

/-!
# Trace lines

A trace line names an operation by labelled values: where it ran, what it was, its component
latencies, the round trips to its replicas in brackets, the details of the store in parentheses, and
the final latency. The replicas and the details may be missing, white space of any kind stands
between the parts, and other text may stand in front and behind.

A line is read in two steps. The first finds the parts and keeps their texts, the second reads the
numbers, each of which must fit its word.

## Main definitions

* `Capture`, `Capture.scanner` — the texts of the parts of a line
* `Capture.ofLine?` — the parts at the first place of a line where all of them follow each other
* `Capture.record?` — the record of the parts, if all numbers fit
* `Record.ofLine?` — the record of a line
-/

namespace OsdLatency

open Text (Scanner)
open Text.Scanner

/-- The parts of a line up to the replicas, as they are written. -/
structure Capture.Head where
  osd : List Char
  pg : List Char
  kind : OpKind
  size : List Char
  client : List Char
  tid : List Char
  throttle : List Char
  recv : List Char
  dispatch : List Char
  queue : List Char
  osdLatency : List Char
deriving DecidableEq

/-- The final latency as it is written, with its label. -/
structure Capture.Final where
  kind : FinalKind
  latency : List Char
deriving DecidableEq

/-- The parts of a line from the latency of the store on, as they are written. The details are the
text inside the parentheses. -/
structure Capture.Store where
  latency : List Char
  details : Option (List Char)
  final : Capture.Final
deriving DecidableEq

/-- The parts of a line, as they are written. The replicas are the text with the brackets. -/
structure Capture where
  head : Capture.Head
  peers : Option (List Char)
  store : Capture.Store
deriving DecidableEq

namespace Capture

/-- A label and the number behind it. -/
def number (label : String) : Scanner (List Char) := do
  literal label
  blanks
  digits

/-- The parts up to the replicas, with the white space behind them. -/
def headScanner : Scanner Head := do
  let osd ← number "osd"
  blanks
  literal "pg"
  blanks
  let pg ← nonBlanks
  blanks
  let kind ← oneOf OpKind.name OpKind.all
  blanks
  let size ← number "size"
  blanks
  let client ← number "client"
  blanks
  let tid ← number "tid"
  blanks
  let throttle ← number "throttle_lat"
  blanks
  let recv ← number "recv_lat"
  blanks
  let dispatch ← number "dispatch_lat"
  blanks
  let queue ← number "queue_lat"
  blanks
  let osdLatency ← number "osd_lat"
  blanks
  return { osd, pg, kind, size, client, tid, throttle, recv, dispatch, queue, osdLatency }

/-- The final latency. Its label may follow what stands before it without white space. -/
def finalScanner : Scanner Final := do
  optionalBlanks
  let kind ← oneOf FinalKind.name [.op, .subop]
  blanks
  let latency ← digits
  return { kind, latency }

/-- The details of the store and the final latency. The details end at the first closing parenthesis
that the final latency follows. -/
def detailsScanner : Scanner (Option (List Char) × Final) :=
  (do
    optionalBlanks
    literal "("
    let (details, final) ← upTo ')' finalScanner
    return (some details, final))
  <|> (do
    let final ← finalScanner
    return (none, final))

/-- The parts from the latency of the store on. -/
def storeScanner : Scanner Store := do
  let latency ← number "bluestore_lat"
  let (details, final) ← detailsScanner
  return { latency, details, final }

/-- The replicas and what follows them. The replicas end at the first closing bracket that the
latency of the store follows. -/
def peersScanner : Scanner (Option (List Char) × Store) :=
  (do
    literal "peers"
    blanks
    literal "["
    -- A closing bracket inside the list is passed over if the rest of the line does not follow it.
    let (peers, store) ← upTo ']' (do
      blanks
      storeScanner)
    return (some ('[' :: peers ++ [']']), store))
  <|> (do
    let store ← storeScanner
    return (none, store))

/-- All parts of a line. -/
def scanner : Scanner Capture := do
  let head ← headScanner
  let (peers, store) ← peersScanner
  return { head, peers, store }

/-- The parts at the first place of a line where all of them follow each other. -/
def ofLine? (line : List Char) : Option Capture := findFirst scanner line

/-- One replica with its round trip, as they are written. -/
def peerScanner : Scanner (List Char × List Char) := do
  literal "("
  let osd ← digits
  literal ","
  optionalBlanks
  let latency ← digits
  literal ")"
  return (osd, latency)

/-- One detail of the store, as it is written. -/
def detailScanner : Scanner (List Char × List Char) := do
  let name ← word
  blanks
  let value ← digits
  return (name, value)

/-- The replicas of a text, if all their numbers fit. -/
def peersOf? (text : List Char) : Option (List Peer) :=
  (findAll peerScanner text).mapM fun (osd, latency) =>
    return { osd := ← Text.uint32? osd, latency := ← Text.uint64? latency }

/-- The details of a text, if all their numbers fit. A name that comes again keeps its first place
and takes its last value. -/
def detailsOf? (text : List Char) : Option (Table String UInt64) :=
  Table.ofList <$> (findAll detailScanner text).mapM fun (name, value) =>
    return (String.ofList name, ← Text.uint64? value)

/-- The record of the parts of a line, if all their numbers fit. -/
def record? (c : Capture) : Option Record := do
  let osd ← Text.uint32? c.head.osd
  let size ← Text.uint64? c.head.size
  let client ← Text.uint64? c.head.client
  let tid ← Text.uint64? c.head.tid
  let throttle ← Text.uint64? c.head.throttle
  let recv ← Text.uint64? c.head.recv
  let dispatch ← Text.uint64? c.head.dispatch
  let queue ← Text.uint64? c.head.queue
  let osdLatency ← Text.uint64? c.head.osdLatency
  let peers ← peersOf? (c.peers.getD [])
  let bluestore ← Text.uint64? c.store.latency
  let details ← detailsOf? (c.store.details.getD [])
  let final ← Text.uint64? c.store.final.latency
  return {
    osd, pg := String.ofList c.head.pg, kind := c.head.kind, size, client, tid, throttle, recv,
    dispatch, queue, osdLatency, peers, bluestore, details, finalKind := c.store.final.kind, final }

end Capture

namespace Record

/-- Every trace line names the latency of the store. Lines without it are passed over unread. -/
def mayBeIn (line : List Char) : Bool := Text.occursIn "bluestore_lat" line

/-- The record of a line: none unless all parts are found and all numbers fit. -/
def ofLine? (line : List Char) : Option Record :=
  if mayBeIn line then (Capture.ofLine? line).bind Capture.record? else none

/-- Whether a line has all parts of a record, but a number that does not fit. -/
def overflowsIn (line : List Char) : Bool :=
  (ofLine? line).isNone && mayBeIn line && (Capture.ofLine? line).isSome

end Record

end OsdLatency
