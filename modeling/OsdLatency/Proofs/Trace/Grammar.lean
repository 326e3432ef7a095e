import OsdLatency.Proofs.Text.Columns
import OsdLatency.Proofs.Text.Numerals
import OsdLatency.Trace.Line

/-!
# The grammar of trace lines

The texts that the parts of a line may be written as. The labels and values up to the replicas are
tokens with white space between them. The replicas are any text in brackets, the details of the
store any text in parentheses, and both may be missing. Nothing is said about which text is taken
where several are possible.

## Main definitions

* `Spaced` — columns with white space behind each
* `Capture.Head.Spells`, `Capture.Final.Spells`, `Capture.Store.Spells`, `Capture.Spells` — the
  texts of a part with given values
* `Capture.PeerSpells`, `Capture.DetailSpells` — the texts of an item of a list
* `Capture.Preferred`, `Capture.IsUsed` — which match of a line is used
-/

namespace OsdLatency

open Text

/-- Some tokens without white space, each with white space behind it. -/
inductive Spaced : List (List Char) → List Char → Prop
  | nil : Spaced [] []
  | cons {token gap text : List Char} {tokens : List (List Char)} :
      IsRun isSolid token → IsRun isBlank gap → Spaced tokens text →
      Spaced (token :: tokens) (token ++ (gap ++ text))

namespace Capture

/-- The labels and values up to the replicas. -/
def Head.tokens (h : Head) : List (List Char) :=
  ["osd".toList, h.osd, "pg".toList, h.pg, h.kind.name.toList, "size".toList, h.size,
   "client".toList, h.client, "tid".toList, h.tid, "throttle_lat".toList, h.throttle,
   "recv_lat".toList, h.recv, "dispatch_lat".toList, h.dispatch, "queue_lat".toList, h.queue,
   "osd_lat".toList, h.osdLatency]

/-- The placement group is a token of any characters, and all other values are digits. -/
structure Head.WellFormed (h : Head) : Prop where
  osd : IsRun isDigit h.osd
  pg : IsRun isSolid h.pg
  size : IsRun isDigit h.size
  client : IsRun isDigit h.client
  tid : IsRun isDigit h.tid
  throttle : IsRun isDigit h.throttle
  recv : IsRun isDigit h.recv
  dispatch : IsRun isDigit h.dispatch
  queue : IsRun isDigit h.queue
  osdLatency : IsRun isDigit h.osdLatency

/-- The text of the parts up to the replicas, with the white space behind them. -/
def Head.Spells (h : Head) (text : List Char) : Prop := h.WellFormed ∧ Spaced h.tokens text

/-- The text of a final latency, with the white space in front of it. -/
inductive Final.Spells : Final → List Char → Prop
  | intro {kind : FinalKind} {pad gap latency : List Char} :
      IsPad pad → IsRun isBlank gap → IsRun isDigit latency →
      Spells ⟨kind, latency⟩ (pad ++ (kind.name.toList ++ (gap ++ latency)))

/-- The text behind the latency of the store: the details, if there are any, and the final
latency. -/
inductive Ending : Option (List Char) → Final → List Char → Prop
  | plain {final : Final} {text : List Char} : final.Spells text → Ending none final text
  | details {details pad text : List Char} {final : Final} :
      IsPad pad → '\n' ∉ details → final.Spells text →
      Ending (some details) final (pad ++ '(' :: (details ++ ')' :: text))

/-- The text from the latency of the store on. -/
inductive Store.Spells : Store → List Char → Prop
  | intro {latency gap text : List Char} {details : Option (List Char)} {final : Final} :
      IsRun isBlank gap → IsRun isDigit latency → Ending details final text →
      Spells ⟨latency, details, final⟩ ("bluestore_lat".toList ++ (gap ++ (latency ++ text)))

/-- The text behind the parts up to the replicas: the replicas, if there are any, and all from the
latency of the store on. -/
inductive Back : Option (List Char) → Store → List Char → Prop
  | plain {store : Store} {text : List Char} : store.Spells text → Back none store text
  | peers {list gap gap' text : List Char} {store : Store} :
      IsRun isBlank gap → '\n' ∉ list → IsRun isBlank gap' → store.Spells text →
      Back (some ('[' :: list ++ [']'])) store
        ("peers".toList ++ (gap ++ '[' :: (list ++ ']' :: (gap' ++ text))))

/-- The text of all parts of a line. -/
def Spells (c : Capture) (text : List Char) : Prop :=
  ∃ front back, c.head.Spells front ∧ Back c.peers c.store back ∧ text = front ++ back

/-- The text of one replica with its round trip. -/
inductive PeerSpells : List Char × List Char → List Char → Prop
  | intro {osd pad latency : List Char} :
      IsRun isDigit osd → IsPad pad → IsRun isDigit latency →
      PeerSpells (osd, latency) ('(' :: (osd ++ ',' :: (pad ++ (latency ++ [')']))))

/-- The text of one detail of the store. -/
inductive DetailSpells : List Char × List Char → List Char → Prop
  | intro {name gap value : List Char} :
      IsRun isWord name → IsRun isBlank gap → IsRun isDigit value →
      DetailSpells (name, value) (name ++ (gap ++ value))

/-- Of two final latencies, the one with more digits is preferred. -/
def Final.Preferred (f f' : Final) : Prop := f'.latency.length < f.latency.length

/-- Of two endings of a line, the one with the shorter details is preferred, then the one with the
preferred final latency. -/
def Store.Preferred (s s' : Store) : Prop :=
  (s.details.getD []).length < (s'.details.getD []).length ∨
    s.details = s'.details ∧ s.final.Preferred s'.final

/-- Of two matches that begin at one place, the one with the shorter replicas is preferred, then the
one with the preferred ending. -/
def Preferred (c c' : Capture) : Prop :=
  (c.peers.getD []).length < (c'.peers.getD []).length ∨
    c.peers = c'.peers ∧ c.store.Preferred c'.store

/-- The parts match the line behind `before`. -/
def MatchesBehind (c : Capture) (line before : List Char) : Prop :=
  ∃ text after, line = before ++ (text ++ after) ∧ c.Spells text

/-- Whether the grammar matches somewhere in the line. -/
def HasMatch (line : List Char) : Prop := ∃ before, ∃ c : Capture, c.MatchesBehind line before

/-- The parts match the line, no match begins further to the left, and they are preferred to all
others that begin at the same place. -/
def IsUsed (c : Capture) (line : List Char) : Prop :=
  ∃ before, c.MatchesBehind line before ∧
    ∀ before', ∀ c' : Capture, c'.MatchesBehind line before' →
      before.length < before'.length ∨
        before.length = before'.length ∧ (c = c' ∨ c.Preferred c')

end Capture

/-! ### Spaced tokens -/

section Spaced

variable {token text : List Char} {tokens : List (List Char)}

theorem spaced_cons_iff :
    Spaced (token :: tokens) text ↔
      ∃ gap rest, IsRun isSolid token ∧ IsRun isBlank gap ∧ Spaced tokens rest ∧
        text = token ++ (gap ++ rest) := by
  constructor
  · rintro (_ | ⟨htoken, hgap, hrest⟩)
    exact ⟨_, _, htoken, hgap, hrest, rfl⟩
  · rintro ⟨gap, rest, htoken, hgap, hrest, rfl⟩
    exact .cons htoken hgap hrest

theorem Spaced.append {tokens' : List (List Char)} {text' : List Char} (h : Spaced tokens text)
    (h' : Spaced tokens' text') : Spaced (tokens ++ tokens') (text ++ text') := by
  induction h with
  | nil => exact h'
  | cons htoken hgap _ ih =>
    rw [List.append_assoc, List.append_assoc]
    exact .cons htoken hgap ih

/-- The text of two lists of tokens consists of their texts. -/
theorem spaced_append_iff {tokens' : List (List Char)} :
    Spaced (tokens ++ tokens') text ↔
      ∃ first second, text = first ++ second ∧ Spaced tokens first ∧ Spaced tokens' second := by
  constructor
  · intro h
    induction tokens generalizing text with
    | nil => exact ⟨[], text, rfl, .nil, h⟩
    | cons token tokens ih =>
      obtain ⟨gap, rest, htoken, hgap, hrest, rfl⟩ := spaced_cons_iff.mp h
      obtain ⟨first, second, rfl, hfirst, hsecond⟩ := ih hrest
      exact ⟨token ++ (gap ++ first), second, by simp, .cons htoken hgap hfirst, hsecond⟩
  · rintro ⟨first, second, rfl, hfirst, hsecond⟩
    exact hfirst.append hsecond

/-- Spaced tokens end in white space. -/
theorem Spaced.isBlank_of_mem_getLast? (h : Spaced tokens text) :
    ∀ c ∈ text.getLast?, isBlank c = true := by
  induction h with
  | nil => simp
  | @cons token gap text _ _ hgap _ ih =>
    intro c hc
    rw [List.getLast?_append, List.getLast?_append, Option.mem_def, Option.or_eq_some_iff,
      Option.or_eq_some_iff] at hc
    rcases hc with (hc | ⟨-, hc⟩) | ⟨hnone, -⟩
    · exact ih c hc
    · exact hgap.2 c (List.mem_of_getLast? hc)
    · rw [Option.or_eq_none_iff, List.getLast?_eq_none_iff, List.getLast?_eq_none_iff] at hnone
      exact absurd hnone.2 hgap.1

/-- Spaced tokens are the columns of their text. -/
theorem Spaced.columns_append (h : Spaced tokens text) (rest : List Char) :
    columns (text ++ rest) = tokens ++ columns rest := by
  induction h with
  | nil => rfl
  | @cons token gap text tokens htoken hgap _ ih =>
    have hboundary : Boundary isSolid (gap ++ (text ++ rest)) :=
      hgap.boundary_append fun c hc => isSolid_eq_false.mpr hc
    rw [List.append_assoc, List.append_assoc, columns_run_append htoken hboundary,
      columns_append_of_isPad hgap.isPad, ih]
    rfl

/-- Spaced tokens begin with a solid character. -/
theorem Spaced.boundary_append (h : Spaced tokens text) {rest : List Char}
    (hrest : Boundary isBlank rest) : Boundary isBlank (text ++ rest) := by
  cases h with
  | nil => exact hrest
  | cons htoken hgap _ =>
    rw [List.append_assoc]
    exact htoken.boundary_append fun c hc => isSolid_eq_true.mp hc

theorem Spaced.not_mem (h : Spaced tokens text) {c : Char} (hc : isBlank c = false)
    (htokens : ∀ token ∈ tokens, c ∉ token) : c ∉ text := by
  induction h with
  | nil => simp
  | cons _ hgap _ ih =>
    obtain ⟨htoken, hothers⟩ := List.forall_mem_cons.mp htokens
    simp only [List.mem_append, not_or]
    exact ⟨htoken, hgap.not_mem hc, ih hothers⟩

end Spaced

end OsdLatency
