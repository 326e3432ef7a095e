import OsdLatency.Proofs.Text.LineEnds
import OsdLatency.Proofs.Trace.Acceptance
import OsdLatency.Suspect.HostMap
import OsdLatency.Suspect.SlowOp

/-!
# Readers of lines

Traces, logs and trees are read line by line, and to none of the three readers white space at the
end of a line makes a difference: a record ends in a digit, the columns of a line end in front of
it, and no word that a tree is searched for contains any. So texts may be joined at a line feed, and
their lines may end in a carriage return or not.

## Main definitions

* `EndsSolid` — the last character of a text is no white space

## Main results

* `Capture.ofLine?_concat`, `LineContent.ignoresEnd_ofLine` — the reader of a trace
* `SlowOp.ignoresEnd_ofLine?` — the reader of a log
* `HostMap.ignoresEnd_step` — the reader of a tree
* `readers_follow_lines` — joined texts, and carriage returns in front of line feeds
-/

namespace OsdLatency

open Text

variable {text line front : List Char} {c : Char}

/-- The last character of a text is no white space. -/
def EndsSolid (text : List Char) : Prop := ∃ c ∈ text.getLast?, isBlank c = false

theorem EndsSolid.append (h : EndsSolid text) (front : List Char) : EndsSolid (front ++ text) := by
  obtain ⟨c, hlast, hc⟩ := h
  refine ⟨c, ?_, hc⟩
  rw [List.getLast?_append, Option.mem_def.mp hlast]
  rfl

theorem endsSolid_of_isDigits (h : IsRun isDigit text) : EndsSolid text := by
  refine ⟨text.getLast h.1, List.getLast?_eq_some_getLast h.1, ?_⟩
  exact not_isBlank_of_isDigit (h.2 _ (List.getLast_mem h.1))

/-! ### Traces -/

namespace Capture

theorem Final.Spells.endsSolid {final : Final} (h : final.Spells text) : EndsSolid text := by
  cases h with
  | intro hpad hgap hlatency =>
    apply EndsSolid.append
    apply EndsSolid.append
    exact (endsSolid_of_isDigits hlatency).append _

theorem Ending.endsSolid {details : Option (List Char)} {final : Final}
    (h : Ending details final text) : EndsSolid text := by
  cases h with
  | plain hfinal => exact hfinal.endsSolid
  | details hpad hline hfinal =>
    apply EndsSolid.append
    apply EndsSolid.append _ ['(']
    apply EndsSolid.append
    exact hfinal.endsSolid.append [')']

theorem Store.Spells.endsSolid {store : Store} (h : store.Spells text) : EndsSolid text := by
  cases h with
  | intro hgap hlatency hending =>
    apply EndsSolid.append
    apply EndsSolid.append
    exact hending.endsSolid.append _

theorem Back.endsSolid {peers : Option (List Char)} {store : Store} (h : Back peers store text) :
    EndsSolid text := by
  cases h with
  | plain hstore => exact hstore.endsSolid
  | peers hgap hline hgap' hstore =>
    apply EndsSolid.append
    apply EndsSolid.append
    apply EndsSolid.append _ ['[']
    apply EndsSolid.append
    apply EndsSolid.append _ [']']
    exact hstore.endsSolid.append _

/-- All parts of a line end in the digits of the final latency. -/
theorem Spells.endsSolid {capture : Capture} (h : capture.Spells text) : EndsSolid text := by
  obtain ⟨front, back, -, hback, rfl⟩ := h
  exact hback.endsSolid.append front

/-- No match reaches into the white space at the end of a line. -/
theorem matchesBehind_concat_iff {capture : Capture} (hc : isBlank c = true) :
    capture.MatchesBehind (line ++ [c]) front ↔ capture.MatchesBehind line front := by
  constructor
  · rintro ⟨text, after, hline, htext⟩
    rcases List.eq_nil_or_concat after with rfl | ⟨after, d, rfl⟩
    · obtain ⟨d, hlast, hd⟩ := htext.endsSolid.append front
      rw [List.append_nil] at hline
      rw [← hline, List.getLast?_concat, Option.mem_some_iff] at hlast
      rw [hlast, hd] at hc
      exact absurd hc Bool.false_ne_true
    · have hsplit : line ++ [c] = front ++ (text ++ after) ++ [d] := by
        rw [hline, List.concat_eq_append, List.append_assoc, List.append_assoc]
      exact ⟨text, after, (List.append_inj' hsplit rfl).1, htext⟩
  · rintro ⟨text, after, rfl, htext⟩
    exact ⟨text, after ++ [c], by simp, htext⟩

theorem isUsed_concat_iff {capture : Capture} (hc : isBlank c = true) :
    capture.IsUsed (line ++ [c]) ↔ capture.IsUsed line := by
  simp only [IsUsed, matchesBehind_concat_iff hc]

/-- The parts of a line are found without the white space at its end. -/
theorem ofLine?_concat (hc : isBlank c = true) (line : List Char) :
    ofLine? (line ++ [c]) = ofLine? line := by
  apply Option.ext
  intro capture
  rw [ofLine?_eq_some_iff, ofLine?_eq_some_iff, isUsed_concat_iff hc]

end Capture

/-- What a line holds is decided by the parts that are found in it. -/
theorem LineContent.ofLine_eq (line : List Char) :
    ofLine line = match Capture.ofLine? line with
      | none => noise
      | some capture =>
        match capture.record? with
        | some r => record r
        | none => overflow := by
  rw [ofLine]
  split_ifs with hmay
  · rfl
  · cases hcapture : Capture.ofLine? line with
    | none => rfl
    | some capture =>
      have hmatch := Capture.ofLine?_isSome_iff.mp (Option.isSome_of_eq_some hcapture)
      exact absurd (Capture.mayBeIn_of_hasMatch hmatch) hmay

theorem LineContent.ignoresEnd_ofLine : IgnoresEnd LineContent.ofLine := fun line c hc => by
  rw [ofLine_eq, Capture.ofLine?_concat hc, ← ofLine_eq]

theorem Record.ignoresEnd_ofLine? : IgnoresEnd Record.ofLine? := fun line c hc => by
  rw [ofLine?_eq_bind, Capture.ofLine?_concat hc, ← ofLine?_eq_bind]

/-! ### Logs and trees -/

theorem SlowOp.ignoresEnd_ofLine? (threshold : UInt64) : IgnoresEnd (SlowOp.ofLine? threshold) :=
  fun line c hc => by
    unfold ofLine? operation?
    rw [columns_concat hc]

namespace HostMap

theorem not_mem_of_isBlank {word : List Char} (hword : word.all isSolid = true)
    (hc : isBlank c = true) : c ∉ word := fun hmem => by
  have hsolid := List.all_eq_true.mp hword c hmem
  rw [isSolid_eq_true, hc] at hsolid
  exact Bool.noConfusion hsolid

theorem isIdle_concat (hc : isBlank c = true) (line : List Char) :
    isIdle (line ++ [c]) = isIdle line := by
  have hheading : c ∉ "ID".toList := not_mem_of_isBlank (by decide) hc
  have hextremes : c ∉ "MIN/MAX".toList := not_mem_of_isBlank (by decide) hc
  have htotal : c ∉ "TOTAL".toList := not_mem_of_isBlank (by decide) hc
  have hblank : (line ++ [c]).all isBlank = line.all isBlank := by simp [hc]
  rw [isIdle, hblank, isPrefixOf_concat hheading, isPrefixOf_concat hextremes,
    isPrefixOf_concat htotal]
  rfl

theorem opensHost_concat (hc : isBlank c = true) (line : List Char) :
    opensHost (line ++ [c]) = opensHost line := by
  have hhost : c ∉ "host".toList := not_mem_of_isBlank (by decide) hc
  have hminus : ((line ++ [c]).head? == some '-') = (line.head? == some '-') := by
    cases line with
    | nil =>
      have hne : c ≠ '-' := fun heq => absurd hc (by rw [heq]; decide)
      simpa using hne
    | cons d line => rfl
  rw [opensHost, hminus, occursIn_concat hhost]
  rfl

/-- White space at the end of a line makes no difference to the reader of a tree. -/
theorem ignoresEnd_step : IgnoresEnd fun line progress => Progress.step progress line := by
  intro line c hc
  have hmark : c ∉ "osd.".toList := not_mem_of_isBlank (by decide) hc
  have hosd : osdOf? (line ++ [c]) = osdOf? line := by rw [osdOf?, columns_concat hc, osdOf?]
  funext progress
  simp only [Progress.step, isIdle_concat hc, opensHost_concat hc, columns_concat hc,
    occursIn_concat hmark, hosd]

end HostMap

/-! ### Joined texts and line ends -/

/-- The readers of traces, logs and trees follow the lines of a text. What they read of two texts
with a line feed between them is what they read of each, and a carriage return in front of every
line feed changes nothing: not the records of a trace, not its counts, not the slow operations of a
log and not the hosts of a tree. -/
theorem readers_follow_lines :
    (∀ front back, Trace.recordsOf (front ++ '\n' :: back) =
      Trace.recordsOf front ++ Trace.recordsOf back) ∧
    (∀ threshold front back, SlowOp.ofText threshold (front ++ '\n' :: back) =
      SlowOp.ofText threshold front ++ SlowOp.ofText threshold back) ∧
    ∀ text, Trace.recordsOf (withReturns text) = Trace.recordsOf text ∧
      Trace.ofText (withReturns text) = Trace.ofText text ∧
      (∀ threshold, SlowOp.ofText threshold (withReturns text) = SlowOp.ofText threshold text) ∧
      HostMap.ofText (withReturns text) = HostMap.ofText text := by
  have htrace : ∀ text, Trace.ofText (withReturns text) = Trace.ofText text := fun text => by
    rw [Trace.ofText, map_lines_withReturns LineContent.ignoresEnd_ofLine, ← Trace.ofText]
  have hlog : ∀ threshold text,
      SlowOp.ofText threshold (withReturns text) = SlowOp.ofText threshold text :=
    fun threshold text => by
      rw [SlowOp.ofText, filterMap_lines_withReturns (SlowOp.ignoresEnd_ofLine? threshold)]
      rfl
  refine ⟨fun front back => ?_, fun threshold front back => ?_, fun text => ⟨?_, htrace text,
    fun threshold => hlog threshold text, ?_⟩⟩
  · exact filterMap_lines_append Record.ignoresEnd_ofLine? (by decide) front back
  · exact filterMap_lines_append (SlowOp.ignoresEnd_ofLine? threshold) rfl front back
  · rw [← Trace.records_ofText, htrace, Trace.records_ofText]
  · rw [HostMap.ofText, foldl_lines_withReturns HostMap.ignoresEnd_step]
    rfl

end OsdLatency
