import OsdLatency.Proofs.Text.Occurrences
import OsdLatency.Proofs.Trace.Parts

/-!
# The items of the lists of a line

Behind the replicas and the details of the store, the items of a list are found anywhere in its
text, each as long as possible.

## Main results

* `Capture.peerScanner_append`, `Capture.detailScanner_append` — how an item is taken
* `Capture.peerScanner_takesLongest`, `Capture.detailScanner_takesLongest` — the longest item is
  taken
-/

namespace OsdLatency.Capture

open Text Text.Scanner

variable {input rest osd latency pad name gap value : List Char}

/-! ### Replicas -/

theorem peerScanner_append (hosd : IsRun isDigit osd) (hpad : IsPad pad)
    (hlatency : IsRun isDigit latency) (rest : List Char) :
    peerScanner ('(' :: (osd ++ ',' :: (pad ++ (latency ++ ')' :: rest)))) =
      some ((osd, latency), rest) := by
  -- Behind each run stands a character that does not belong to it.
  have hcomma : Boundary isDigit (',' :: (pad ++ (latency ++ ')' :: rest))) :=
    boundary_cons.mpr (by decide)
  have hvalue : Boundary isBlank (latency ++ ')' :: rest) :=
    hlatency.boundary_append fun _ => not_isBlank_of_isDigit
  have hclose : Boundary isDigit (')' :: rest) := boundary_cons.mpr (by decide)
  have hopen (left : List Char) : literal "(" ('(' :: left) = some ((), left) :=
    literal_append "(" left
  have hseparator (left : List Char) : literal "," (',' :: left) = some ((), left) :=
    literal_append "," left
  have hend (left : List Char) : literal ")" (')' :: left) = some ((), left) :=
    literal_append ")" left
  rw [peerScanner, bind_of_eq_some (hopen _), bind_of_eq_some (digits_append hosd hcomma),
    bind_of_eq_some (hseparator _), bind_of_eq_some (optionalBlanks_append hpad hvalue),
    bind_of_eq_some (digits_append hlatency hclose), bind_of_eq_some (hend _)]
  rfl

theorem peerScanner_sound {item : List Char × List Char}
    (h : peerScanner input = some (item, rest)) :
    ∃ osd pad latency, item = (osd, latency) ∧ IsRun isDigit osd ∧ IsPad pad ∧
      IsRun isDigit latency ∧
      input = '(' :: (osd ++ ',' :: (pad ++ (latency ++ ')' :: rest))) := by
  obtain ⟨_, _, hopen, h₁⟩ := bind_eq_some_iff.mp h
  obtain rfl := literal_eq_some_iff.mp hopen
  obtain ⟨osd, _, hdigits, h₂⟩ := bind_eq_some_iff.mp h₁
  obtain ⟨rfl, hosd, -⟩ := run_eq_some_iff.mp hdigits
  obtain ⟨_, _, hcomma, h₃⟩ := bind_eq_some_iff.mp h₂
  obtain rfl := literal_eq_some_iff.mp hcomma
  obtain ⟨_, _, hblanks, h₄⟩ := bind_eq_some_iff.mp h₃
  obtain ⟨pad, rfl, hpad, -⟩ := optionalBlanks_eq_some_iff.mp hblanks
  obtain ⟨latency, _, hdigits', h₅⟩ := bind_eq_some_iff.mp h₄
  obtain ⟨rfl, hlatency, -⟩ := run_eq_some_iff.mp hdigits'
  obtain ⟨_, _, hclose, h₆⟩ := bind_eq_some_iff.mp h₅
  obtain rfl := literal_eq_some_iff.mp hclose
  obtain ⟨rfl, rfl⟩ := Prod.mk.inj (Option.some.inj h₆)
  exact ⟨osd, pad, latency, rfl, hosd, hpad, hlatency, rfl⟩

/-- A text that does not begin with a parenthesis is no replica. -/
theorem peerScanner_eq_none (h : input.head? ≠ some '(') : peerScanner input = none := by
  rw [Option.eq_none_iff_forall_ne_some]
  rintro ⟨item, rest⟩ hsome
  obtain ⟨osd, pad, latency, -, -, -, -, rfl⟩ := peerScanner_sound hsome
  simp at h

theorem peerScanner_takesLongest : peerScanner.TakesLongest PeerSpells where
  sound h := by
    obtain ⟨osd, pad, latency, rfl, hosd, hpad, hlatency, rfl⟩ := peerScanner_sound h
    exact ⟨_, List.cons_ne_nil _ _, .intro hosd hpad hlatency, by simp⟩
  complete rest h := by
    obtain ⟨hosd, hpad, hlatency⟩ := h
    have := peerScanner_append hosd hpad hlatency rest
    exact ⟨_, rest, by simpa using this, Or.inl ⟨rfl, rfl⟩⟩

/-! ### Details -/

theorem detailScanner_append (hname : IsRun isWord name) (hgap : IsRun isBlank gap)
    (hvalue : IsRun isDigit value) (hrest : Boundary isDigit rest) :
    detailScanner (name ++ (gap ++ (value ++ rest))) = some ((name, value), rest) := by
  have hword : Boundary isWord (gap ++ (value ++ rest)) :=
    hgap.boundary_append fun _ => not_isWord_of_isBlank
  have hdigit : Boundary isBlank (value ++ rest) :=
    hvalue.boundary_append fun _ => not_isBlank_of_isDigit
  rw [detailScanner, word, bind_of_eq_some (run_append hname hword),
    bind_of_eq_some (blanks_append hgap hdigit), bind_of_eq_some (digits_append hvalue hrest)]
  rfl

theorem detailScanner_sound {item : List Char × List Char}
    (h : detailScanner input = some (item, rest)) :
    ∃ name gap value, item = (name, value) ∧ IsRun isWord name ∧ IsRun isBlank gap ∧
      IsRun isDigit value ∧ input = name ++ (gap ++ (value ++ rest)) ∧ Boundary isDigit rest := by
  obtain ⟨name, _, hword, h₁⟩ := bind_eq_some_iff.mp h
  obtain ⟨rfl, hname, -⟩ := run_eq_some_iff.mp hword
  obtain ⟨_, _, hblanks, h₂⟩ := bind_eq_some_iff.mp h₁
  obtain ⟨gap, rfl, hgap, -⟩ := blanks_eq_some_iff.mp hblanks
  obtain ⟨value, _, hdigits, h₃⟩ := bind_eq_some_iff.mp h₂
  obtain ⟨rfl, hvalue, hrest⟩ := run_eq_some_iff.mp hdigits
  obtain ⟨rfl, rfl⟩ := Prod.mk.inj (Option.some.inj h₃)
  exact ⟨name, gap, value, rfl, hname, hgap, hvalue, rfl, hrest⟩

/-- A text that does not begin with a word is no detail. -/
theorem detailScanner_eq_none (h : Boundary isWord input) : detailScanner input = none :=
  bind_of_eq_none (run_eq_none h)

theorem detailScanner_takesLongest : detailScanner.TakesLongest DetailSpells where
  sound h := by
    obtain ⟨name, gap, value, rfl, hname, hgap, hvalue, rfl, -⟩ := detailScanner_sound h
    exact ⟨_, by simp [hname.1], .intro hname hgap hvalue, by simp⟩
  complete rest h := by
    obtain @⟨name, gap, value, hname, hgap, hvalue⟩ := h
    -- All digits that follow belong to the value.
    have hmore : IsRun isDigit (value ++ rest.takeWhile isDigit) := by
      refine ⟨by simp [hvalue.1], ?_⟩
      intro c hc
      rcases List.mem_append.mp hc with hc | hc
      · exact hvalue.2 c hc
      · exact List.mem_takeWhile_imp hc
    have hfound := detailScanner_append hname hgap hmore (boundary_dropWhile rest)
    rw [List.append_assoc, List.takeWhile_append_dropWhile] at hfound
    refine ⟨_, _, by simpa using hfound, ?_⟩
    cases rest with
    | nil => exact Or.inl (by simp)
    | cons c rest =>
      by_cases hc : isDigit c = true
      · right
        have := (List.dropWhile_suffix isDigit (l := rest)).length_le
        simp [hc]
        omega
      · exact Or.inl (by simp [hc])

end OsdLatency.Capture
