import Mathlib.Data.List.TakeWhile
import OsdLatency.Text.Blank
import OsdLatency.Text.Digit
import OsdLatency.Text.Word

/-!
# How the character classes lie to each other

White space is neither a digit nor a word character. Where a run of one class ends, the next part of
a line therefore begins, and there is only one way to cut the line into runs.

## Main definitions

* `CodePoints.apart` — no interval of one set meets an interval of the other

## Main results

* `not_isDigit_of_isBlank`, `not_isWord_of_isBlank` — white space belongs to no other class
* `isDigit_of_ascii` — the ASCII digits are decimal digits
-/

namespace OsdLatency.Text

namespace CodePoints

/-- Whether no interval of one set meets an interval of the other. -/
def apart (first second : CodePoints) : Bool :=
  first.all fun r => second.all fun s => decide (r.2 < s.1) || decide (s.2 < r.1)

/-- Sets whose intervals lie apart have no code point in common. -/
theorem holds_eq_false_of_apart {first second : CodePoints} (hfirst : first.Ascending)
    (hsecond : second.Ascending) (h : first.apart second = true) {n : Nat}
    (hn : first.holds n = true) : second.holds n = false := by
  rw [Bool.eq_false_iff]
  intro hn'
  obtain ⟨r, hr, hrn⟩ := (holds_iff hfirst n).mp hn
  obtain ⟨s, hs, hsn⟩ := (holds_iff hsecond n).mp hn'
  simp only [apart, List.all_eq_true, Bool.or_eq_true, decide_eq_true_eq] at h
  rcases h r hr s hs with hlt | hlt
  · omega
  · omega

end CodePoints

/-- White space is no decimal digit. -/
theorem not_isDigit_of_isBlank {c : Char} (h : isBlank c = true) : isDigit c = false :=
  CodePoints.holds_eq_false_of_apart blankPoints_ascending digitPoints_ascending
    (by decide +kernel) h

/-- White space is no word character. -/
theorem not_isWord_of_isBlank {c : Char} (h : isBlank c = true) : isWord c = false := by
  unfold isWord
  split
  · exact CodePoints.holds_eq_false_of_apart blankPoints_ascending basicWordPoints_ascending
      (by decide +kernel) h
  · exact CodePoints.holds_eq_false_of_apart blankPoints_ascending supplementaryWordPoints_ascending
      (by decide +kernel) h

theorem not_isBlank_of_isDigit {c : Char} (h : isDigit c = true) : isBlank c = false := by
  by_contra hblank
  rw [Bool.not_eq_false] at hblank
  rw [not_isDigit_of_isBlank hblank] at h
  exact Bool.noConfusion h

theorem not_isBlank_of_isWord {c : Char} (h : isWord c = true) : isBlank c = false := by
  by_contra hblank
  rw [Bool.not_eq_false] at hblank
  rw [not_isWord_of_isBlank hblank] at h
  exact Bool.noConfusion h

/-- The ASCII digits are decimal digits. -/
theorem isDigit_of_ascii {c : Char} (h : '0' ≤ c ∧ c ≤ '9') : isDigit c = true := by
  refine (CodePoints.holds_iff digitPoints_ascending c.toNat).mpr ⟨(0x30, 0x39), ?_, ?_⟩
  · exact List.mem_cons_self
  · exact ⟨UInt32.le_iff_toNat_le.mp h.1, UInt32.le_iff_toNat_le.mp h.2⟩

end OsdLatency.Text
