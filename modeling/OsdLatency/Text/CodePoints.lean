/-!
# Sets of code points

A character class of the Unicode standard is given as the closed intervals of code points that it
is made of, in ascending order.

## Main definitions

* `CodePoints` — a list of closed intervals
* `CodePoints.holds` — membership, stopping at the first interval that lies above the code point
* `CodePoints.Ascending` — each interval is non-empty and lies below the next one

## Main results

* `CodePoints.holds_iff` — on ascending intervals, `holds` is membership in one of them
-/

namespace OsdLatency.Text

/-- Closed intervals `(first, last)` of code points. -/
abbrev CodePoints := List (Nat × Nat)

namespace CodePoints

/-- Whether one of the intervals has the code point. The search ends at the first interval that
starts above it. -/
def holds : CodePoints → Nat → Bool
  | [], _ => false
  | (first, last) :: rest, n =>
    if n < first then false else if n ≤ last then true else holds rest n

/-- Every interval starts above `low`, is non-empty, and lies below the next one. -/
def ascendingFrom (low : Nat) : CodePoints → Bool
  | [] => true
  | (first, last) :: rest =>
    decide (low ≤ first) && decide (first ≤ last) && ascendingFrom (last + 1) rest

/-- Every interval is non-empty and lies below the next one. -/
def Ascending (set : CodePoints) : Prop := set.ascendingFrom 0 = true

instance (set : CodePoints) : Decidable set.Ascending :=
  inferInstanceAs (Decidable (_ = true))

theorem le_of_mem_of_ascendingFrom {low : Nat} {set : CodePoints} (h : set.ascendingFrom low = true)
    {r : Nat × Nat} (hr : r ∈ set) : low ≤ r.1 := by
  induction set generalizing low with
  | nil => simp at hr
  | cons s rest ih =>
    obtain ⟨first, last⟩ := s
    simp only [ascendingFrom, Bool.and_eq_true, decide_eq_true_eq] at h
    rcases List.mem_cons.mp hr with rfl | hr
    · exact h.1.1
    · have := ih h.2 hr
      omega

theorem holds_iff_of_ascendingFrom {low : Nat} {set : CodePoints}
    (h : set.ascendingFrom low = true) (n : Nat) :
    set.holds n = true ↔ ∃ r ∈ set, r.1 ≤ n ∧ n ≤ r.2 := by
  induction set generalizing low with
  | nil => simp [holds]
  | cons s rest ih =>
    obtain ⟨first, last⟩ := s
    simp only [ascendingFrom, Bool.and_eq_true, decide_eq_true_eq] at h
    by_cases hlow : n < first
    · simp only [holds, hlow, if_true, Bool.false_eq_true, false_iff]
      rintro ⟨r, hr, hle, -⟩
      rcases List.mem_cons.mp hr with rfl | hr
      · exact absurd hle (by simpa using hlow)
      · have := le_of_mem_of_ascendingFrom h.2 hr
        omega
    · by_cases hin : n ≤ last
      · simp only [holds, hlow, hin, if_false, if_true, true_iff]
        exact ⟨_, List.mem_cons_self, Nat.le_of_not_lt hlow, hin⟩
      · simp only [holds, hlow, hin, if_false, ih h.2, List.mem_cons]
        constructor
        · rintro ⟨r, hr, hn⟩
          exact ⟨r, Or.inr hr, hn⟩
        · rintro ⟨r, rfl | hr, hn⟩
          · exact absurd hn.2 hin
          · exact ⟨r, hr, hn⟩

/-- On ascending intervals the search finds a code point exactly if one of them has it. -/
theorem holds_iff {set : CodePoints} (h : set.Ascending) (n : Nat) :
    set.holds n = true ↔ ∃ r ∈ set, r.1 ≤ n ∧ n ≤ r.2 :=
  holds_iff_of_ascendingFrom h n

end CodePoints

end OsdLatency.Text
