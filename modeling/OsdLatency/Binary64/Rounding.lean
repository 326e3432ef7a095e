/-!
# Rounding to whole numbers

Quotients of natural numbers and doubles are rounded exactly. The doubles are taken apart by their
model: a finite one is a sign, a mantissa `m` and an exponent `e`, and stands for `± m * 2 ^ e`.

## Main definitions

* `Tie`, `roundDiv` — the quotient rounded to the nearest whole number, with a rule for ties
* `ofNat` — the double next to a natural number
* `numerator`, `denominator` — the magnitude `m * 2 ^ e` as a fraction
* `roundHalfAway` — the nearest whole number as a double, ties away from zero
* `clampedCeil` — the ceiling, brought into an interval
-/

namespace OsdLatency.Binary64

open Float.Model.UnpackedFloat (Sign)

/-- Which of two whole numbers at the same distance is taken. -/
inductive Tie
  | even
  | up
deriving DecidableEq, Repr

/-- The quotient `num / den` rounded to the nearest whole number. -/
def roundDiv (tie : Tie) (num den : Nat) : Nat :=
  let quotient := num / den
  match compare (2 * (num % den)) den, tie with
  | .lt, _ => quotient
  | .gt, _ => quotient + 1
  | .eq, .even => quotient + quotient % 2
  | .eq, .up => quotient + 1

/-- The double nearest to a natural number, the even mantissa winning a tie. -/
def ofNat (n : Nat) : Float := .ofModel (.ofNat n)

/-- The numerator of `mantissa * 2 ^ exponent`. -/
def numerator (mantissa : Nat) (exponent : Int) : Nat := mantissa * Nat.pow 2 exponent.toNat

/-- The denominator of `mantissa * 2 ^ exponent`. -/
def denominator (exponent : Int) : Nat := Nat.pow 2 (-exponent).toNat

/-- The nearest whole number. Halves go away from zero, and the sign stays, also that of a zero. -/
def roundHalfAway (x : Float) : Float :=
  match x.toModel.unpack with
  | .finite sign m e _ =>
    let rounded := ofNat (roundDiv .up (numerator m e) (denominator e))
    match sign with
    | .positive => rounded
    | .negative => -rounded
  | _ => x

/-- The whole number from `low` to `high` that is nearest to the ceiling of `x`. What is not a
number counts as lying below. -/
def clampedCeil (low high : Nat) (x : Float) : Nat :=
  match x.toModel.unpack with
  | .finite .positive m e _ =>
    max low (min ((numerator m e + denominator e - 1) / denominator e) high)
  | .infinity .positive => max low high
  | _ => low

theorem le_clampedCeil (low high : Nat) (x : Float) : low ≤ clampedCeil low high x := by
  unfold clampedCeil
  split <;> omega

theorem clampedCeil_le {low high : Nat} (h : low ≤ high) (x : Float) :
    clampedCeil low high x ≤ high := by
  unfold clampedCeil
  split <;> omega

end OsdLatency.Binary64
