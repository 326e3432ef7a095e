import OsdLatency.Binary64.Rounding

/-!
# Shortest decimals

Every finite double has an interval of real numbers that are rounded to it. The shortest decimal is
the point of the coarsest decimal grid that lies in the interval; of two such points the nearer one
is taken. A grid that has a point in the interval has one next to the double itself, so only the two
neighbours of the double on each grid are looked at.

## Main definitions

* `Neighbourhood` — a double and the bounds of its interval, on one binary scale
* `Neighbourhood.onGrid` — the nearest point in the interval of one decimal grid
* `shortest` — the shortest decimal of a double
-/

namespace OsdLatency.Binary64

/-- The number `digits * 10 ^ exponent`. -/
structure Decimal where
  digits : Nat
  exponent : Int
deriving DecidableEq, Repr

/-- A positive double `middle * 2 ^ exponent` with the interval of reals that are rounded to it. The
bounds belong to the interval if `closed`. -/
structure Neighbourhood where
  lower : Nat
  middle : Nat
  upper : Nat
  exponent : Int
  closed : Bool

/-- The neighbourhood of `mantissa * 2 ^ exponent`. The bounds lie halfway to the doubles next to
it, of which the lower one is half as far away below a power of two, unless that is the smallest
normal number. A tie is rounded to the even mantissa, so the bounds belong to it. -/
def Neighbourhood.of (mantissa : Nat) (exponent : Int) : Neighbourhood where
  lower :=
    if mantissa = 0x10000000000000 ∧ -1074 < exponent then 4 * mantissa - 1 else 4 * mantissa - 2
  middle := 4 * mantissa
  upper := 4 * mantissa + 2
  exponent := exponent - 2
  closed := mantissa % 2 == 0

namespace Neighbourhood

/-- `2 ^ exponent / 10 ^ place` as a fraction: its numerator. -/
def scaleNum (n : Neighbourhood) (place : Int) : Nat :=
  Nat.pow 2 n.exponent.toNat * Nat.pow 10 (-place).toNat

/-- `2 ^ exponent / 10 ^ place` as a fraction: its denominator. -/
def scaleDen (n : Neighbourhood) (place : Int) : Nat :=
  Nat.pow 2 (-n.exponent).toNat * Nat.pow 10 place.toNat

/-- Whether `digits * 10 ^ place` lies in the interval. -/
def holds (n : Neighbourhood) (place : Int) (digits : Nat) : Bool :=
  let point := digits * n.scaleDen place
  let low := n.lower * n.scaleNum place
  let high := n.upper * n.scaleNum place
  if n.closed then low ≤ point && point ≤ high else low < point && point < high

/-- The point of the grid of multiples of `10 ^ place` that lies in the interval and is nearest to
the middle, if there is one. -/
def onGrid (n : Neighbourhood) (tie : Tie) (place : Int) : Option Nat :=
  let below := n.middle * n.scaleNum place / n.scaleDen place
  match n.holds place below, n.holds place (below + 1) with
  -- Both neighbours are rounded to the double: the nearer one is taken.
  | true, true => some (roundDiv tie (n.middle * n.scaleNum place) (n.scaleDen place))
  | true, false => some below
  | false, true => some (below + 1)
  | false, false => none

/-- Try `tries + 1` grids from `10 ^ place` on, each ten times finer than the one before. The last
one is taken even if none of its points lies in the interval. -/
def search (n : Neighbourhood) (tie : Tie) : Nat → Int → Decimal
  | 0, place => ⟨n.middle * n.scaleNum place / n.scaleDen place, place⟩
  | tries + 1, place =>
    match n.onGrid tie place with
    | some digits => ⟨digits, place⟩
    | none => n.search tie tries (place - 1)

end Neighbourhood

/-- A power of ten `10 ^ place` above all reals that are rounded to `mantissa * 2 ^ exponent`: the
binary logarithm is multiplied by a bound for that of two. -/
def coarsePlace (mantissa : Nat) (exponent : Int) : Int :=
  (mantissa.log2 + 2 + exponent) * 30103 / 100000 + 1

/-- The shortest decimal that is rounded to `mantissa * 2 ^ exponent`. Seventeen digits always
suffice, and the search starts at most two places too high. -/
def shortest (tie : Tie) (mantissa : Nat) (exponent : Int) : Decimal :=
  (Neighbourhood.of mantissa exponent).search tie 20 (coarsePlace mantissa exponent)

namespace Decimal

/-- The exponent of the first digit. -/
def leading (d : Decimal) : Int := (Nat.toDigits 10 d.digits).length - 1 + d.exponent

/-- All digits up to the point, and at least one digit behind it. -/
def positional (d : Decimal) : List Char :=
  let digits := Nat.toDigits 10 d.digits
  let behind := (-d.exponent).toNat
  if behind = 0 then digits ++ List.replicate d.exponent.toNat '0' ++ ['.', '0']
  else
    let padded := List.leftpad (behind + 1) '0' digits
    padded.take (padded.length - behind) ++ '.' :: padded.drop (padded.length - behind)

/-- One digit, the other digits behind a point, and the exponent with its sign. -/
def scientific (d : Decimal) : List Char :=
  let mantissa :=
    match Nat.toDigits 10 d.digits with
    | first :: second :: others => first :: '.' :: second :: others
    | digits => digits
  let sign := if d.leading < 0 then '-' else '+'
  mantissa ++ 'e' :: sign :: Nat.toDigits 10 d.leading.natAbs

end Decimal

end OsdLatency.Binary64
