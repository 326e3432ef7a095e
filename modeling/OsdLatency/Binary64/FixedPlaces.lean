import OsdLatency.Binary64.Rounding

/-!
# Fixed places

A double is written with a fixed number of decimal places. The exact binary value is rounded to the
nearest number with so many places, a tie going to the even last digit.

## Main definitions

* `withPoint` — a count of units in the last place, written with the point
* `fixedPlaces` — the text of a double
-/

namespace OsdLatency.Binary64

/-- The digits of `units`, with a point before the last `places` of them and a zero in front where
none would stand. -/
def withPoint (places units : Nat) : List Char :=
  let whole := Nat.toDigits 10 (units / Nat.pow 10 places)
  if places = 0 then whole
  else whole ++ '.' :: List.leftpad places '0' (Nat.toDigits 10 (units % Nat.pow 10 places))

/-- The units of the last place that are nearest to `mantissa * 2 ^ exponent`. -/
def unitsOf (places mantissa : Nat) (exponent : Int) : Nat :=
  roundDiv .even (numerator mantissa exponent * Nat.pow 10 places) (denominator exponent)

/-- The sign that is written in front of a number. -/
def signText : Float.Model.UnpackedFloat.Sign → List Char
  | .negative => ['-']
  | .positive => []

/-- A double with `places` decimal places. -/
def fixedPlaces (places : Nat) (x : Float) : String :=
  match x.toModel.unpack with
  | .notANumber => "NaN"
  | .infinity sign => String.ofList (signText sign ++ ['i', 'n', 'f'])
  | .zero sign => String.ofList (signText sign ++ withPoint places 0)
  | .finite sign m e _ => String.ofList (signText sign ++ withPoint places (unitsOf places m e))

end OsdLatency.Binary64
