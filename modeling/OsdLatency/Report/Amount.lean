import OsdLatency.Binary64.FixedPlaces
import OsdLatency.Binary64.Shortest
import OsdLatency.TimeUnit

/-!
# Amounts in text reports

Amounts are shown in full: the shortest decimal, written positionally whatever its size, with at
least one digit behind the point. Counts of microseconds stay whole numbers.
-/

namespace OsdLatency

open Binary64

namespace Amount

/-- A double in full. A double between two shortest decimals is shown by the upper one. -/
def plain (x : Float) : String :=
  match x.toModel.unpack with
  | .notANumber => "NaN"
  | .infinity sign => String.ofList (signText sign ++ ['i', 'n', 'f'])
  | .zero sign => String.ofList (signText sign ++ ['0', '.', '0'])
  | .finite sign m e _ => String.ofList (signText sign ++ (shortest .up m e).positional)

/-- A double rounded to two places, which is a double again. -/
def toHundredths (x : Float) : Float := roundHalfAway (x * 100.0) / 100.0

end Amount

namespace TimeUnit

/-- A latency as it was measured. -/
def exact : TimeUnit → UInt64 → String
  | micros, latency => toString latency
  | millis, latency => Amount.plain (millis.scale latency.toFloat)

/-- A latency in a dumped record: milliseconds are rounded to two places. -/
def rounded : TimeUnit → UInt64 → String
  | micros, latency => toString latency
  | millis, latency => Amount.plain (Amount.toHundredths (millis.scale latency.toFloat))

end TimeUnit

end OsdLatency
