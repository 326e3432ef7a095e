/-!
# Units of time

Latencies are traced in microseconds and reported in microseconds or milliseconds.
-/

namespace OsdLatency

/-- The unit a report is written in. -/
inductive TimeUnit
  | micros
  | millis
deriving DecidableEq, Repr, Inhabited

namespace TimeUnit

/-- The unit that is asked for. -/
def ofMillis (millis : Bool) : TimeUnit := if millis then .millis else .micros

/-- The name of a unit in the reports. -/
def label : TimeUnit → String
  | micros => "μsec"
  | millis => "msec"

/-- The number of microseconds in a millisecond. -/
def microsPerMilli : Float := 1000.0

/-- A number of microseconds in a unit. -/
def scale : TimeUnit → Float → Float
  | micros, value => value
  | millis, value => value / microsPerMilli

end TimeUnit

end OsdLatency
