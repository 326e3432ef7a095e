import OsdLatency.Percentile
import OsdLatency.TimeUnit

/-!
# Summaries of samples

The figures of a group of latencies: the extremes, the mean, the spread, and the percentiles. The
samples are summed exactly, and the sum is rounded to a double once before it is divided.
-/

namespace OsdLatency

open Binary64 (ofNat)

/-- The figures of a group of latencies. The mean, the deviation and the percentiles are in the unit
of the report, the extremes in microseconds. -/
structure Summary where
  min : UInt64
  max : UInt64
  mean : Float
  deviation : Float
  count : Nat
  percentiles : List Float

namespace Summary

/-- The exact sum of samples. -/
def total (samples : List UInt64) : Nat := samples.foldr (fun v sum => v.toNat + sum) 0

/-- The mean in microseconds. -/
def meanOf (samples : List UInt64) : Float := ofNat (total samples) / ofNat samples.length

/-- The sample standard deviation in microseconds, with squares summed in order. A single sample has
none. -/
def deviationOf (mean : Float) (samples : List UInt64) : Float :=
  if 1 < samples.length then
    let squares := samples.foldl (fun sum v => sum + (v.toFloat - mean) * (v.toFloat - mean)) 0.0
    (squares / ofNat (samples.length - 1)).sqrt
  else 0.0

/-- The figures of a group, if it has a sample. -/
def ofSamples? (unit : TimeUnit) : List UInt64 → Option Summary
  | [] => none
  | first :: others =>
    -- The mean is taken in microseconds and scaled last.
    let samples := first :: others
    let mean := meanOf samples
    some {
      min := others.foldl Min.min first
      max := others.foldl Max.max first
      mean := unit.scale mean
      deviation := unit.scale (deviationOf mean samples)
      count := samples.length
      percentiles :=
        Percentile.pick (samples.map fun v => unit.scale v.toFloat) Percentile.thresholds }

@[simp] theorem ofSamples?_nil (unit : TimeUnit) : ofSamples? unit [] = none := rfl

end Summary

end OsdLatency
