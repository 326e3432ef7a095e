import OsdLatency.Binary64.Rounding
import OsdLatency.Binary64.TotalOrder

/-!
# Nearest-rank percentiles

The percentile `p` of `n` samples is the sample at rank `p / 100 * n`, rounded up, in ascending
order. The rank is computed in doubles and brought into the range of ranks, so that every threshold
has a sample.

## Main definitions

* `Percentile.thresholds` — the percentiles of the reports
* `Percentile.rank` — the rank of a threshold
* `Percentile.pickBy` — the samples at the ranks of some thresholds
-/

namespace OsdLatency.Percentile

open Binary64 (clampedCeil ofNat sortedBy)

/-- The percentiles of the reports. -/
def thresholds : List Float :=
  [1.0, 5.0, 10.0, 20.0, 30.0, 40.0, 50.0, 60.0, 70.0, 80.0, 90.0, 95.0, 99.0, 99.5, 99.9]

/-- The rank of a threshold among `count` samples, counted from one. -/
def rank (threshold : Float) (count : Nat) : Nat :=
  clampedCeil 1 count (threshold / 100.0 * ofNat count)

/-- The samples at the ranks of the thresholds, in ascending order of keys. Without samples there
are none. -/
def pickBy (key : α → Nat) (samples : List α) (thresholds : List Float) : List α :=
  let sorted := sortedBy key samples
  thresholds.filterMap fun threshold => sorted[rank threshold sorted.length - 1]?

/-- The percentiles of doubles in their total order. -/
def pick (samples : List Float) (thresholds : List Float) : List Float :=
  pickBy Binary64.key samples thresholds

end OsdLatency.Percentile
