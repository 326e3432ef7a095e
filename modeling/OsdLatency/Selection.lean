import OsdLatency.Trace.Record

/-!
# Selection of records

A report is about the operations of one OSD or of all, and only about those whose final latency
reaches a threshold.
-/

namespace OsdLatency

/-- Which records a report is about. -/
structure Selection where
  /-- The only OSD, or none for all. -/
  osd : Option UInt32
  /-- The least final latency in microseconds. -/
  minLatency : UInt64
deriving DecidableEq

namespace Selection

/-- The threshold of a report on shares when none is given: 100 milliseconds. -/
def shareThreshold : UInt64 := 100000

/-- The selection of a run. Without a threshold a report on shares looks at slow operations only,
and every other report at all operations. -/
def ofRequest (osd : Option UInt32) (threshold : Option UInt64) (shares : Bool) : Selection where
  osd := osd
  minLatency :=
    match threshold with
    | some threshold => threshold
    | none => if shares then shareThreshold else 0

/-- Whether only one OSD is selected. -/
def limitsOsd (s : Selection) : Bool := s.osd.isSome

/-- Whether operations may be left out for their latency. -/
def limitsLatency (s : Selection) : Bool := decide (0 < s.minLatency)

/-- Whether a record is selected. -/
def accepts (s : Selection) (r : Record) : Bool :=
  (match s.osd with
    | some osd => r.osd == osd
    | none => true)
  && decide (s.minLatency ≤ r.final)

/-- The selected records in their order. A selection without limits takes the list as it is. -/
def select (s : Selection) (records : List Record) : List Record :=
  if !s.limitsOsd && !s.limitsLatency then records else records.filter s.accepts

theorem accepts_of_unlimited {s : Selection} (h : (!s.limitsOsd && !s.limitsLatency) = true)
    (r : Record) : s.accepts r = true := by
  obtain ⟨osd, minLatency⟩ := s
  simp only [limitsOsd, limitsLatency, Bool.and_eq_true, Bool.not_eq_true',
    Option.isSome_eq_false_iff, Option.isNone_iff_eq_none, decide_eq_false_iff_not] at h
  simp only [accepts, h.1, Bool.true_and, decide_eq_true_eq, UInt64.le_iff_toNat_le]
  have := h.2
  simp only [UInt64.lt_iff_toNat_lt, UInt64.toNat_zero] at this
  omega

/-- The selected records are those the selection accepts. -/
theorem select_eq_filter (s : Selection) (records : List Record) :
    s.select records = records.filter s.accepts := by
  unfold select
  split
  · rename_i h
    exact (List.filter_eq_self.mpr fun r _ => accepts_of_unlimited h r).symm
  · rfl

end Selection

end OsdLatency
