import OsdLatency.Proofs.Share.Groups

/-!
# Shares of greater amounts

Of two amounts the greater one has no smaller share of a total, and a component that never takes less
time than another has no smaller mean and is not ranked below it. There is one exception: a value
that reaches its total is cut to the cap, while a smaller one that is nearly the whole keeps a share
above the cap. Only such operations can turn two components round.

## Main definitions

* `Overtakes` — the smaller of two amounts has the greater share
* `RanksSlower` — what is reported of two components, one of which never takes less time

## Main results

* `share_le_share_iff` — a share grows with its value, unless it is overtaken
* `meanShare_le_meanShare` — so do the means
* `sharesOf_ranksSlower` — two components in a report
* `not_forall_percent_le` — a component may be turned round with a slower one
-/

namespace OsdLatency

open Binary64

variable {less more total : UInt64} {faster slower component : Component}
  {records group : List Record} {r : Record} {shares : List FieldShare} {ofOsd : OsdShares}
  {ofKind : KindShares} {p q : ℚ}

/-- The smaller of two amounts has the greater share of a total: it is nearly the whole, and the
greater one reaches the whole and is cut to the cap. -/
def Overtakes (less more total : UInt64) : Prop :=
  NearlyWhole less total ∧ 1 ≤ shareRatio more total

/-! ### One operation -/

theorem shareRatio_mono (h : less ≤ more) (total : UInt64) :
    shareRatio less total ≤ shareRatio more total := by
  have hcast : (less.toNat : ℚ) ≤ more.toNat := by exact_mod_cast UInt64.le_iff_toNat_le.mp h
  exact div_le_div_of_nonneg_right (rounded_mono (Nat.cast_nonneg _) hcast) (rounded_nonneg _)

theorem percentOf_mono (hp : 0 ≤ p) (h : p ≤ q) : percentOf p ≤ percentOf q :=
  rounded_mono (mul_nonneg (rounded_nonneg _) (by norm_num))
    (mul_le_mul_of_nonneg_right (rounded_mono hp h) (by norm_num))

theorem shareValue_le_shareValue_iff (h : less ≤ more) :
    shareValue less total ≤ shareValue more total ↔ ¬Overtakes less more total := by
  have hratio := shareRatio_mono h total
  by_cases hmore : 1 ≤ shareRatio more total
  · have hcap : shareValue more total = capValue := if_pos hmore
    rw [hcap, shareValue_le_capValue_iff, Overtakes, and_iff_left hmore]
  · have hless : ¬1 ≤ shareRatio less total := fun hless => hmore (hless.trans hratio)
    rw [shareValue, shareValue, if_neg hless, if_neg hmore]
    exact iff_of_true (percentOf_mono (shareRatio_nonneg _ _) hratio) fun h => hmore h.2

/-- A share grows with its value, unless it is overtaken. -/
theorem share_le_share_iff (h : less ≤ more) (htotal : total ≠ 0) :
    share less total ≤ share more total ↔ ¬Overtakes less more total := by
  rw [(hasValue_share htotal).le_iff (hasValue_share htotal), shareValue_le_shareValue_iff h]

/-! ### A group -/

/-- Greater shares in all operations give a greater mean. -/
theorem meanValue_le_meanValue (h : ∀ r ∈ group,
    shareValue (r.component faster) r.final ≤ shareValue (r.component slower) r.final) :
    meanValue faster group ≤ meanValue slower group :=
  wholeQuotient_mono (roundedSum_nonneg _)
    (roundedSum_map_le fun r hr => ⟨shareValue_nonneg _ _, h r hr⟩) _

/-- A component that never takes less time has no smaller mean, unless it is overtaken. -/
theorem meanShare_le_meanShare (h : ∀ r ∈ group, r.hasShares = true) (hne : group ≠ [])
    (hle : ∀ r ∈ group, r.component faster ≤ r.component slower)
    (hshares : ∀ r ∈ group, ¬Overtakes (r.component faster) (r.component slower) r.final) :
    meanShare faster group ≤ meanShare slower group := by
  rw [(hasValue_meanShare h hne).le_iff (hasValue_meanShare h hne)]
  exact meanValue_le_meanValue fun r hr =>
    (shareValue_le_shareValue_iff (hle r hr)).mpr (hshares r hr)

/-- A component that is overtaken in all operations has no greater mean, though it never takes less
time. -/
theorem meanShare_le_of_overtakes (h : ∀ r ∈ group, r.hasShares = true) (hne : group ≠ [])
    (hle : ∀ r ∈ group, r.component faster ≤ r.component slower)
    (hshares : ∀ r ∈ group, Overtakes (r.component faster) (r.component slower) r.final) :
    meanShare slower group ≤ meanShare faster group := by
  rw [(hasValue_meanShare h hne).le_iff (hasValue_meanShare h hne)]
  refine meanValue_le_meanValue fun r hr => le_of_not_ge fun hge => ?_
  exact (shareValue_le_shareValue_iff (hle r hr)).mp hge (hshares r hr)

/-- The mean over one operation is its share. -/
theorem meanShare_singleton (h : r.hasShares = true) :
    meanShare component [r] = share (r.component component) r.final := by
  have hshare : HasValue (share (r.component component) r.final)
      (shareValue (r.component component) r.final) := hasValue_share (final_ne_zero h)
  have hmean : HasValue (meanShare component [r]) (meanValue component [r]) :=
    hasValue_meanShare (by simpa using h) (List.cons_ne_nil _ _)
  have hone : rounded ((1 : ℕ) : ℚ) = 1 := by rw [rounded_natCast (by norm_num), Nat.cast_one]
  rw [hmean.eq_iff hshare, meanValue, shareValues, List.map_singleton, List.length_singleton,
    wholeQuotient, hone, if_pos (one_lt_pow₀ (by norm_num) (by norm_num)), div_one]
  -- The sum over one share is rounded, and so is the mean, but a share is a double already.
  rw [← List.nil_append [shareValue _ _], roundedSum_concat, roundedSum_nil, zero_add]
  rw [Denotes.rounded_eq hshare, Denotes.rounded_eq hshare]

/-! ### Two components in a report -/

/-- What is reported of two components, the first of which never takes more time in the operations
of a group. Their shares are `t` and `s`. -/
structure RanksSlower (faster slower : Component) (group : List Record) (shares : List FieldShare)
    (t s : FieldShare) : Prop where
  /-- In one operation the slower component has the greater share, unless it is overtaken. -/
  share_le_iff : ∀ r ∈ group, share (r.component faster) r.final ≤
    share (r.component slower) r.final ↔ ¬Overtakes (r.component faster) (r.component slower) r.final
  /-- If it is overtaken nowhere, its mean is not below the other one. -/
  percent_le : (∀ r ∈ group, ¬Overtakes (r.component faster) (r.component slower) r.final) →
    t.percent ≤ s.percent
  /-- It may only be ranked below if the means are equal then. -/
  percent_eq : (∀ r ∈ group, ¬Overtakes (r.component faster) (r.component slower) r.final) →
    [t, s].Sublist shares → t.percent = s.percent
  /-- If it is overtaken everywhere, its mean is not above the other one. -/
  percent_ge : (∀ r ∈ group, Overtakes (r.component faster) (r.component slower) r.final) →
    s.percent ≤ t.percent
  /-- Of one operation its share is reported. -/
  percent_le_iff_of_singleton : ∀ r, group = [r] → (t.percent ≤ s.percent ↔
    ¬Overtakes (r.component faster) (r.component slower) r.final)
  /-- In general the rounded means decide. -/
  percent_le_iff : t.percent ≤ s.percent ↔ meanValue faster group ≤ meanValue slower group

theorem ranksSlower_rankedShares (h : ∀ r ∈ group, r.hasShares = true) (hne : group ≠ [])
    (hle : ∀ r ∈ group, r.component faster ≤ r.component slower) :
    RanksSlower faster slower group (rankedShares group)
      ⟨.component faster, meanShare faster group⟩ ⟨.component slower, meanShare slower group⟩ where
  share_le_iff r hr := share_le_share_iff (hle r hr) (final_ne_zero (h r hr))
  percent_le := meanShare_le_meanShare h hne hle
  percent_eq hshares hpair := by
    have hbelow := meanShare_le_meanShare h hne hle hshares
    rw [(hasValue_meanShare h hne).le_iff (hasValue_meanShare h hne)] at hbelow
    rcases List.pairwise_iff_forall_sublist.mp (pairwise_rankedShares h hne) hpair with hlt | heq
    · exact absurd (((hasValue_meanShare h hne).lt_iff (hasValue_meanShare h hne)).mp hlt)
        hbelow.not_gt
    · exact heq.1.symm
  percent_ge := meanShare_le_of_overtakes h hne hle
  percent_le_iff_of_singleton r hr := by
    subst hr
    have hr := h r List.mem_cons_self
    rw [meanShare_singleton hr, meanShare_singleton hr]
    exact share_le_share_iff (hle r List.mem_cons_self) (final_ne_zero hr)
  percent_le_iff := (hasValue_meanShare h hne).le_iff (hasValue_meanShare h hne)

/-- Two components in a report, the first of which never takes more time. -/
theorem sharesOf_ranksSlower (hosd : ofOsd ∈ sharesOf records) (hkind : ofKind ∈ ofOsd.kinds)
    (hle : ∀ r ∈ shareGroup ofOsd.osd ofKind.kind records,
      r.component faster ≤ r.component slower) :
    (∃ t ∈ ofKind.shares, t.field = .component faster) ∧
      (∃ s ∈ ofKind.shares, s.field = .component slower) ∧
      ∀ t ∈ ofKind.shares, t.field = .component faster →
        ∀ s ∈ ofKind.shares, s.field = .component slower →
          RanksSlower faster slower (shareGroup ofOsd.osd ofKind.kind records) ofKind.shares t s := by
  obtain ⟨hne, hshares⟩ := shares_of_mem_sharesOf hosd hkind
  rw [hshares]
  refine ⟨⟨_, mem_rankedShares.mpr ⟨faster, rfl⟩, rfl⟩, ⟨_, mem_rankedShares.mpr ⟨slower, rfl⟩, rfl⟩,
    fun t ht hfaster s hs hslower => ?_⟩
  obtain ⟨c, rfl⟩ := mem_rankedShares.mp ht
  obtain ⟨d, rfl⟩ := mem_rankedShares.mp hs
  obtain rfl := LatencyField.component.inj hfaster
  obtain rfl := LatencyField.component.inj hslower
  exact ranksSlower_rankedShares hasShares_of_mem_shareGroup hne hle

/-- An operation that takes a part of its time in the queue. -/
def queuedRecord : Record := { wholeRecord with queue := 40000, osdLatency := 60000 }

/-- The queue is ranked below in two operations. -/
theorem sharesOf_ranksSlower_queued :
    let records := [queuedRecord, wholeRecord]
    let ofKind : KindShares := ⟨.write, rankedShares records⟩
    (∃ ofOsd ∈ sharesOf records, ofKind ∈ ofOsd.kinds) ∧ shareGroup 5 .write records = records ∧
      (∀ r ∈ records, r.component .queue ≤ r.component .osd) ∧
      ∃ t ∈ ofKind.shares, ∃ s ∈ ofKind.shares,
        RanksSlower .queue .osd records ofKind.shares t s ∧ t.percent ≤ s.percent := by
  intro records ofKind
  have hosd : OsdShares.mk 5 [ofKind] ∈ sharesOf records := List.mem_singleton_self _
  have hkind : ofKind ∈ [ofKind] := List.mem_singleton_self _
  have hle : ∀ r ∈ records, r.component .queue ≤ r.component .osd := by decide
  obtain ⟨⟨t, ht, hqueue⟩, ⟨s, hs, hosdLatency⟩, hranks⟩ := sharesOf_ranksSlower hosd hkind hle
  have hpair := hranks t ht hqueue s hs hosdLatency
  refine ⟨⟨_, hosd, hkind⟩, rfl, hle, t, ht, s, hs, hpair, hpair.percent_le fun r hr => ?_⟩
  refine (hpair.share_le_iff r hr).mp ?_
  revert r
  decide +kernel

/-! ### Components turned round -/

/-- An operation in which the queue overtakes the OSD. -/
def overtakenRecord : Record := { wholeRecord with queue := 99999 }

/-- A component may be ranked below another one that never takes more time. -/
theorem not_forall_percent_le :
    ¬∀ (records : List Record) (faster slower : Component),
      ∀ ofOsd ∈ sharesOf records, ∀ ofKind ∈ ofOsd.kinds,
        (∀ r ∈ shareGroup ofOsd.osd ofKind.kind records,
          r.component faster ≤ r.component slower) →
        ∀ t ∈ ofKind.shares, t.field = .component faster →
          ∀ s ∈ ofKind.shares, s.field = .component slower → t.percent ≤ s.percent := by
  intro h
  have hle := h [overtakenRecord] .queue .osd ⟨5, [⟨.write, rankedShares [overtakenRecord]⟩]⟩
    (List.mem_singleton_self _) _ (List.mem_singleton_self _) (by decide)
    _ (mem_rankedShares.mpr ⟨.queue, rfl⟩) rfl _ (mem_rankedShares.mpr ⟨.osd, rfl⟩) rfl
  exact absurd hle (by decide +kernel)

end OsdLatency
