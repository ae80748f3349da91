import MonitoringTool.Sniffer.Metrics.Averages

/-!
# The error rate

`ErrRate` counts responses and those with an error status twice: since the last tick, in
`subtotal` and `subsum`, and since the last report, in `total` and `sum`.  A tick records
the rate since the one before as an extreme; a report divides `sum` by `total`.

A response that is received between the `timerExpired` and the `intervalExpired` of one
`processData` is in the average and in no rate that a tick recorded, so that the average can
leave the extremes (`error_rate_leaves_extremes`).  Without such responses the average is
the mean of the recorded rates, each weighed with its responses
(`error_rates_consistent`).
-/

namespace MonitoringTool.Sniffer

open Lib

/-! ## The metric -/

namespace ErrRate

/-- `ErrRate::getRate`. -/
def getRate (m : MetricAvg) : ℚ :=
  if m.subtotal.get ≤ 0 then 0 else m.subsum.get / m.subtotal.get

/-- `ErrRate::onResponseReceived`. -/
def onResponseReceived (rsp : ReceivedResponse) (m : MetricAvg) : MetricAvg :=
  let m := { m with subtotal := m.subtotal.add 1 }
  let m := { m with total := m.total.add 1 }
  if rsp.hasErrorStatus then { m with subsum := m.subsum.add 1, sum := m.sum.add 1 } else m

/-- `ErrRate::onTimerExpired`. -/
def onTimerExpired (m : MetricAvg) : MetricAvg :=
  let rate := getRate m
  let m := { m with min := m.min.minimize rate }
  let m := { m with max := m.max.maximize rate }
  let m := { m with subsum := m.subsum.set 0 }
  { m with subtotal := m.subtotal.set 0 }

/-- `ErrRate`'s answer to an event. -/
def handle {ι : Type*} (_interval : UInt32) (m : MetricAvg) :
    MetricEvent ι → MetricAvg × Option Report
  | .flow (.responseReceived rsp) => (onResponseReceived rsp m, none)
  | .flow _ => (m, none)
  | .timerExpired => (onTimerExpired m, none)
  | .intervalExpired => (m.reset, some (m.report m.getAvg))

/-- Only `intervalExpired` makes a report. -/
theorem handle_quiet {ι : Type*} {interval : UInt32} {m : MetricAvg} {e : MetricEvent ι}
    (he : e ≠ .intervalExpired) : (handle interval m e).2 = none := by
  match e with
  | .flow (.responseReceived rsp) => rfl
  | .flow .newFlowReceived => rfl
  | .flow (.flowUpdate _ _ _) => rfl
  | .flow .requestReceived => rfl
  | .timerExpired => rfl
  | .intervalExpired => exact absurd rfl he

end ErrRate

namespace AvgRun

variable {ι : Type*}

/-- The report of a step, if it makes one, is a consistent error rate. -/
def Consistent (interval : UInt32) (s : AvgRun) (a : ThreadStep ι) : Prop :=
  ∀ r ∈ s.report ErrRate.handle interval a,
    0 ≤ r.min ∧ r.min ≤ r.avg ∧ r.avg ≤ r.max ∧ r.max ≤ 1

/-- No response was received since the tick before a report, and the counters that the next
notification of the timer reads are not next to the largest double. -/
def Settled (interval : UInt32) (s : AvgRun) (a : ThreadStep ι) : Prop :=
  match (s.timer.resolve interval a).2 with
  | .flow _ => True
  | .timerExpired =>
      s.metric.subtotal.isClose doubleMax = false ∧ s.metric.subsum.isClose doubleMax = false
  | .intervalExpired =>
      s.metric.subtotal.val = 0 ∧ s.metric.total.isClose doubleMax = false ∧
        s.metric.sum.isClose doubleMax = false

instance (interval : UInt32) (s : AvgRun) (a : ThreadStep ι) :
    Decidable (s.Consistent interval a) := by
  unfold Consistent
  infer_instance

instance (interval : UInt32) (s : AvgRun) (a : ThreadStep ι) :
    Decidable (s.Settled interval a) := by
  unfold Settled
  split <;> infer_instance

end AvgRun

/-! ## What the counters hold -/

/-- The counters hold numbers of responses. -/
structure ErrCounts (m : MetricAvg) (subsum subtotal total : ℕ) : Prop where
  subsum_eq : m.subsum.val = subsum
  subtotal_eq : m.subtotal.val = subtotal
  total_eq : m.total.val = total
  subsum_le : subsum ≤ subtotal
  subtotal_le : subtotal ≤ total

/-- What `ErrRate` keeps: apart from the responses since the last tick, its sum is one of
recorded rates, each with the number of its responses. -/
structure ErrKeeps (m : MetricAvg) : Prop where
  counts : ∃ subsum subtotal total, ErrCounts m subsum subtotal total
  spread : Spread m.min.val m.max.val (m.sum.val - m.subsum.val) (m.total.val - m.subtotal.val)
  max_nonneg : 0 ≤ m.max.val
  max_le_one : m.max.val ≤ 1
  /-- before the first tick, or after it -/
  min_cases : (m.min.val = doubleMax ∧ m.total.val = m.subtotal.val) ∨
    (0 ≤ m.min.val ∧ m.min.val ≤ 1 ∧ (m.total.val = m.subtotal.val → m.min.val = 0))

namespace ErrKeeps

variable {ι : Type*} {m : MetricAvg}

theorem reset (m : MetricAvg) : ErrKeeps m.reset where
  counts := by
    refine ⟨0, 0, 0, ?_⟩
    constructor <;> simp [MetricAvg.reset]
  spread := by
    simpa [MetricAvg.reset] using Spread.empty doubleMax (0 : ℚ)
  max_nonneg := le_rfl
  max_le_one := zero_le_one
  min_cases := .inl ⟨rfl, rfl⟩

/-- A response counts on both sides. -/
theorem response (h : ErrKeeps m) (rsp : ReceivedResponse) :
    ErrKeeps (ErrRate.onResponseReceived rsp m) := by
  obtain ⟨subsum, subtotal, total, hc⟩ := h.counts
  have htotal : (ErrRate.onResponseReceived rsp m).total.val -
      (ErrRate.onResponseReceived rsp m).subtotal.val = m.total.val - m.subtotal.val := by
    unfold ErrRate.onResponseReceived
    split <;> simp
  have hsum : (ErrRate.onResponseReceived rsp m).sum.val -
      (ErrRate.onResponseReceived rsp m).subsum.val = m.sum.val - m.subsum.val := by
    unfold ErrRate.onResponseReceived
    split <;> simp
  have hmin : (ErrRate.onResponseReceived rsp m).min = m.min := by
    unfold ErrRate.onResponseReceived
    split <;> rfl
  have hmax : (ErrRate.onResponseReceived rsp m).max = m.max := by
    unfold ErrRate.onResponseReceived
    split <;> rfl
  have hlevel : (ErrRate.onResponseReceived rsp m).total.val =
      (ErrRate.onResponseReceived rsp m).subtotal.val ↔ m.total.val = m.subtotal.val := by
    rw [← sub_eq_zero, htotal, sub_eq_zero]
  refine
    { counts := ?_
      spread := by rw [hmin, hmax, hsum, htotal]; exact h.spread
      max_nonneg := by rw [hmax]; exact h.max_nonneg
      max_le_one := by rw [hmax]; exact h.max_le_one
      min_cases := by rw [hmin, hlevel]; exact h.min_cases }
  cases herr : rsp.hasErrorStatus with
  | true =>
      exact ⟨subsum + 1, subtotal + 1, total + 1,
        { subsum_eq := by simp [ErrRate.onResponseReceived, herr, hc.subsum_eq]
          subtotal_eq := by simp [ErrRate.onResponseReceived, herr, hc.subtotal_eq]
          total_eq := by simp [ErrRate.onResponseReceived, herr, hc.total_eq]
          subsum_le := Nat.succ_le_succ hc.subsum_le
          subtotal_le := Nat.succ_le_succ hc.subtotal_le }⟩
  | false =>
      exact ⟨subsum, subtotal + 1, total + 1,
        { subsum_eq := by simp [ErrRate.onResponseReceived, herr, hc.subsum_eq]
          subtotal_eq := by simp [ErrRate.onResponseReceived, herr, hc.subtotal_eq]
          total_eq := by simp [ErrRate.onResponseReceived, herr, hc.total_eq]
          subsum_le := hc.subsum_le.trans (Nat.le_succ subtotal)
          subtotal_le := Nat.succ_le_succ hc.subtotal_le }⟩

/-- The rate since the last tick is a share, the one of its responses. -/
theorem rate {subsum subtotal total : ℕ} (hc : ErrCounts m subsum subtotal total)
    (hsubtotal : m.subtotal.isClose doubleMax = false)
    (hsubsum : m.subsum.isClose doubleMax = false) :
    0 ≤ ErrRate.getRate m ∧ ErrRate.getRate m ≤ 1 ∧
      m.subtotal.val * ErrRate.getRate m = m.subsum.val := by
  have hle : (subsum : ℚ) ≤ subtotal := by exact_mod_cast hc.subsum_le
  have hrate : ErrRate.getRate m =
      if (subtotal : ℚ) ≤ 0 then 0 else (subsum : ℚ) / subtotal := by
    rw [ErrRate.getRate, Value.get_of_not_close hsubtotal, Value.get_of_not_close hsubsum,
      hc.subtotal_eq, hc.subsum_eq]
  rw [hrate, hc.subtotal_eq, hc.subsum_eq]
  rcases Nat.eq_zero_or_pos subtotal with rfl | hpos
  · have hzero : subsum = 0 := Nat.le_zero.mp hc.subsum_le
    simp [hzero]
  · have hpos' : (0 : ℚ) < subtotal := by exact_mod_cast hpos
    rw [if_neg (not_le.mpr hpos')]
    refine ⟨div_nonneg (Nat.cast_nonneg _) hpos'.le, (div_le_one hpos').mpr hle, ?_⟩
    exact mul_div_cancel₀ _ hpos'.ne'

/-- A tick records the rate. -/
theorem tick (h : ErrKeeps m) (hsubtotal : m.subtotal.isClose doubleMax = false)
    (hsubsum : m.subsum.isClose doubleMax = false) : ErrKeeps (ErrRate.onTimerExpired m) := by
  obtain ⟨subsum, subtotal, total, hc⟩ := h.counts
  obtain ⟨hnonneg, hle, hweight⟩ := rate hc hsubtotal hsubsum
  have hmin : (ErrRate.onTimerExpired m).min.val = min m.min.val (ErrRate.getRate m) :=
    Value.minimize_val _ _
  have hmax : (ErrRate.onTimerExpired m).max.val = max m.max.val (ErrRate.getRate m) :=
    Value.maximize_val _ _
  have hsum : (ErrRate.onTimerExpired m).sum.val - (ErrRate.onTimerExpired m).subsum.val =
      m.sum.val - m.subsum.val + m.subtotal.val * ErrRate.getRate m := by
    show m.sum.val - 0 = _
    rw [hweight]
    linarith
  have htotal : (ErrRate.onTimerExpired m).total.val - (ErrRate.onTimerExpired m).subtotal.val =
      m.total.val - m.subtotal.val + m.subtotal.val := by
    show m.total.val - 0 = _
    linarith
  have hsubtotalNonneg : 0 ≤ m.subtotal.val := by
    rw [hc.subtotal_eq]
    exact Nat.cast_nonneg _
  have hlarge : (1 : ℚ) ≤ doubleMax := le_trans (by norm_num [EPSILON]) Value.le_doubleMax
  -- no response since the last report: the rate is 0, and so is `min`
  have hidle : (ErrRate.onTimerExpired m).total.val = (ErrRate.onTimerExpired m).subtotal.val →
      ErrRate.getRate m = 0 ∧ m.total.val = m.subtotal.val := by
    intro heq
    have hzero : m.total.val = 0 := heq
    have hnat : total = 0 := by
      rw [hc.total_eq] at hzero
      exact_mod_cast hzero
    have hnat' : subtotal = 0 := by
      have hle' := hc.subtotal_le
      omega
    refine ⟨?_, by rw [hzero, hc.subtotal_eq, hnat', Nat.cast_zero]⟩
    rw [ErrRate.getRate, Value.get_of_not_close hsubtotal, hc.subtotal_eq, hnat']
    simp
  refine
    { counts := ⟨0, 0, total, ⟨Nat.cast_zero.symm, Nat.cast_zero.symm, hc.total_eq, le_rfl,
        Nat.zero_le total⟩⟩
      spread := ?_
      max_nonneg := by rw [hmax]; exact h.max_nonneg.trans (le_max_left _ _)
      max_le_one := by rw [hmax]; exact max_le h.max_le_one hle
      min_cases := .inr ?_ }
  · rw [hmin, hmax, hsum, htotal]
    exact h.spread.record hsubtotalNonneg _
  · rw [hmin]
    rcases h.min_cases with ⟨hstart, -⟩ | ⟨hlo, hhi, hzero⟩
    · have hrate : min m.min.val (ErrRate.getRate m) = ErrRate.getRate m :=
        min_eq_right (by linarith)
      rw [hrate]
      exact ⟨hnonneg, hle, fun heq => (hidle heq).1⟩
    · refine ⟨le_min hlo hnonneg, (min_le_left _ _).trans hhi, fun heq => ?_⟩
      obtain ⟨hrate, hlevel⟩ := hidle heq
      rw [hrate, hzero hlevel, min_self]

/-- A report without a response since the last tick. -/
theorem report (h : ErrKeeps m) (hempty : m.subtotal.val = 0)
    (htotal : m.total.isClose doubleMax = false) (hsum : m.sum.isClose doubleMax = false) :
    0 ≤ (m.report m.getAvg).min ∧ (m.report m.getAvg).min ≤ (m.report m.getAvg).avg ∧
      (m.report m.getAvg).avg ≤ (m.report m.getAvg).max ∧ (m.report m.getAvg).max ≤ 1 := by
  obtain ⟨subsum, subtotal, total, hc⟩ := h.counts
  have hsubtotal : subtotal = 0 := by
    rw [hc.subtotal_eq] at hempty
    exact_mod_cast hempty
  have hsubsum : m.subsum.val = 0 := by
    have hle := hc.subsum_le
    have hzero : subsum = 0 := by omega
    rw [hc.subsum_eq, hzero, Nat.cast_zero]
  have hmaxNonneg := h.max_nonneg
  have hmaxLe := h.max_le_one
  rcases Nat.eq_zero_or_pos total with hzero | hpos
  · -- no response since the last report
    have htotalZero : m.total.val = 0 := by rw [hc.total_eq, hzero, Nat.cast_zero]
    have havg : m.getAvg = 0 := MetricAvg.getAvg_of_none (hc.total_eq.trans (by rw [hzero]))
    have hmin : m.min.get = 0 := by
      rcases h.min_cases with ⟨hstart, -⟩ | ⟨-, hle, hidle⟩
      · exact Value.get_doubleMax hstart
      · rw [Value.get_of_le (by linarith), hidle (by rw [htotalZero, hempty])]
    rw [havg, MetricAvg.report_zero hmin (by linarith)]
    exact ⟨le_rfl, le_rfl, hmaxNonneg, hmaxLe⟩
  · have hpos' : 0 < m.total.val := by
      rw [hc.total_eq]
      exact_mod_cast hpos
    have hspread := h.spread
    rw [hempty, hsubsum, sub_zero, sub_zero] at hspread
    obtain ⟨hlo, hhi⟩ := hspread.mean_between hpos'
    obtain ⟨hminNonneg, hminLe⟩ : 0 ≤ m.min.val ∧ m.min.val ≤ 1 := by
      rcases h.min_cases with ⟨-, hlevel⟩ | ⟨hminNonneg, hminLe, -⟩
      · rw [hlevel, hempty] at hpos'
        exact absurd hpos' (lt_irrefl 0)
      · exact ⟨hminNonneg, hminLe⟩
    have havg : m.getAvg = m.sum.val / m.total.val :=
      MetricAvg.getAvg_of_pos hc.total_eq hpos hsum htotal
    rw [havg, MetricAvg.report_of_le (by linarith) (by linarith) (by linarith)]
    exact ⟨hminNonneg, hlo, hhi, hmaxLe⟩

end ErrKeeps

/-! ## Consistency -/

/-- A settled step keeps what the metric holds. -/
theorem ErrKeeps.step {ι : Type*} {interval : UInt32} {s : AvgRun} (hs : ErrKeeps s.metric)
    (a : ThreadStep ι) (hsettled : s.Settled interval a) :
    ErrKeeps (s.step ErrRate.handle interval a).metric := by
  unfold AvgRun.Settled at hsettled
  unfold AvgRun.step
  dsimp only
  match he : (s.timer.resolve interval a).2 with
  | .flow (.responseReceived rsp) => exact hs.response rsp
  | .flow .newFlowReceived => exact hs
  | .flow (.flowUpdate _ _ _) => exact hs
  | .flow .requestReceived => exact hs
  | .timerExpired =>
      rw [he] at hsettled
      exact hs.tick hsettled.1 hsettled.2
  | .intervalExpired => exact ErrKeeps.reset s.metric

/-- The report of a settled step is consistent. -/
theorem ErrKeeps.consistent {ι : Type*} {interval : UInt32} {s : AvgRun}
    (hs : ErrKeeps s.metric) (a : ThreadStep ι) (hsettled : s.Settled interval a) :
    s.Consistent interval a := by
  intro r hr
  unfold AvgRun.report at hr
  by_cases he : (s.timer.resolve interval a).2 = .intervalExpired
  · unfold AvgRun.Settled at hsettled
    rw [he] at hr hsettled
    obtain rfl : s.metric.report s.metric.getAvg = r := by simpa [ErrRate.handle] using hr
    exact hs.report hsettled.1 hsettled.2.1 hsettled.2.2
  · rw [ErrRate.handle_quiet he] at hr
    simp at hr

/-- **Error rates are consistent while no response comes late.**  For every interleaving of
the flow threads with the timer in which, whenever `processData` is about to notify
`intervalExpired`, no response was received since its `timerExpired`, and no counter that
the timer's notifications read is next to the largest double: every report satisfies
0 ≤ min ≤ avg ≤ max ≤ 1. -/
theorem error_rates_consistent {ι : Type*} (interval : UInt32) (steps : List (ThreadStep ι))
    (hsettled : EveryStep (total (AvgRun.step ErrRate.handle interval))
      (AvgRun.Settled interval) .start steps) :
    EveryStep (total (AvgRun.step ErrRate.handle interval)) (AvgRun.Consistent interval)
      .start steps := by
  have hkeeps : EveryState (total (AvgRun.step ErrRate.handle interval))
      (fun s => ErrKeeps s.metric) .start steps := by
    refine everyState_of_everyStep ?_ (ErrKeeps.reset _) hsettled
    intro s a s' hs hset hstep
    obtain rfl := Option.some.inj hstep
    exact hs.step a hset
  intro before a hbefore s hrun
  have hs := hkeeps before ((List.prefix_append before [a]).trans hbefore) s hrun
  exact hs.consistent a (hsettled before a hbefore s hrun)

/-- A response with the error status, if `hasErrorStatus`. -/
def responseOf (hasErrorStatus : Bool) : ReceivedResponse :=
  { reqFbSec := 0, reqFbUsec := 0, rspFbSec := 0, rspFbUsec := 0
    hasErrorStatus := hasErrorStatus }

/-- One error among two responses of a second. -/
theorem error_rates_consistent_one_second :
    EveryStep (total (AvgRun.step (ι := ℕ) ErrRate.handle 1)) (AvgRun.Consistent 1) .start
      [.flowThread (.responseReceived (responseOf true)),
        .flowThread (.responseReceived (responseOf false)), .processData, .processData] := by
  apply error_rates_consistent
  decide +kernel

/-- An error in a second of its own, and then a response between the tick and the report:
the rate of the tick is 1, the average 1/2. -/
theorem error_rate_leaves_extremes :
    ¬ ∀ steps : List (ThreadStep ℕ),
      EveryStep (total (AvgRun.step ErrRate.handle 1)) (AvgRun.Consistent 1) .start steps := by
  intro hall
  have hlate := hall [.flowThread (.responseReceived (responseOf true)), .processData,
    .flowThread (.responseReceived (responseOf false)), .processData]
  revert hlate
  decide +kernel

end MonitoringTool.Sniffer
