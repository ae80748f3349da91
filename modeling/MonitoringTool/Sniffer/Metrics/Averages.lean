import MonitoringTool.Lib.Spread
import MonitoringTool.Sniffer.Metrics.Rate

/-!
# Averages between their extremes

A report holds the average, the least and the greatest of what a metric recorded since the
report before.  `ReqRate` and `ConnRate` record one number at every `timerExpired` and
divide by the configured interval, `Rst` records the service time of every response and
divides by their number.

The timer's step counter makes the interval the number of ticks since the last report
(`OnTime`), and `Spread` carries the sum between the extremes.  `averages_in_order` gives
the order for every run: for the rates always, since each tick records an `int`; for `Rst`
unless the sum or the number of the service times is next to the largest double, which
`Value::get` takes for no value at all (`rst_average_below_min`).
-/

namespace MonitoringTool.Sniffer

open Lib

/-! ## The request service time -/

namespace Rst

/-- The time between the first byte of the request and the first byte of the response. -/
def serviceTime (rsp : ReceivedResponse) : ℚ :=
  (rsp.rspFbSec.toInt + rsp.rspFbUsec.toInt * (1 / 10 ^ 6)) -
    (rsp.reqFbSec.toInt + rsp.reqFbUsec.toInt * (1 / 10 ^ 6))

/-- `Rst::onResponseReceived`. -/
def onResponseReceived (rsp : ReceivedResponse) (m : MetricAvg) : MetricAvg :=
  let rst := serviceTime rsp
  let m := { m with total := m.total.add 1 }
  let m := { m with sum := m.sum.add rst }
  let m := { m with min := m.min.minimize rst }
  { m with max := m.max.maximize rst }

/-- `Rst`'s answer to an event. -/
def handle {ι : Type*} (_interval : UInt32) (m : MetricAvg) :
    MetricEvent ι → MetricAvg × Option Report
  | .flow (.responseReceived rsp) => (onResponseReceived rsp m, none)
  | .flow _ => (m, none)
  | .timerExpired => (m, none)
  | .intervalExpired => (m.reset, some (m.report m.getAvg))

/-- Only `intervalExpired` makes a report. -/
theorem handle_quiet {ι : Type*} {interval : UInt32} {m : MetricAvg} {e : MetricEvent ι}
    (he : e ≠ .intervalExpired) : (handle interval m e).2 = none := by
  match e with
  | .flow (.responseReceived rsp) => rfl
  | .flow .newFlowReceived => rfl
  | .flow (.flowUpdate _ _ _) => rfl
  | .flow .requestReceived => rfl
  | .timerExpired => rfl
  | .intervalExpired => exact absurd rfl he

end Rst

/-! ## Runs -/

/-- A metric between two steps of the threads, with the number of ticks since its last
report. -/
structure AvgRun where
  timer : ProcessData
  metric : MetricAvg
  ticks : ℕ
  deriving DecidableEq

namespace AvgRun

variable {ι : Type*}

/-- The start of the analysis. -/
def start : AvgRun := { timer := .start, metric := .new, ticks := 0 }

/-- One atomic step of the threads. -/
def step (handle : UInt32 → MetricAvg → MetricEvent ι → MetricAvg × Option Report)
    (interval : UInt32) (s : AvgRun) (a : ThreadStep ι) : AvgRun :=
  let r := s.timer.resolve interval a
  { timer := r.1
    metric := (handle interval s.metric r.2).1
    ticks := match r.2 with
      | .flow _ => s.ticks
      | .timerExpired => s.ticks + 1
      | .intervalExpired => 0 }

/-- The report that a step makes, if any. -/
def report (handle : UInt32 → MetricAvg → MetricEvent ι → MetricAvg × Option Report)
    (interval : UInt32) (s : AvgRun) (a : ThreadStep ι) : Option Report :=
  (handle interval s.metric (s.timer.resolve interval a).2).2

/-- What the step reports is in order, and the ticks since the last report are as many as
the interval. -/
def InOrder (handle : UInt32 → MetricAvg → MetricEvent ι → MetricAvg × Option Report)
    (interval : UInt32) (s : AvgRun) (a : ThreadStep ι) : Prop :=
  ∀ r ∈ s.report handle interval a, r.min ≤ r.avg ∧ r.avg ≤ r.max ∧ s.ticks = interval.toNat

/-- The timer has counted the ticks, and owes the report when they are as many as the
interval. -/
def OnTime (interval : UInt32) (s : AvgRun) : Prop :=
  match s.timer.pos with
  | .atTimer => s.ticks = s.timer.intStep.toNat ∧ s.timer.intStep.toNat < interval.toNat
  | .atInterval => s.ticks = interval.toNat

/-- A step keeps the timer on time, and notifies `intervalExpired` only after as many ticks
as the interval. -/
theorem OnTime.step {interval : UInt32} {s : AvgRun} (hs : s.OnTime interval)
    (hinterval : 1 ≤ interval)
    (handle : UInt32 → MetricAvg → MetricEvent ι → MetricAvg × Option Report)
    (a : ThreadStep ι) :
    (s.step handle interval a).OnTime interval ∧
      ((s.timer.resolve interval a).2 = .intervalExpired → s.ticks = interval.toNat) := by
  have hone : 1 ≤ interval.toNat := UInt32.le_iff_toNat_le.mp hinterval
  obtain ⟨⟨intStep, pos⟩, metric, ticks⟩ := s
  cases a with
  | flowThread e => exact ⟨hs, by simp [ProcessData.resolve]⟩
  | processData =>
      cases pos with
      | atInterval =>
          refine ⟨⟨rfl, ?_⟩, fun _ => hs⟩
          exact hone
      | atTimer =>
          obtain ⟨hticks, hlt⟩ := hs
          have hticks' : ticks = intStep.toNat := hticks
          have hlt' : intStep.toNat < interval.toNat := hlt
          have hwrap := interval.toNat_lt
          have hnext : (intStep + 1).toNat = intStep.toNat + 1 := by
            rw [UInt32.toNat_add]
            exact Nat.mod_eq_of_lt (by simp; omega)
          by_cases hmore : intStep + 1 < interval
          · have hmore' : intStep.toNat + 1 < interval.toNat := by
              rw [← hnext]
              exact UInt32.lt_iff_toNat_lt.mp hmore
            simp only [AvgRun.step, ProcessData.resolve, ProcessData.next, hmore, if_true, OnTime,
              hnext]
            exact ⟨⟨by omega, hmore'⟩, by simp⟩
          · have hfull : interval.toNat ≤ intStep.toNat + 1 := by
              rw [← hnext]
              exact not_lt.mp fun h => hmore (UInt32.lt_iff_toNat_lt.mpr h)
            simp only [AvgRun.step, ProcessData.resolve, ProcessData.next, hmore, if_false, OnTime]
            exact ⟨by omega, by simp⟩

/-- **The rule for a metric.**  What the metric keeps along the ticks since its last report
gives the order of every report that meets the guard. -/
theorem everyStep_inOrder
    (handle : UInt32 → MetricAvg → MetricEvent ι → MetricAvg × Option Report)
    (I : ℕ → MetricAvg → Prop) (G : MetricAvg → Prop) {interval : UInt32}
    (hinterval : 1 ≤ interval) (hstart : I 0 .new)
    (hflow : ∀ t m e, I t m → I t (handle interval m (.flow e)).1)
    (htick : ∀ t m, I t m → I (t + 1) (handle interval m .timerExpired).1)
    (hreset : ∀ t m, I t m → I 0 (handle interval m .intervalExpired).1)
    (hquiet : ∀ m e, e ≠ .intervalExpired → (handle interval m e).2 = none)
    (hreport : ∀ m, I interval.toNat m → G m → ∀ r ∈ (handle interval m .intervalExpired).2,
      r.min ≤ r.avg ∧ r.avg ≤ r.max)
    (steps : List (ThreadStep ι)) :
    EveryStep (total (step handle interval)) (fun s a => G s.metric → s.InOrder handle interval a)
      .start steps := by
  have honTime : start.OnTime interval := ⟨rfl, UInt32.le_iff_toNat_le.mp hinterval⟩
  refine everyStep_of_inv (fun (s : AvgRun) a (hs : s.OnTime interval ∧ I s.ticks s.metric)
    (_ : True) hG r hr => ?_) ?_ ⟨honTime, hstart⟩ (fun _ _ => trivial)
  · unfold report at hr
    by_cases he : (s.timer.resolve interval a).2 = .intervalExpired
    · have hticks := (hs.1.step hinterval handle a).2 he
      rw [he] at hr
      obtain ⟨hmin, hmax⟩ := hreport s.metric (hticks ▸ hs.2) hG r hr
      exact ⟨hmin, hmax, hticks⟩
    · rw [hquiet _ _ he] at hr
      simp at hr
  · intro s a s' hs _ hstep
    obtain rfl := Option.some.inj hstep
    refine ⟨(hs.1.step hinterval handle a).1, ?_⟩
    unfold step
    dsimp only
    cases (s.timer.resolve interval a).2 with
    | flow e => exact hflow _ _ e hs.2
    | timerExpired => exact htick _ _ hs.2
    | intervalExpired => exact hreset _ _ hs.2

end AvgRun

/-! ## The rates -/

/-- What a rate keeps: as many `int`s as there were ticks, between the extremes. -/
structure RateKeeps (t : ℕ) (m : MetricAvg) : Prop where
  spread : Spread m.min.val m.max.val m.sum.val t
  max_nonneg : 0 ≤ m.max.val
  max_fits : m.max.val ≤ 2 ^ 31
  min_fits : 0 < t → m.min.val ≤ 2 ^ 31

namespace RateKeeps

variable {ι : Type*} {counts : FlowNotice ι → Bool} {interval : UInt32} {t : ℕ} {m : MetricAvg}

theorem reset (m : MetricAvg) : RateKeeps 0 m.reset where
  spread := by
    rw [Nat.cast_zero]
    exact .empty _ _
  max_nonneg := le_rfl
  max_fits := by simp [MetricAvg.reset]
  min_fits := by simp

theorem flow (h : RateKeeps t m) (e : FlowNotice ι) :
    RateKeeps t (countHandle counts interval m (.flow e)).1 := by
  simp only [countHandle]
  split
  · exact ⟨h.spread, h.max_nonneg, h.max_fits, h.min_fits⟩
  · exact h

/-- A tick records the `int` that `subtotal` is converted to. -/
theorem tick (h : RateKeeps t m) : RateKeeps (t + 1) (ReqRate.onTimerExpired m) := by
  obtain ⟨-, hlt⟩ := toInt_bounds m.subtotal.get
  have hle : (toInt m.subtotal.get : ℚ) ≤ 2 ^ 31 := by exact_mod_cast hlt.le
  have hmin : (ReqRate.onTimerExpired m).min.val = min m.min.val (toInt m.subtotal.get) :=
    Value.minimize_val _ _
  have hmax : (ReqRate.onTimerExpired m).max.val = max m.max.val (toInt m.subtotal.get) :=
    Value.maximize_val _ _
  have hsum : (ReqRate.onTimerExpired m).sum.val =
      m.sum.val + 1 * (toInt m.subtotal.get : ℚ) := by
    rw [one_mul]
    rfl
  constructor
  · rw [hmin, hmax, hsum, Nat.cast_add, Nat.cast_one]
    exact h.spread.record zero_le_one _
  · rw [hmax]
    exact h.max_nonneg.trans (le_max_left _ _)
  · rw [hmax]
    exact max_le h.max_fits hle
  · intro _
    rw [hmin]
    exact (min_le_right _ _).trans hle

/-- The report of a rate that has recorded as many ticks as the interval. -/
theorem report (hinterval : 1 ≤ interval) (h : RateKeeps interval.toNat m) :
    (m.report (ReqRate.getAvg interval m)).min ≤ (m.report (ReqRate.getAvg interval m)).avg ∧
      (m.report (ReqRate.getAvg interval m)).avg ≤ (m.report (ReqRate.getAvg interval m)).max := by
  have hone : 1 ≤ interval.toNat := UInt32.le_iff_toNat_le.mp hinterval
  have hpos : (0 : ℚ) < interval.toNat := by exact_mod_cast hone
  have hnot : ¬ interval ≤ 0 := by
    rw [UInt32.le_iff_toNat_le]
    exact Nat.not_le.mpr hone
  have hword : (interval.toNat : ℚ) ≤ 2 ^ 32 := by exact_mod_cast interval.toNat_lt.le
  have hsum : m.sum.get = m.sum.val := by
    apply Value.get_of_le
    calc m.sum.val ≤ interval.toNat * m.max.val := h.spread.le_hi
      _ ≤ 2 ^ 32 * 2 ^ 31 := mul_le_mul hword h.max_fits h.max_nonneg (by norm_num)
      _ ≤ 2 ^ 128 := by norm_num
  obtain ⟨hlo, hhi⟩ := h.spread.mean_between hpos
  have hmaxFits := h.max_fits
  have hminFits := h.min_fits hone
  have havg : ReqRate.getAvg interval m = m.sum.val / interval.toNat := by
    rw [ReqRate.getAvg, if_neg hnot, hsum]
  rw [havg, MetricAvg.report_of_le (by linarith) (by linarith) (by linarith)]
  exact ⟨hlo, hhi⟩

/-- Every report of a rate is in order. -/
theorem everyStep_inOrder (counts : FlowNotice ι → Bool) (hinterval : 1 ≤ interval)
    (steps : List (ThreadStep ι)) :
    EveryStep (total (AvgRun.step (countHandle counts) interval))
      (fun s a => s.InOrder (countHandle counts) interval a) .start steps := by
  have hall := AvgRun.everyStep_inOrder (countHandle counts) RateKeeps (fun _ => True) hinterval
    (reset _) (fun t m e h => h.flow e) (fun t m h => h.tick) (fun t m _ => reset m) ?_ ?_ steps
  · exact fun before a hbefore s hrun => hall before a hbefore s hrun trivial
  · intro m e he
    cases e with
    | flow e => rfl
    | timerExpired => rfl
    | intervalExpired => exact absurd rfl he
  · intro m h _ r hr
    obtain rfl : m.report (ReqRate.getAvg interval m) = r := by simpa [countHandle] using hr
    exact h.report hinterval

end RateKeeps

/-! ## The service times -/

/-- A number of events is next to 0 only if it is 0. -/
theorem Value.isClose_zero_iff {value : Value} {n : ℕ} (h : value.val = n) :
    value.isClose 0 = true ↔ n = 0 := by
  have hclose : value.isClose 0 = true ↔ (n : ℚ) < 1 / 10 ^ 7 := by
    simp [Value.isClose, EPSILON, h]
  rw [hclose]
  constructor
  · intro hlt
    have hone : (n : ℚ) < 1 := hlt.trans (by norm_num)
    have hone' : n < 1 := by exact_mod_cast hone
    omega
  · rintro rfl
    norm_num

/-- Without an event the average is 0. -/
theorem MetricAvg.getAvg_of_none {m : MetricAvg} (h : m.total.val = (0 : ℕ)) : m.getAvg = 0 := by
  rw [MetricAvg.getAvg, if_pos ((Value.isClose_zero_iff h).mpr rfl)]

/-- With events the average is the mean, unless the sum or the number of them is read as no
value. -/
theorem MetricAvg.getAvg_of_pos {m : MetricAvg} {n : ℕ} (h : m.total.val = n) (hpos : 0 < n)
    (hsum : m.sum.isClose doubleMax = false) (htotal : m.total.isClose doubleMax = false) :
    m.getAvg = m.sum.val / m.total.val := by
  rw [MetricAvg.getAvg, if_neg ((Value.isClose_zero_iff h).not.mpr hpos.ne'),
    Value.get_of_not_close hsum, Value.get_of_not_close htotal]

/-- Service times are far below the largest double. -/
theorem Rst.serviceTime_le (rsp : ReceivedResponse) : serviceTime rsp ≤ 2 ^ 66 := by
  have hbound : ∀ x : Int64, (x.toInt : ℚ) ≤ 2 ^ 63 ∧ -2 ^ 63 ≤ (x.toInt : ℚ) := by
    intro x
    have hlo := x.le_toInt
    have hhi := x.toInt_lt
    exact ⟨by exact_mod_cast hhi.le, by exact_mod_cast hlo⟩
  have hrs := hbound rsp.rspFbSec
  have hru := hbound rsp.rspFbUsec
  have hqs := hbound rsp.reqFbSec
  have hqu := hbound rsp.reqFbUsec
  unfold serviceTime
  linarith

/-- What `Rst` keeps: the service times of the responses, between the extremes. -/
structure RstKeeps (m : MetricAvg) : Prop where
  spread : Spread m.min.val m.max.val m.sum.val m.total.val
  total_nat : ∃ n : ℕ, m.total.val = n
  idle : m.total.val = 0 → m.min.val = doubleMax ∧ m.max.val = 0
  max_fits : m.max.val ≤ 2 ^ 66
  min_fits : 0 < m.total.val → m.min.val ≤ 2 ^ 66

namespace RstKeeps

variable {ι : Type*} {interval : UInt32} {m : MetricAvg}

theorem reset (m : MetricAvg) : RstKeeps m.reset where
  spread := .empty _ _
  total_nat := ⟨0, by simp [MetricAvg.reset]⟩
  idle := fun _ => ⟨rfl, rfl⟩
  max_fits := by simp [MetricAvg.reset]
  min_fits := by simp [MetricAvg.reset]

theorem response (h : RstKeeps m) (rsp : ReceivedResponse) :
    RstKeeps (Rst.onResponseReceived rsp m) := by
  obtain ⟨n, hn⟩ := h.total_nat
  have htotal : (Rst.onResponseReceived rsp m).total.val = m.total.val + 1 := rfl
  have hsum : (Rst.onResponseReceived rsp m).sum.val = m.sum.val + 1 * Rst.serviceTime rsp := by
    rw [one_mul]
    rfl
  have hmin : (Rst.onResponseReceived rsp m).min.val = min m.min.val (Rst.serviceTime rsp) :=
    Value.minimize_val _ _
  have hmax : (Rst.onResponseReceived rsp m).max.val = max m.max.val (Rst.serviceTime rsp) :=
    Value.maximize_val _ _
  have hle := Rst.serviceTime_le rsp
  constructor
  · rw [hmin, hmax, hsum, htotal]
    exact h.spread.record zero_le_one _
  · exact ⟨n + 1, by rw [htotal, hn, Nat.cast_add, Nat.cast_one]⟩
  · intro hzero
    have hnonneg := h.spread.weight_nonneg
    rw [htotal] at hzero
    linarith
  · rw [hmax]
    exact max_le h.max_fits hle
  · intro _
    rw [hmin]
    exact (min_le_right _ _).trans hle

/-- The report, unless the sum or the number of the service times is read as no value. -/
theorem report (h : RstKeeps m) (hsum : m.sum.isClose doubleMax = false)
    (htotal : m.total.isClose doubleMax = false) :
    (m.report m.getAvg).min ≤ (m.report m.getAvg).avg ∧
      (m.report m.getAvg).avg ≤ (m.report m.getAvg).max := by
  obtain ⟨n, hn⟩ := h.total_nat
  have hmaxFits := h.max_fits
  rcases Nat.eq_zero_or_pos n with rfl | hpos
  · -- nothing was recorded: all three are read as 0
    obtain ⟨hmin, hzero⟩ := h.idle (by rw [hn, Nat.cast_zero])
    have havg : m.getAvg = 0 := MetricAvg.getAvg_of_none hn
    rw [havg, MetricAvg.report_zero (Value.get_doubleMax hmin) (by linarith), hzero]
    exact ⟨le_rfl, le_rfl⟩
  · have hpos' : 0 < m.total.val := by
      rw [hn]
      exact_mod_cast hpos
    obtain ⟨hlo, hhi⟩ := h.spread.mean_between hpos'
    have hminFits := h.min_fits hpos'
    have havg : m.getAvg = m.sum.val / m.total.val :=
      MetricAvg.getAvg_of_pos hn hpos hsum htotal
    rw [havg, MetricAvg.report_of_le (by linarith) (by linarith) (by linarith)]
    exact ⟨hlo, hhi⟩

end RstKeeps

/-! ## Averages in order -/

/-- **Averages are between their extremes.**  For every interval from 1 on and every
interleaving of the flow threads with the timer, each report of `ReqRate` and of `ConnRate`
satisfies min ≤ avg ≤ max and follows as many ticks as the interval; so does each report of
`Rst`, unless the sum or the number of the service times since the last one is next to the
largest double. -/
theorem averages_in_order {ι : Type*} (interval : UInt32) (hinterval : 1 ≤ interval)
    (steps : List (ThreadStep ι)) :
    EveryStep (total (AvgRun.step ReqRate.handle interval))
        (fun s a => s.InOrder ReqRate.handle interval a) .start steps ∧
      EveryStep (total (AvgRun.step ConnRate.handle interval))
        (fun s a => s.InOrder ConnRate.handle interval a) .start steps ∧
      EveryStep (total (AvgRun.step Rst.handle interval))
        (fun s a => s.metric.sum.isClose doubleMax = false ∧
          s.metric.total.isClose doubleMax = false → s.InOrder Rst.handle interval a)
        .start steps := by
  have hreq : ReqRate.handle (ι := ι) = countHandle FlowNotice.isRequest := by
    funext interval m e
    exact ReqRate.handle_eq interval m e
  have hconn : ConnRate.handle (ι := ι) = countHandle FlowNotice.isNewFlow := by
    funext interval m e
    exact ConnRate.handle_eq interval m e
  rw [hreq, hconn]
  refine ⟨RateKeeps.everyStep_inOrder _ hinterval steps,
    RateKeeps.everyStep_inOrder _ hinterval steps, ?_⟩
  apply AvgRun.everyStep_inOrder Rst.handle (fun _ => RstKeeps) (fun m =>
    m.sum.isClose doubleMax = false ∧ m.total.isClose doubleMax = false) hinterval
  · exact RstKeeps.reset _
  · intro t m e h
    cases e with
    | responseReceived rsp => exact h.response rsp
    | newFlowReceived => exact h
    | flowUpdate flow payloadSrc payloadDst => exact h
    | requestReceived => exact h
  · exact fun t m h => h
  · exact fun t m _ => RstKeeps.reset m
  · exact fun m e he => Rst.handle_quiet he
  · intro m h hG r hr
    obtain rfl : m.report m.getAvg = r := by simpa [Rst.handle] using hr
    exact h.report hG.1 hG.2

/-- A second of two requests, reported every second. -/
theorem averages_in_order_one_second :
    (1 : UInt32) ≤ 1 ∧
      EveryStep (total (AvgRun.step (ι := ℕ) ReqRate.handle 1))
        (fun s a => s.InOrder ReqRate.handle 1 a) .start
        [.flowThread .requestReceived, .flowThread .requestReceived, .processData,
          .processData] :=
  ⟨by decide, (averages_in_order 1 (by decide) _).1⟩

/-- A response two seconds after its request. -/
def twoSeconds : ReceivedResponse :=
  { reqFbSec := 0, reqFbUsec := 0, rspFbSec := 2, rspFbUsec := 0, hasErrorStatus := false }

theorem serviceTime_twoSeconds : Rst.serviceTime twoSeconds = 2 := by
  have htwo : (2 : Int64).toInt = 2 := by decide
  have hzero : (0 : Int64).toInt = 0 := by decide
  simp [Rst.serviceTime, twoSeconds, htwo, hzero]

/-- What `Rst` holds after `n + 1` service times of two seconds. -/
theorem run_twoSeconds (n : ℕ) :
    ∃ m : MetricAvg, run (total (AvgRun.step (ι := ℕ) Rst.handle 1)) .start
        (List.replicate (n + 1) (.flowThread (.responseReceived twoSeconds))) =
          some ⟨.start, m, 0⟩ ∧
      m.total.val = (n + 1 : ℕ) ∧ m.sum.val = 2 * (n + 1 : ℕ) ∧ m.min.val = 2 := by
  induction n with
  | zero =>
      refine ⟨Rst.onResponseReceived twoSeconds .new, rfl, ?_, ?_, ?_⟩
      · simp [Rst.onResponseReceived, MetricAvg.new, MetricAvg.reset]
      · simp [Rst.onResponseReceived, MetricAvg.new, MetricAvg.reset, serviceTime_twoSeconds]
      · have hmax : (2 : ℚ) ≤ doubleMax :=
          le_trans (by norm_num [EPSILON]) Value.le_doubleMax
        simp [Rst.onResponseReceived, MetricAvg.new, MetricAvg.reset, serviceTime_twoSeconds,
          Value.minimize_val, hmax]
  | succ n ih =>
      obtain ⟨m, hrun, htotal, hsum, hmin⟩ := ih
      refine ⟨Rst.onResponseReceived twoSeconds m, ?_, ?_, ?_, ?_⟩
      · rw [List.replicate_succ', run_append, hrun]
        rfl
      · simp [Rst.onResponseReceived, htotal]
      · show m.sum.val + Rst.serviceTime twoSeconds = 2 * ((n + 1 + 1 : ℕ) : ℚ)
        rw [hsum, serviceTime_twoSeconds]
        push_cast
        linarith
      · simp [Rst.onResponseReceived, hmin, serviceTime_twoSeconds, Value.minimize_val]

/-- The largest double is an even number, and not 0. -/
theorem exists_two_mul_eq_doubleMax : ∃ n : ℕ, 2 * ((n + 1 : ℕ) : ℚ) = doubleMax := by
  have heven : ∀ k : ℕ, ∃ n : ℕ, 2 * ((n + 1 : ℕ) : ℚ) = (2 ^ 53 - 1) * 2 ^ (k + 1) := by
    intro k
    obtain ⟨n, hn⟩ := Nat.exists_eq_add_one.mpr
      (show 0 < (2 ^ 53 - 1) * 2 ^ k from Nat.mul_pos (by decide) (Nat.two_pow_pos k))
    have hfactor : ((2 ^ 53 - 1 : ℕ) : ℚ) = 2 ^ 53 - 1 := by norm_num
    refine ⟨n, ?_⟩
    rw [← hn, Nat.cast_mul, hfactor, pow_succ' 2 k, Nat.cast_pow]
    exact mul_left_comm _ _ _
  exact heven 970

/-- Service times of two seconds that add up to the largest double: `Value::get` takes their
sum for no value, and the average reported is 0. -/
theorem rst_average_below_min :
    ¬ ∀ steps : List (ThreadStep ℕ),
      EveryStep (total (AvgRun.step Rst.handle 1)) (fun s a => s.InOrder Rst.handle 1 a)
        .start steps := by
  intro hall
  obtain ⟨n, hn⟩ := exists_two_mul_eq_doubleMax
  obtain ⟨m, hrun, htotal, hsum, hmin⟩ := run_twoSeconds n
  have hbefore : run (total (AvgRun.step (ι := ℕ) Rst.handle 1)) .start
      (List.replicate (n + 1) (.flowThread (.responseReceived twoSeconds)) ++ [.processData]) =
        some ⟨⟨1, .atInterval⟩, m, 1⟩ := by
    rw [run_append, hrun]
    rfl
  have hreport : m.report m.getAvg ∈ AvgRun.report (ι := ℕ) Rst.handle 1
      ⟨⟨1, .atInterval⟩, m, 1⟩ .processData := rfl
  obtain ⟨hle, -, -⟩ := hall _ _ .processData (List.prefix_refl _) _ hbefore _ hreport
  have hget : m.sum.get = 0 := Value.get_doubleMax (hsum.trans hn)
  have havg : m.getAvg = 0 := by
    rw [MetricAvg.getAvg, if_neg ((Value.isClose_zero_iff htotal).not.mpr (Nat.succ_ne_zero n)),
      hget, zero_div]
  have hread : (m.avg.set 0).get = 0 := Value.get_of_le (by simp)
  have htwo : m.min.get = 2 := (Value.get_of_le (by rw [hmin]; norm_num)).trans hmin
  unfold MetricAvg.report at hle
  rw [havg, hread, htwo] at hle
  norm_num at hle

end MonitoringTool.Sniffer
