import MonitoringTool.Lib.Run
import MonitoringTool.Sniffer.Metrics.MetricAvg
import Mathlib.Algebra.BigOperators.Group.List.Basic
import Mathlib.Algebra.Order.Field.Basic

/-!
# The request rate and the connection rate

`ReqRate` and `ConnRate` count notifications in `subtotal`.  `timerExpired` moves
the count to `sum`; `intervalExpired` reports `sum` over the interval and resets
both accumulators.  Between a `timerExpired` and the `intervalExpired` that
`processData` issues after it, another thread can still count: what it counts
there stands in `subtotal`, is not in the report, and the reset throws it away.

`rates_conserve_iff` says exactly when no notification is lost.
-/

namespace MonitoringTool.Sniffer

open Lib

/-! ## The two metrics -/

namespace ReqRate

/-- `ReqRate::getAvg`. -/
def getAvg (interval : UInt32) (m : MetricAvg) : ℚ :=
  if interval ≤ 0 then 0 else m.sum.get / interval.toNat

/-- `ReqRate::onRequestReceived`. -/
def onRequestReceived (m : MetricAvg) : MetricAvg :=
  { m with subtotal := m.subtotal.add 1 }

/-- `ReqRate::onTimerExpired`. -/
def onTimerExpired (m : MetricAvg) : MetricAvg :=
  let reqSubtotal := toInt m.subtotal.get
  let m := { m with min := m.min.minimize reqSubtotal }
  let m := { m with max := m.max.maximize reqSubtotal }
  let m := { m with sum := m.sum.add reqSubtotal }
  { m with subtotal := m.subtotal.set 0 }

end ReqRate

namespace ConnRate

/-- `ConnRate::getAvg`. -/
def getAvg (interval : UInt32) (m : MetricAvg) : ℚ :=
  if interval ≤ 0 then 0 else m.sum.get / interval.toNat

/-- `ConnRate::onNewFlowReceived`. -/
def onNewFlowReceived (m : MetricAvg) : MetricAvg :=
  { m with subtotal := m.subtotal.add 1 }

/-- `ConnRate::onTimerExpired`; `MetricAvg::onTimerExpired`, which it calls last,
is empty. -/
def onTimerExpired (m : MetricAvg) : MetricAvg :=
  let connCnt := toInt m.subtotal.get
  let m := { m with sum := m.sum.add connCnt }
  let m := { m with min := m.min.minimize connCnt }
  let m := { m with max := m.max.maximize connCnt }
  { m with subtotal := m.subtotal.set 0 }

end ConnRate

section Handlers

variable {ι : Type*}

/-- A rate's answer to an event: the values after it and the report it sends. -/
def ReqRate.handle (interval : UInt32) (m : MetricAvg) :
    MetricEvent ι → MetricAvg × Option Report
  | .flow .requestReceived => (onRequestReceived m, none)
  | .flow _ => (m, none)
  | .timerExpired => (onTimerExpired m, none)
  | .intervalExpired => (m.reset, some (m.report (getAvg interval m)))

@[inherit_doc ReqRate.handle]
def ConnRate.handle (interval : UInt32) (m : MetricAvg) :
    MetricEvent ι → MetricAvg × Option Report
  | .flow .newFlowReceived => (onNewFlowReceived m, none)
  | .flow _ => (m, none)
  | .timerExpired => (onTimerExpired m, none)
  | .intervalExpired => (m.reset, some (m.report (getAvg interval m)))

/-- The two metrics differ in the event they count and in nothing else. -/
def countHandle (counts : FlowNotice ι → Bool) (interval : UInt32) (m : MetricAvg) :
    MetricEvent ι → MetricAvg × Option Report
  | .flow e => (if counts e then ReqRate.onRequestReceived m else m, none)
  | .timerExpired => (ReqRate.onTimerExpired m, none)
  | .intervalExpired => (m.reset, some (m.report (ReqRate.getAvg interval m)))

/-- The event `ReqRate` counts. -/
def FlowNotice.isRequest : FlowNotice ι → Bool
  | .requestReceived => true
  | _ => false

/-- The event `ConnRate` counts. -/
def FlowNotice.isNewFlow : FlowNotice ι → Bool
  | .newFlowReceived => true
  | _ => false

theorem ReqRate.handle_eq (interval : UInt32) (m : MetricAvg) (e : MetricEvent ι) :
    ReqRate.handle interval m e = countHandle FlowNotice.isRequest interval m e := by
  rcases e with (_ | _ | _ | _) | _ | _ <;> rfl

theorem ConnRate.handle_eq (interval : UInt32) (m : MetricAvg) (e : MetricEvent ι) :
    ConnRate.handle interval m e = countHandle FlowNotice.isNewFlow interval m e := by
  rcases e with (_ | _ | _ | _) | _ | _ <;> rfl

end Handlers

/-! ## Runs -/

/-- A rate between two steps of the threads: the timer, the metric, the reports
so far and the number of notifications it should have counted. -/
structure RateRun where
  timer : ProcessData
  metric : MetricAvg
  reports : List Report
  notified : ℕ
  deriving DecidableEq

namespace RateRun

variable {ι : Type*}

/-- The start of the analysis. -/
def start : RateRun :=
  { timer := .start, metric := .new, reports := [], notified := 0 }

/-- One atomic step of the threads. -/
def step (handle : UInt32 → MetricAvg → MetricEvent ι → MetricAvg × Option Report)
    (counts : FlowNotice ι → Bool) (interval : UInt32) (s : RateRun) (a : ThreadStep ι) :
    RateRun :=
  let r := s.timer.resolve interval a
  let h := handle interval s.metric r.2
  { timer := r.1
    metric := h.1
    reports := s.reports ++ h.2.toList
    notified := s.notified +
      match r.2 with
      | .flow e => if counts e then 1 else 0
      | _ => 0 }

/-- A step of the threads around `ReqRate`. -/
def reqStep (interval : UInt32) (s : RateRun) (a : ThreadStep ι) : RateRun :=
  step ReqRate.handle FlowNotice.isRequest interval s a

/-- A step of the threads around `ConnRate`. -/
def connStep (interval : UInt32) (s : RateRun) (a : ThreadStep ι) : RateRun :=
  step ConnRate.handle FlowNotice.isNewFlow interval s a

/-- The sum over the reports of average times interval. -/
def reported (interval : UInt32) (s : RateRun) : ℚ :=
  (s.reports.map fun r : Report => r.avg * (interval.toNat : ℚ)).sum

/-- Every notification so far is in a report, in `sum` or in `subtotal`. -/
def Conserved (interval : UInt32) (s : RateRun) : Prop :=
  s.reported interval + s.metric.sum.val + s.metric.subtotal.val = s.notified

instance (interval : UInt32) (s : RateRun) : Decidable (s.Conserved interval) := by
  unfold Conserved
  infer_instance

/-- What the next notification of the timer reads fits an `int` and is not next to the
largest double, and it does not reset a `subtotal` that still counts. -/
def Lossless (interval : UInt32) (s : RateRun) (a : ThreadStep ι) : Prop :=
  match (s.timer.resolve interval a).2 with
  | .flow _ => True
  | .timerExpired => s.metric.subtotal.val < 2 ^ 31
  | .intervalExpired =>
      s.metric.subtotal.val = 0 ∧ s.metric.sum.isClose doubleMax = false ∧
        (Value.mk (s.metric.sum.val / interval.toNat)).isClose doubleMax = false

instance (interval : UInt32) (s : RateRun) (a : ThreadStep ι) :
    Decidable (s.Lossless interval a) := by
  unfold Lossless
  split <;> infer_instance

end RateRun

/-! ## What one step keeps -/

namespace RateRun

variable {ι : Type*}

/-- The accumulators hold numbers of notifications, and none is lost. -/
structure Inv (interval : UInt32) (s : RateRun) : Prop where
  conserved : s.Conserved interval
  sum_nat : ∃ n : ℕ, s.metric.sum.val = n
  subtotal_nat : ∃ n : ℕ, s.metric.subtotal.val = n

theorem inv_start (interval : UInt32) : Inv interval start where
  conserved := by simp [Conserved, reported, start, MetricAvg.new, MetricAvg.reset]
  sum_nat := ⟨0, by simp [start, MetricAvg.new, MetricAvg.reset]⟩
  subtotal_nat := ⟨0, by simp [start, MetricAvg.new, MetricAvg.reset]⟩

@[simp] theorem reported_append (interval : UInt32) (s : RateRun) (timer : ProcessData)
    (m : MetricAvg) (r : Report) (n : ℕ) :
    reported interval ⟨timer, m, s.reports ++ [r], n⟩ =
      s.reported interval + r.avg * interval.toNat := by
  simp [reported]

/-- What `timerExpired` takes out of `subtotal` goes into `sum`, unless it does not fit an
`int`. -/
theorem conserved_timerExpired {interval : UInt32} {s : RateRun} (timer : ProcessData)
    (hs : s.Inv interval) :
    Conserved interval ⟨timer, ReqRate.onTimerExpired s.metric, s.reports, s.notified⟩ ↔
      s.metric.subtotal.val < 2 ^ 31 := by
  obtain ⟨k, hk⟩ := hs.subtotal_nat
  have hcons : s.reported interval + s.metric.sum.val + s.metric.subtotal.val = s.notified :=
    hs.conserved
  have hmoved : (ReqRate.onTimerExpired s.metric).sum.val =
      s.metric.sum.val + toInt s.metric.subtotal.get := rfl
  show s.reported interval + (ReqRate.onTimerExpired s.metric).sum.val + 0 = s.notified ↔ _
  rw [hmoved]
  rcases lt_or_ge k (2 ^ 31) with hfits | hlarge
  · have hfits' : s.metric.subtotal.val < 2 ^ 31 := by
      rw [hk]
      exact_mod_cast hfits
    have hget : s.metric.subtotal.get = k := (Value.get_of_le (by linarith)).trans hk
    rw [hget, toInt_natCast hfits, Int.cast_natCast, ← hk]
    refine iff_of_true ?_ hfits'
    linarith
  · have hlarge' : 2 ^ 31 ≤ s.metric.subtotal.val := by
      rw [hk]
      exact_mod_cast hlarge
    -- the processor answers the least `int`, `get` 0 for a value next to the largest double
    have hle : toInt s.metric.subtotal.get ≤ 0 := by
      cases hclose : s.metric.subtotal.isClose doubleMax with
      | false =>
          rw [Value.get_of_not_close hclose, hk, toInt_natCast_of_le hlarge]
          norm_num
      | true => rw [Value.get_of_close hclose, toInt_zero]
    have hle' : (toInt s.metric.subtotal.get : ℚ) ≤ 0 := by exact_mod_cast hle
    refine iff_of_false ?_ (not_lt.mpr hlarge')
    intro hafter
    linarith

/-- The average reported is `sum` over the interval where `get` reads both; where
it does not, the report is 0 although `sum` is positive. -/
theorem report_avg (interval : UInt32) (m : MetricAvg) (hinterval : 1 ≤ interval) :
    (m.sum.isClose doubleMax = false ∧
        (Value.mk (m.sum.val / interval.toNat)).isClose doubleMax = false ∧
        (m.report (ReqRate.getAvg interval m)).avg * interval.toNat = m.sum.val) ∨
      (¬ (m.sum.isClose doubleMax = false ∧
          (Value.mk (m.sum.val / interval.toNat)).isClose doubleMax = false) ∧
        (m.report (ReqRate.getAvg interval m)).avg = 0 ∧ 0 < m.sum.val) := by
  have hone : 1 ≤ interval.toNat := UInt32.le_iff_toNat_le.mp hinterval
  have hpos : (0 : ℚ) < interval.toNat := by exact_mod_cast hone
  have hnot : ¬ interval ≤ 0 := by
    rw [UInt32.le_iff_toNat_le]
    exact Nat.not_le.mpr hone
  have havg : (m.report (ReqRate.getAvg interval m)).avg =
      (Value.mk (m.sum.get / interval.toNat)).get := by
    simp [MetricAvg.report, ReqRate.getAvg, hnot, Value.set]
  cases hsum : m.sum.isClose doubleMax with
  | true =>
      have hlarge : 2 ^ 128 < m.sum.val := Value.lt_val_of_close hsum
      refine .inr ⟨by simp, ?_, by linarith⟩
      rw [havg, Value.get_of_close hsum, zero_div]
      exact Value.get_of_le (by norm_num)
  | false =>
      rw [havg, Value.get_of_not_close hsum]
      cases hquot : (Value.mk (m.sum.val / interval.toNat)).isClose doubleMax with
      | true =>
          have hlarge : 2 ^ 128 < m.sum.val / interval.toNat := Value.lt_val_of_close hquot
          have hquotPos : 0 < m.sum.val / interval.toNat := by linarith
          refine .inr ⟨by simp, Value.get_of_close hquot, ?_⟩
          exact (div_pos_iff_of_pos_right hpos).mp hquotPos
      | false =>
          refine .inl ⟨rfl, rfl, ?_⟩
          rw [Value.get_of_not_close hquot]
          exact div_mul_cancel₀ _ hpos.ne'

/-- `intervalExpired` reports `sum` and resets both accumulators: nothing is lost
exactly when `subtotal` is empty and `get` reads what is reported. -/
theorem conserved_intervalExpired {interval : UInt32} {s : RateRun} (timer : ProcessData)
    (hinterval : 1 ≤ interval) (hs : s.Inv interval) :
    Conserved interval ⟨timer, s.metric.reset,
        s.reports ++ [s.metric.report (ReqRate.getAvg interval s.metric)], s.notified⟩ ↔
      s.metric.subtotal.val = 0 ∧ s.metric.sum.isClose doubleMax = false ∧
        (Value.mk (s.metric.sum.val / interval.toNat)).isClose doubleMax = false := by
  obtain ⟨k, hk⟩ := hs.subtotal_nat
  have hnonneg : 0 ≤ s.metric.subtotal.val := by
    rw [hk]
    exact Nat.cast_nonneg k
  have hcons : s.reported interval + s.metric.sum.val + s.metric.subtotal.val = s.notified :=
    hs.conserved
  unfold Conserved
  rw [reported_append]
  show s.reported interval + (s.metric.report (ReqRate.getAvg interval s.metric)).avg *
    interval.toNat + 0 + 0 = s.notified ↔ _
  rcases report_avg interval s.metric hinterval with ⟨hsum, hquot, havg⟩ | ⟨hread, havg, hpos⟩
  · rw [havg]
    simp only [hsum, hquot, and_self, and_true]
    constructor
    · intro hafter
      linarith
    · intro hempty
      linarith
  · rw [havg, zero_mul]
    constructor
    · intro hafter
      linarith
    · rintro ⟨-, hsum, hquot⟩
      exact absurd ⟨hsum, hquot⟩ hread

/-- One step of the threads keeps the count exactly when it is lossless. -/
theorem conserved_step_iff {counts : FlowNotice ι → Bool} {interval : UInt32} {s : RateRun}
    (a : ThreadStep ι) (hinterval : 1 ≤ interval) (hs : s.Inv interval) :
    (step (countHandle counts) counts interval s a).Conserved interval ↔
      s.Lossless interval a := by
  have hcons : s.reported interval + s.metric.sum.val + s.metric.subtotal.val = s.notified :=
    hs.conserved
  unfold Lossless step
  cases hr : s.timer.resolve interval a with
  | mk timer e =>
      cases e with
      | flow e =>
          simp only [countHandle, Option.toList_none, List.append_nil, iff_true]
          cases counts e with
          | false => exact hcons
          | true =>
              show s.reported interval + s.metric.sum.val + (s.metric.subtotal.val + 1) =
                ((s.notified + 1 : ℕ) : ℚ)
              push_cast
              linarith
      | timerExpired =>
          simpa [countHandle] using conserved_timerExpired timer hs
      | intervalExpired =>
          simpa [countHandle] using conserved_intervalExpired timer hinterval hs

/-- After a conserving step the accumulators go on holding numbers of notifications. -/
theorem inv_step {counts : FlowNotice ι → Bool} {interval : UInt32} {s : RateRun}
    (a : ThreadStep ι) (hinterval : 1 ≤ interval) (hs : s.Inv interval)
    (hafter : (step (countHandle counts) counts interval s a).Conserved interval) :
    (step (countHandle counts) counts interval s a).Inv interval := by
  have hloss := (conserved_step_iff a hinterval hs).mp hafter
  obtain ⟨n, hn⟩ := hs.sum_nat
  obtain ⟨k, hk⟩ := hs.subtotal_nat
  refine { conserved := hafter, sum_nat := ?_, subtotal_nat := ?_ }
  · unfold Lossless at hloss
    show ∃ n' : ℕ, (countHandle counts interval s.metric
      (s.timer.resolve interval a).2).1.sum.val = n'
    cases he : (s.timer.resolve interval a).2 with
    | flow e =>
        simp only [countHandle]
        split
        · exact ⟨n, hn⟩
        · exact ⟨n, hn⟩
    | timerExpired =>
        simp only [he] at hloss
        have hfits : k < 2 ^ 31 := by
          rw [hk] at hloss
          exact_mod_cast hloss
        have hget : s.metric.subtotal.get = k := (Value.get_of_le (by linarith)).trans hk
        refine ⟨n + k, ?_⟩
        simp [countHandle, ReqRate.onTimerExpired, hget, hn, toInt_natCast hfits]
    | intervalExpired => exact ⟨0, by simp [countHandle, MetricAvg.reset]⟩
  · show ∃ k' : ℕ, (countHandle counts interval s.metric
      (s.timer.resolve interval a).2).1.subtotal.val = k'
    cases (s.timer.resolve interval a).2 with
    | flow e =>
        simp only [countHandle]
        split
        · exact ⟨k + 1, by simp [ReqRate.onRequestReceived, hk]⟩
        · exact ⟨k, hk⟩
    | timerExpired => exact ⟨0, by simp [countHandle, ReqRate.onTimerExpired]⟩
    | intervalExpired => exact ⟨0, by simp [countHandle, MetricAvg.reset]⟩

/-- Losslessness of every step is exact for every run. -/
theorem conserve_iff (counts : FlowNotice ι → Bool) {interval : UInt32}
    (hinterval : 1 ≤ interval) (steps : List (ThreadStep ι)) :
    EveryState (total (step (countHandle counts) counts interval)) (Conserved interval)
        start steps ↔
      EveryStep (total (step (countHandle counts) counts interval)) (Lossless interval)
        start steps := by
  refine everyState_iff_everyStep (fun (s : RateRun) (hs : s.Inv interval) => hs.conserved)
    ?_ ?_ ?_ (inv_start interval)
  · intro s a s' hs hstep
    obtain rfl := Option.some.inj hstep
    exact conserved_step_iff a hinterval hs
  · intro s a s' hs hstep hafter
    obtain rfl := Option.some.inj hstep
    exact inv_step a hinterval hs hafter
  · intro s a _ hstep
    simp at hstep

end RateRun

/-! ## Conservation -/

/-- **No notification is lost, exactly when every step is lossless.**  For every
interleaving of the flow threads with the timer and every interval, each
`requestReceived` so far is in a report, in `sum` or in `subtotal` in every state
of the run if and only if, whenever `processData` is about to notify
`intervalExpired`, `subtotal` is zero (no request fell between the
`timerExpired` and the `intervalExpired` of one callback), and no accumulator
has grown to the largest double or, at a `timerExpired`, beyond an `int`.  The
same for `ConnRate` and `newFlowReceived`. -/
theorem rates_conserve_iff {ι : Type*} (interval : UInt32) (hinterval : 1 ≤ interval)
    (steps : List (ThreadStep ι)) :
    (EveryState (total (RateRun.reqStep interval)) (RateRun.Conserved interval) .start steps ↔
      EveryStep (total (RateRun.reqStep interval)) (RateRun.Lossless interval) .start steps) ∧
    (EveryState (total (RateRun.connStep interval)) (RateRun.Conserved interval) .start steps ↔
      EveryStep (total (RateRun.connStep interval)) (RateRun.Lossless interval) .start steps) := by
  have hreq : RateRun.reqStep (ι := ι) interval =
      RateRun.step (countHandle FlowNotice.isRequest) FlowNotice.isRequest interval := by
    funext s a
    simp only [RateRun.reqStep, RateRun.step, ReqRate.handle_eq]
  have hconn : RateRun.connStep (ι := ι) interval =
      RateRun.step (countHandle FlowNotice.isNewFlow) FlowNotice.isNewFlow interval := by
    funext s a
    simp only [RateRun.connStep, RateRun.step, ConnRate.handle_eq]
  rw [hreq, hconn]
  exact ⟨RateRun.conserve_iff FlowNotice.isRequest hinterval steps,
    RateRun.conserve_iff FlowNotice.isNewFlow hinterval steps⟩

/-- Two seconds of requests, reported every two seconds: the theorem at an
interval of 2. -/
theorem rates_conserve_two_seconds :
    (1 : UInt32) ≤ 2 ∧
      EveryState (total (RateRun.reqStep (ι := ℕ) 2)) (RateRun.Conserved 2) .start
        [.flowThread .requestReceived, .processData, .flowThread .requestReceived,
          .processData, .processData, .flowThread .requestReceived] := by
  refine ⟨by decide, (rates_conserve_iff 2 (by decide) _).1.mpr ?_⟩
  decide +kernel

/-- A request between the `timerExpired` and the `intervalExpired` of one callback
is counted nowhere. -/
theorem rate_loses_request :
    ¬ ∀ (steps : List (ThreadStep ℕ)) (s : RateRun),
      run (total (RateRun.reqStep 1)) .start steps = some s → s.Conserved 1 := by
  intro hall
  have hlost := hall [.processData, .flowThread .requestReceived, .processData] _ rfl
  revert hlost
  decide +kernel

end MonitoringTool.Sniffer
