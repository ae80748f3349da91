import MonitoringTool.Lib.Run
import MonitoringTool.Sniffer.Metrics.MetricAvg
import Mathlib.Algebra.BigOperators.Group.List.Basic
import Mathlib.Algebra.Order.Field.Basic

/-!
# Throughput

`Tp` and `TpRev` follow the payload counters of the flows.  A `flowUpdate` writes
the flow's counter into `total`; `timerExpired` compares `total` with what it was
a tick ago, and `intervalExpired` reports its growth since the last report.

`total` holds one number: each flow's counter overwrites the one before it, and
`reset` sets it to zero while `intervalRef` keeps the old value.  The bytes of all
flows are conserved in a run in which the value in `total` is, at each report and
at each tick that looks at it, the sum over all flows (`throughput_conserved`).
-/

namespace MonitoringTool.Sniffer

open Lib

/-! ## The metric -/

/-- `Tp` and `TpRev`: a `MetricAvg` with two reference values. -/
structure Throughput where
  base : MetricAvg
  timerRef : UInt32
  intervalRef : UInt32
  deriving DecidableEq

/-- What a metric does on a notification: its state after it, the difference it
feeds to `min` and `max`, and the report it sends. -/
structure Heard where
  metric : Throughput
  fed : Option UInt32
  report : Option Report
  deriving DecidableEq

namespace Throughput

/-- The constructor: `MetricAvg::reset` runs in the base constructor, where
`reset` is not yet the derived one. -/
def new : Throughput := { base := .new, timerRef := 0, intervalRef := 0 }

/-- `getAvg`. -/
def getAvg (interval : UInt32) (tp : Throughput) : ℚ :=
  if interval ≤ 0 then 0
  else (tp.base.total.get - tp.intervalRef.toNat) / interval.toNat

/-- `onFlowUpdate`, on the flow's counter. -/
def onFlowUpdate (payload : UInt32) (tp : Throughput) : Throughput :=
  { tp with base := { tp.base with total := tp.base.total.set payload.toNat } }

/-- `onTimerExpired`: the metric and the difference it feeds. -/
def onTimerExpired (tp : Throughput) : Throughput × Option UInt32 :=
  if tp.base.total.get > 0 then
    let newTimerRef := toUInt32 tp.base.total.get
    let subtotal := newTimerRef - tp.timerRef
    let base := { tp.base with min := tp.base.min.minimize subtotal.toNat }
    let base := { base with max := base.max.maximize subtotal.toNat }
    ({ tp with base := base, timerRef := newTimerRef }, some subtotal)
  else (tp, none)

/-- `reset`. -/
def reset (tp : Throughput) : Throughput :=
  { tp with intervalRef := toUInt32 tp.base.total.get, base := tp.base.reset }

/-- The metric's answer to an event; `payload` is the counter it reads of a flow. -/
def handle {ι : Type*} (payload : UInt32 → UInt32 → UInt32) (interval : UInt32)
    (tp : Throughput) : MetricEvent ι → Heard
  | .flow (.flowUpdate _ payloadSrc payloadDst) =>
      { metric := tp.onFlowUpdate (payload payloadSrc payloadDst), fed := none, report := none }
  | .flow _ => { metric := tp, fed := none, report := none }
  | .timerExpired =>
      { metric := tp.onTimerExpired.1, fed := tp.onTimerExpired.2, report := none }
  | .intervalExpired =>
      { metric := tp.reset, fed := none,
        report := some (tp.base.report (tp.getAvg interval)) }

end Throughput

/-- `Tp::onFlowUpdate` reads `flow->payload_src`. -/
def Tp.payload (payloadSrc _payloadDst : UInt32) : UInt32 := payloadSrc

/-- `TpRev::onFlowUpdate` reads `flow->payload_dst`. -/
def TpRev.payload (_payloadSrc payloadDst : UInt32) : UInt32 := payloadDst

/-! ## What was notified -/

/-- The notifications so far, independently of the metric. -/
structure Notified (ι : Type*) where
  /-- the last counter of each flow -/
  counters : List (ι × UInt32)
  /-- the last counter of any flow since the last report, 0 if there was none -/
  last : UInt32
  /-- `last` as the latest tick with a positive `last` found it -/
  read : UInt32
  /-- the sum over all flows at the latest tick -/
  ticked : ℕ
  /-- the sum over all flows at the latest report -/
  reported : ℕ
  deriving DecidableEq

namespace Notified

variable {ι : Type*} [DecidableEq ι]

/-- Nothing was notified yet. -/
def none : Notified ι := { counters := [], last := 0, read := 0, ticked := 0, reported := 0 }

/-- Write a flow's counter over its last one. -/
def write (flow : ι) (payload : UInt32) : List (ι × UInt32) → List (ι × UInt32)
  | [] => [(flow, payload)]
  | (f, p) :: rest =>
      if f = flow then (flow, payload) :: rest else (f, p) :: write flow payload rest

/-- The last counter of a flow. -/
def counter (flow : ι) : List (ι × UInt32) → UInt32
  | [] => 0
  | (f, p) :: rest => if f = flow then p else counter flow rest

/-- The sum over all flows of the last counter notified. -/
def sum (n : Notified ι) : ℕ := (n.counters.map fun c => c.2.toNat).sum

/-- Take note of an event; `none` if a flow's counter shrinks. -/
def note (payload : UInt32 → UInt32 → UInt32) (n : Notified ι) :
    MetricEvent ι → Option (Notified ι)
  | .flow (.flowUpdate flow payloadSrc payloadDst) =>
      let p := payload payloadSrc payloadDst
      if counter flow n.counters ≤ p then
        some { n with counters := write flow p n.counters, last := p }
      else Option.none
  | .flow _ => some n
  | .timerExpired =>
      some { n with read := if 0 < n.last then n.last else n.read, ticked := n.sum }
  | .intervalExpired => some { n with last := 0, reported := n.sum }

/-- Before a report, `last` is the sum over all flows.  Before a tick that finds a
positive `last`, that is so as well, and the tick it is compared with missed
nothing. -/
def Whole (n : Notified ι) : MetricEvent ι → Prop
  | .flow _ => True
  | .timerExpired => 0 < n.last → n.last.toNat = n.sum ∧ n.read.toNat = n.ticked
  | .intervalExpired => n.last.toNat = n.sum

instance (n : Notified ι) (e : MetricEvent ι) : Decidable (n.Whole e) := by
  unfold Whole
  split <;> infer_instance

end Notified

/-! ## Runs -/

/-- A throughput metric in a run: its state, its reports, the differences it fed
to `min` and `max` beside the true increases, and what was notified. -/
structure ThroughputRun (ι : Type*) where
  metric : Throughput
  reports : List Report
  feeds : List (UInt32 × ℤ)
  notified : Notified ι
  deriving DecidableEq

namespace ThroughputRun

variable {ι : Type*} [DecidableEq ι]

/-- A new metric. -/
def start : ThroughputRun ι :=
  { metric := .new, reports := [], feeds := [], notified := .none }

/-- One notification, to the metric that reads `payload`; `none` if a flow's
counter shrinks. -/
def step (payload : UInt32 → UInt32 → UInt32) (interval : UInt32) (s : ThroughputRun ι)
    (e : MetricEvent ι) : Option (ThroughputRun ι) :=
  (s.notified.note payload e).map fun notified =>
    let heard := Throughput.handle payload interval s.metric e
    { metric := heard.metric
      reports := s.reports ++ heard.report.toList
      feeds := s.feeds ++
        heard.fed.toList.map fun d => (d, (s.notified.sum : ℤ) - s.notified.ticked)
      notified := notified }

/-- The sum over the reports of average times interval. -/
def reported (interval : UInt32) (s : ThroughputRun ι) : ℚ :=
  (s.reports.map fun r : Report => r.avg * (interval.toNat : ℚ)).sum

/-- The reports add up to the sum over all flows before the last report, no
average is negative, and every difference fed is the true increase. -/
structure Conserved (interval : UInt32) (s : ThroughputRun ι) : Prop where
  reports_add_up : s.reported interval = s.notified.reported
  nonneg : ∀ r ∈ s.reports, 0 ≤ r.avg
  feeds_true : ∀ d ∈ s.feeds, (d.1.toNat : ℤ) = d.2

/-- What the metric holds, in terms of what was notified. -/
structure Inv (interval : UInt32) (s : ThroughputRun ι) : Prop where
  conserved : s.Conserved interval
  total_eq : s.metric.base.total.val = s.notified.last.toNat
  timerRef_eq : s.metric.timerRef = s.notified.read
  intervalRef_eq : s.metric.intervalRef.toNat = s.notified.reported
  reported_le : s.notified.reported ≤ s.notified.sum
  ticked_le : s.notified.ticked ≤ s.notified.sum

end ThroughputRun

/-! ## One step -/

namespace Notified

variable {ι : Type*} [DecidableEq ι]

/-- Counters that only grow only raise the sum. -/
theorem sum_le_sum_write (flow : ι) (p : UInt32) (l : List (ι × UInt32))
    (hgrow : counter flow l ≤ p) :
    (l.map fun c => c.2.toNat).sum ≤ ((write flow p l).map fun c => c.2.toNat).sum := by
  induction l with
  | nil => simp
  | cons c rest ih =>
      obtain ⟨f, q⟩ := c
      by_cases hf : f = flow
      · have hq : q.toNat ≤ p.toNat := by
          simpa [counter, hf, UInt32.le_iff_toNat_le] using hgrow
        simpa [write, hf] using hq
      · have hrest : counter flow rest ≤ p := by simpa [counter, hf] using hgrow
        simpa [write, hf] using ih hrest

end Notified

namespace ThroughputRun

variable {ι : Type*} {interval : UInt32} {s : ThroughputRun ι}

theorem inv_start (interval : UInt32) : (start : ThroughputRun ι).Inv interval where
  conserved :=
    { reports_add_up := by simp [reported, start, Notified.none]
      nonneg := by simp [start]
      feeds_true := by simp [start] }
  total_eq := by simp [start, Throughput.new, MetricAvg.new, MetricAvg.reset, Notified.none]
  timerRef_eq := rfl
  intervalRef_eq := rfl
  reported_le := Nat.zero_le _
  ticked_le := Nat.zero_le _

/-- `total` is read as it is. -/
theorem Inv.total_get (hs : s.Inv interval) :
    s.metric.base.total.get = s.notified.last.toNat := by
  have hlt : (s.notified.last.toNat : ℚ) < 2 ^ 32 := by
    exact_mod_cast s.notified.last.toNat_lt
  rw [Value.get_of_le, hs.total_eq]
  rw [hs.total_eq]
  linarith

/-- A tick with a positive `total` feeds its distance from `timerRef`. -/
theorem Inv.onTimerExpired_pos (hs : s.Inv interval) (hpos : 0 < s.notified.last) :
    ∃ base : MetricAvg, base.total = s.metric.base.total ∧
      s.metric.onTimerExpired =
        ({ s.metric with base := base, timerRef := s.notified.last },
          some (s.notified.last - s.notified.read)) := by
  have hposNat : 0 < s.notified.last.toNat := UInt32.lt_iff_toNat_lt.mp hpos
  have hpos' : s.metric.base.total.get > 0 := by
    rw [hs.total_get]
    exact_mod_cast hposNat
  have href : toUInt32 s.metric.base.total.get = s.notified.last := by
    rw [hs.total_get, toUInt32_natCast, UInt32.ofNat_toNat]
  unfold Throughput.onTimerExpired
  rw [if_pos hpos', href, hs.timerRef_eq]
  refine ⟨_, ?_, rfl⟩
  rfl

/-- A tick with `total` 0 does nothing. -/
theorem Inv.onTimerExpired_zero (hs : s.Inv interval) (hzero : ¬ 0 < s.notified.last) :
    s.metric.onTimerExpired = (s.metric, none) := by
  have hzeroNat : s.notified.last.toNat = 0 := by
    rw [UInt32.lt_iff_toNat_lt] at hzero
    exact Nat.eq_zero_of_not_pos hzero
  simp [Throughput.onTimerExpired, hs.total_get, hzeroNat]

/-- A tick that finds `total` whole feeds the true increase. -/
theorem Inv.timerExpired (hs : s.Inv interval) (hwhole : s.notified.Whole .timerExpired) :
    Inv interval
      { s with
        metric := s.metric.onTimerExpired.1
        feeds := s.feeds ++
          s.metric.onTimerExpired.2.toList.map fun d =>
            (d, (s.notified.sum : ℤ) - s.notified.ticked)
        notified :=
          { s.notified with
            read := if 0 < s.notified.last then s.notified.last else s.notified.read
            ticked := s.notified.sum } } := by
  by_cases hpos : 0 < s.notified.last
  · obtain ⟨base, htotal, htick⟩ := hs.onTimerExpired_pos hpos
    obtain ⟨hlast, hread⟩ := hwhole hpos
    have hticked := hs.ticked_le
    have hle : s.notified.read ≤ s.notified.last := by
      rw [UInt32.le_iff_toNat_le]
      omega
    have hdiff : ((s.notified.last - s.notified.read).toNat : ℤ) =
        (s.notified.sum : ℤ) - s.notified.ticked := by
      rw [UInt32.toNat_sub_of_le _ _ hle]
      omega
    rw [htick, if_pos hpos]
    exact
      { conserved :=
          { reports_add_up := hs.conserved.reports_add_up
            nonneg := hs.conserved.nonneg
            feeds_true := by
              intro d hd
              rcases List.mem_append.mp hd with hd | hd
              · exact hs.conserved.feeds_true d hd
              · obtain rfl : d = (s.notified.last - s.notified.read, _) := by simpa using hd
                exact hdiff }
        total_eq := (congrArg Value.val htotal).trans hs.total_eq
        timerRef_eq := rfl
        intervalRef_eq := hs.intervalRef_eq
        reported_le := hs.reported_le
        ticked_le := le_refl s.notified.sum }
  · rw [hs.onTimerExpired_zero hpos, if_neg hpos]
    simp only [Option.toList_none, List.map_nil, List.append_nil]
    exact
      { conserved := ⟨hs.conserved.reports_add_up, hs.conserved.nonneg, hs.conserved.feeds_true⟩
        total_eq := hs.total_eq
        timerRef_eq := hs.timerRef_eq
        intervalRef_eq := hs.intervalRef_eq
        reported_le := hs.reported_le
        ticked_le := le_refl s.notified.sum }

/-- A report that finds `total` whole reports the growth since the one before. -/
theorem Inv.report_avg (hs : s.Inv interval) (hinterval : 1 ≤ interval)
    (hwhole : s.notified.Whole (.intervalExpired : MetricEvent ι)) :
    (s.metric.base.report (s.metric.getAvg interval)).avg =
      ((s.notified.sum : ℚ) - s.notified.reported) / interval.toNat := by
  have hone : 1 ≤ interval.toNat := UInt32.le_iff_toNat_le.mp hinterval
  have hpos : (1 : ℚ) ≤ interval.toNat := by exact_mod_cast hone
  have hnot : ¬ interval ≤ 0 := by
    rw [UInt32.le_iff_toNat_le]
    exact Nat.not_le.mpr hone
  have hlast : s.notified.last.toNat = s.notified.sum := hwhole
  have havg : s.metric.getAvg interval =
      ((s.notified.sum : ℚ) - s.notified.reported) / interval.toNat := by
    rw [Throughput.getAvg, if_neg hnot, hs.total_get, hs.intervalRef_eq, hlast]
  have hlt : (s.notified.sum : ℚ) < 2 ^ 32 := by
    rw [← hlast]
    exact_mod_cast s.notified.last.toNat_lt
  have hreported : (0 : ℚ) ≤ s.notified.reported := Nat.cast_nonneg _
  have hsmall : ((s.notified.sum : ℚ) - s.notified.reported) / interval.toNat ≤ 2 ^ 128 := by
    rw [div_le_iff₀ (by linarith)]
    nlinarith
  rw [havg]
  exact Value.get_of_le hsmall

/-- The step of a report. -/
theorem Inv.intervalExpired (hs : s.Inv interval) (hinterval : 1 ≤ interval)
    (hwhole : s.notified.Whole (.intervalExpired : MetricEvent ι)) :
    Inv interval
      { s with
        metric := s.metric.reset
        reports := s.reports ++ [s.metric.base.report (s.metric.getAvg interval)]
        notified := { s.notified with last := 0, reported := s.notified.sum } } := by
  have hone : 1 ≤ interval.toNat := UInt32.le_iff_toNat_le.mp hinterval
  have hpos : (0 : ℚ) < interval.toNat := by exact_mod_cast hone
  have havg := hs.report_avg hinterval hwhole
  have hlast : s.notified.last.toNat = s.notified.sum := hwhole
  exact
    { conserved :=
        { reports_add_up := by
            have hbefore : (s.reports.map fun r : Report => r.avg * (interval.toNat : ℚ)).sum =
              s.notified.reported := hs.conserved.reports_add_up
            simp only [reported, List.map_append, List.sum_append, hbefore, List.map_cons,
              List.map_nil, List.sum_singleton, havg, div_mul_cancel₀ _ hpos.ne']
            show (s.notified.reported : ℚ) + (s.notified.sum - s.notified.reported) =
              s.notified.sum
            linarith
          nonneg := by
            intro r hr
            rcases List.mem_append.mp hr with hr | hr
            · exact hs.conserved.nonneg r hr
            · have hle : (s.notified.reported : ℚ) ≤ s.notified.sum := by
                exact_mod_cast hs.reported_le
              obtain rfl := List.mem_singleton.mp hr
              rw [havg]
              exact div_nonneg (by linarith) hpos.le
          feeds_true := hs.conserved.feeds_true }
      total_eq := by simp [Throughput.reset, MetricAvg.reset]
      timerRef_eq := hs.timerRef_eq
      intervalRef_eq := by
        show (toUInt32 s.metric.base.total.get).toNat = s.notified.sum
        rw [hs.total_get, toUInt32_natCast, UInt32.ofNat_toNat, hlast]
      reported_le := le_refl s.notified.sum
      ticked_le := hs.ticked_le }

variable [DecidableEq ι]

/-- A flow's counter goes into `total`. -/
theorem Inv.flowUpdate (hs : s.Inv interval) {flow : ι} {p : UInt32}
    (hgrow : Notified.counter flow s.notified.counters ≤ p) :
    Inv interval
      { s with
        metric := s.metric.onFlowUpdate p
        notified :=
          { s.notified with
            counters := Notified.write flow p s.notified.counters
            last := p } } := by
  have hsum : s.notified.sum ≤
      ((Notified.write flow p s.notified.counters).map fun c => c.2.toNat).sum :=
    Notified.sum_le_sum_write flow p s.notified.counters hgrow
  exact
    { conserved := ⟨hs.conserved.reports_add_up, hs.conserved.nonneg, hs.conserved.feeds_true⟩
      total_eq := rfl
      timerRef_eq := hs.timerRef_eq
      intervalRef_eq := hs.intervalRef_eq
      reported_le := hs.reported_le.trans hsum
      ticked_le := hs.ticked_le.trans hsum }

/-- Every notification that finds `total` whole keeps the invariant. -/
theorem Inv.step {payload : UInt32 → UInt32 → UInt32} {s' : ThroughputRun ι}
    {e : MetricEvent ι} (hs : s.Inv interval) (hinterval : 1 ≤ interval)
    (hwhole : s.notified.Whole e) (hstep : step payload interval s e = some s') :
    s'.Inv interval := by
  obtain ⟨notified, hnote, rfl⟩ := Option.map_eq_some_iff.mp hstep
  match e with
  | .flow (.flowUpdate flow payloadSrc payloadDst) =>
      simp only [Notified.note] at hnote
      split at hnote
      case isTrue hgrow =>
        obtain rfl := Option.some.inj hnote
        simpa [Throughput.handle] using hs.flowUpdate hgrow
      case isFalse => cases hnote
  | .flow .newFlowReceived | .flow .requestReceived | .flow (.responseReceived _) =>
      obtain rfl := Option.some.inj hnote
      simpa [Throughput.handle] using hs
  | .timerExpired =>
      obtain rfl := Option.some.inj hnote
      simpa [Throughput.handle] using hs.timerExpired hwhole
  | .intervalExpired =>
      obtain rfl := Option.some.inj hnote
      simpa [Throughput.handle] using hs.intervalExpired hinterval hwhole

end ThroughputRun

/-! ## Conservation -/

/-- **Bytes are conserved while `total` is whole.**  In every run of
notifications in which, before each `intervalExpired`, the last counter notified
since the previous report is the sum over all flows of their last counters, and
in which each `timerExpired` that finds a counter notified since then finds that
sum too and follows a tick that missed nothing: the reports add up, no average is
negative, and every difference fed to `min` and `max` is the true increase.  For
`Tp` and for `TpRev`. -/
theorem throughput_conserved {ι : Type*} [DecidableEq ι] (interval : UInt32)
    (hinterval : 1 ≤ interval) (es : List (MetricEvent ι)) :
    (EveryStep (ThroughputRun.step Tp.payload interval) (fun s e => s.notified.Whole e)
        .start es →
      EveryState (ThroughputRun.step Tp.payload interval) (ThroughputRun.Conserved interval)
        .start es) ∧
    (EveryStep (ThroughputRun.step TpRev.payload interval) (fun s e => s.notified.Whole e)
        .start es →
      EveryState (ThroughputRun.step TpRev.payload interval) (ThroughputRun.Conserved interval)
        .start es) := by
  have hkeep : ∀ payload : UInt32 → UInt32 → UInt32,
      EveryStep (ThroughputRun.step payload interval) (fun s e => s.notified.Whole e) .start es →
        EveryState (ThroughputRun.step payload interval) (ThroughputRun.Conserved interval)
          .start es := by
    intro payload hwhole before hbefore s hrun
    have hinv := everyState_of_everyStep
      (fun s e s' (hs : s.Inv interval) hw hstep => hs.step hinterval hw hstep)
      (ThroughputRun.inv_start interval) hwhole
    exact (hinv before hbefore s hrun).conserved
  exact ⟨hkeep Tp.payload, hkeep TpRev.payload⟩

/-- One flow that sends in every second of two reports of two seconds. -/
theorem throughput_conserved_one_flow :
    EveryState (ThroughputRun.step Tp.payload 2) (ThroughputRun.Conserved 2) .start
      [.flow (.flowUpdate 0 100 0), .timerExpired, .flow (.flowUpdate 0 150 0), .timerExpired,
        .intervalExpired, .flow (.flowUpdate 0 150 0), .timerExpired,
        .flow (.flowUpdate 0 400 0), .timerExpired, .intervalExpired] := by
  apply (throughput_conserved 2 (by decide) _).1
  decide +kernel

/-- Two flows of 100 and of 30 bytes: the second overwrites the first, and 30
bytes are reported. -/
theorem throughput_loses_flow :
    ¬ ∀ (es : List (MetricEvent ℕ)) (s : ThroughputRun ℕ),
      run (ThroughputRun.step Tp.payload 1) .start es = some s → s.Conserved 1 := by
  intro hall
  have hlost := (hall [.flow (.flowUpdate 0 100 0), .flow (.flowUpdate 1 30 0),
    .timerExpired, .intervalExpired] _ rfl).reports_add_up
  revert hlost
  decide +kernel

end MonitoringTool.Sniffer
