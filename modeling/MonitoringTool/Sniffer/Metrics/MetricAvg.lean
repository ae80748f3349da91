import Mathlib.Algebra.Order.Ring.Rat
import Mathlib.Tactic.Linarith
import Mathlib.Tactic.NormNum

/-!
# Averaged metrics

A `MetricAvg` keeps seven `Value`s and observes the events of its protocol.  The
threads that process flows notify flows, requests and responses; the timer's
`processData` notifies `timerExpired` every second and `intervalExpired` once the
interval has passed.  At the latter the metric reports its average, least and
greatest value and resets itself.

Doubles are rationals here: the arithmetic is exact.  `Value::get` answers 0 in
place of a value next to the largest double, which is where `min` starts.
-/

namespace MonitoringTool.Sniffer

/-! ## Values -/

/-- `std::numeric_limits<double>::max()`. -/
def doubleMax : ℚ := (2 ^ 53 - 1) * 2 ^ 971

/-- A double without its fraction. -/
def truncate (v : ℚ) : ℤ := v.num.tdiv v.den

/-- The conversion of a double to `int`.  What it gives for a number outside the range of
`int` is not defined; the processor answers the least `int`. -/
def toInt (v : ℚ) : ℤ :=
  if -2 ^ 31 ≤ truncate v ∧ truncate v < 2 ^ 31 then truncate v else -2 ^ 31

/-- The conversion of a double that is not negative to `u_int32_t`. -/
def toUInt32 (v : ℚ) : UInt32 := UInt32.ofNat (truncate v).toNat

@[simp] theorem truncate_natCast (n : ℕ) : truncate (n : ℚ) = n := by
  simp [truncate]

theorem toInt_natCast {n : ℕ} (h : n < 2 ^ 31) : toInt (n : ℚ) = n := by
  unfold toInt
  rw [truncate_natCast, if_pos]
  omega

theorem toInt_natCast_of_le {n : ℕ} (h : 2 ^ 31 ≤ n) : toInt (n : ℚ) = -2 ^ 31 := by
  unfold toInt
  rw [truncate_natCast, if_neg]
  omega

@[simp] theorem toInt_zero : toInt 0 = 0 := by
  have hzero := toInt_natCast (n := 0) (by decide)
  simpa using hzero

theorem toInt_bounds (v : ℚ) : -2 ^ 31 ≤ toInt v ∧ toInt v < 2 ^ 31 := by
  unfold toInt
  split
  · assumption
  · omega

@[simp] theorem toUInt32_natCast (n : ℕ) : toUInt32 (n : ℚ) = UInt32.ofNat n := by
  simp [toUInt32]

/-- `EPSILON`. -/
def EPSILON : ℚ := 1 / 10 ^ 7

/-- `Value`: a number of its own. -/
structure Value where
  val : ℚ
  deriving DecidableEq

namespace Value

/-- `Value::isClose`. -/
def isClose (value : Value) (v : ℚ) : Bool :=
  decide (|value.val - v| < EPSILON)

/-- `Value::get`. -/
def get (value : Value) : ℚ :=
  if value.isClose doubleMax then 0 else value.val

/-- `Value::set`. -/
def set (_ : Value) (v : ℚ) : Value := ⟨v⟩

/-- `Value::add`. -/
def add (value : Value) (v : ℚ) : Value := ⟨value.val + v⟩

/-- `Value::minimize`. -/
def minimize (value : Value) (v : ℚ) : Value := if v < value.val then ⟨v⟩ else value

/-- `Value::maximize`. -/
def maximize (value : Value) (v : ℚ) : Value := if v > value.val then ⟨v⟩ else value

theorem minimize_val (value : Value) (v : ℚ) : (value.minimize v).val = min value.val v := by
  unfold minimize
  rcases lt_or_ge v value.val with hlt | hge
  · rw [if_pos hlt, min_eq_right hlt.le]
  · rw [if_neg hge.not_gt, min_eq_left hge]

theorem maximize_val (value : Value) (v : ℚ) : (value.maximize v).val = max value.val v := by
  unfold maximize
  rcases lt_or_ge value.val v with hlt | hge
  · rw [if_pos hlt, max_eq_right hlt.le]
  · rw [if_neg hge.not_gt, max_eq_left hge]

@[simp] theorem set_val (value : Value) (v : ℚ) : (value.set v).val = v := rfl

@[simp] theorem add_val (value : Value) (v : ℚ) : (value.add v).val = value.val + v := rfl

/-- `get` answers the value unless the value is next to the largest double. -/
theorem get_of_not_close {value : Value} (h : value.isClose doubleMax = false) :
    value.get = value.val := by
  simp [get, h]

theorem get_of_close {value : Value} (h : value.isClose doubleMax = true) : value.get = 0 := by
  simp [get, h]

theorem le_doubleMax : 2 ^ 128 + EPSILON ≤ doubleMax := by
  have hpow : (2 : ℚ) ^ 128 ≤ 2 ^ 971 := pow_le_pow_right₀ (by norm_num) (by norm_num)
  calc 2 ^ 128 + EPSILON ≤ (2 ^ 53 - 1) * 2 ^ 128 := by norm_num [EPSILON]
    _ ≤ doubleMax := mul_le_mul_of_nonneg_left hpow (by norm_num)

/-- A value next to the largest double is large. -/
theorem lt_val_of_close {value : Value} (h : value.isClose doubleMax = true) :
    2 ^ 128 < value.val := by
  have hclose : |value.val - doubleMax| < EPSILON := by simpa [isClose] using h
  have hlow : -EPSILON < value.val - doubleMax := (abs_lt.mp hclose).1
  have hmax := le_doubleMax
  linarith

/-- A value far below the largest double is read as it is. -/
theorem get_of_le {value : Value} (h : value.val ≤ 2 ^ 128) : value.get = value.val := by
  apply get_of_not_close
  by_contra hclose
  have hlt : 2 ^ 128 < value.val := lt_val_of_close (by simpa using hclose)
  linarith

/-- The value that `min` starts with is read as 0. -/
theorem get_doubleMax {value : Value} (h : value.val = doubleMax) : value.get = 0 := by
  apply get_of_close
  simp [isClose, h, EPSILON]

end Value

/-! ## The metric -/

/-- The values of a `MetricAvg`. -/
structure MetricAvg where
  subtotal : Value
  total : Value
  sum : Value
  subsum : Value
  avg : Value
  min : Value
  max : Value
  deriving DecidableEq

/-- What `MetricAvg::sendMsg` packs and `MetricAvg::print` shows. -/
structure Report where
  avg : ℚ
  min : ℚ
  max : ℚ
  deriving DecidableEq

namespace MetricAvg

/-- `MetricAvg::reset`. -/
def reset (m : MetricAvg) : MetricAvg :=
  { subtotal := m.subtotal.set 0
    total := m.total.set 0
    sum := m.sum.set 0
    subsum := m.subsum.set 0
    avg := m.avg.set 0
    min := m.min.set doubleMax
    max := m.max.set 0 }

/-- The constructor: every `Value` starts at 0, then `MetricAvg::reset`. -/
def new : MetricAvg :=
  reset ⟨⟨0⟩, ⟨0⟩, ⟨0⟩, ⟨0⟩, ⟨0⟩, ⟨0⟩, ⟨0⟩⟩

/-- `MetricAvg::getAvg`. -/
def getAvg (m : MetricAvg) : ℚ :=
  if m.total.isClose 0 then 0 else m.sum.get / m.total.get

/-- The part of `MetricAvg::onIntervalExpired` before the reset:
`avg->set(getAvg())` and the message.  `getAvg` is virtual. -/
def report (m : MetricAvg) (getAvg : ℚ) : Report :=
  { avg := (m.avg.set getAvg).get
    min := m.min.get
    max := m.max.get }

/-- Values far below the largest double are reported as they are. -/
theorem report_of_le {m : MetricAvg} {getAvg : ℚ} (havg : getAvg ≤ 2 ^ 128)
    (hmin : m.min.val ≤ 2 ^ 128) (hmax : m.max.val ≤ 2 ^ 128) :
    m.report getAvg = { avg := getAvg, min := m.min.val, max := m.max.val } := by
  have hread : (m.avg.set getAvg).get = getAvg := Value.get_of_le havg
  rw [report, hread, Value.get_of_le hmin, Value.get_of_le hmax]

/-- A report with an average and a least value of 0. -/
theorem report_zero {m : MetricAvg} (hmin : m.min.get = 0) (hmax : m.max.val ≤ 2 ^ 128) :
    m.report 0 = { avg := 0, min := 0, max := m.max.val } := by
  have hread : (m.avg.set 0).get = 0 := Value.get_of_le (by simp)
  rw [report, hread, hmin, Value.get_of_le hmax]

end MetricAvg

/-! ## Events -/

/-- What the averaged metrics read of a pair when its response is received: when the
request and the response began, and whether the response has an error status. -/
structure ReceivedResponse where
  reqFbSec : Int64
  reqFbUsec : Int64
  rspFbSec : Int64
  rspFbUsec : Int64
  hasErrorStatus : Bool
  deriving DecidableEq

/-- A notification of the threads that process flows, with what the averaged
metrics read of the flow or the pair.  `ι` names the flows. -/
inductive FlowNotice (ι : Type*) where
  | newFlowReceived : FlowNotice ι
  | flowUpdate (flow : ι) (payloadSrc payloadDst : UInt32) : FlowNotice ι
  | requestReceived : FlowNotice ι
  | responseReceived (rsp : ReceivedResponse) : FlowNotice ι
  deriving DecidableEq

/-- A notification an `Observer` can get while the analysis runs. -/
inductive MetricEvent (ι : Type*) where
  | flow (e : FlowNotice ι) : MetricEvent ι
  | timerExpired : MetricEvent ι
  | intervalExpired : MetricEvent ι
  deriving DecidableEq

/-- Where the timer's callback `processData` stands: before its `timerExpired`,
or between it and the `intervalExpired` it owes. -/
inductive TimerPos where
  | atTimer : TimerPos
  | atInterval : TimerPos
  deriving DecidableEq

/-- The timer's callback, with `analysis->int_step`. -/
structure ProcessData where
  intStep : UInt32
  pos : TimerPos
  deriving DecidableEq

/-- The timer when the analysis starts. -/
def ProcessData.start : ProcessData := { intStep := 0, pos := .atTimer }

/-- The next notification of `processData`: `timerExpired` and, when `int_step`
has reached the interval, `intervalExpired` after it. -/
def ProcessData.next {ι : Type*} (interval : UInt32) (t : ProcessData) :
    ProcessData × MetricEvent ι :=
  match t.pos with
  | .atTimer =>
      let intStep := t.intStep + 1
      if intStep < interval then ({ intStep := intStep, pos := .atTimer }, .timerExpired)
      else ({ intStep := intStep, pos := .atInterval }, .timerExpired)
  | .atInterval => ({ intStep := 0, pos := .atTimer }, .intervalExpired)

/-- One atomic step: a flow thread notifies an event, or `processData` its next
one. -/
inductive ThreadStep (ι : Type*) where
  | flowThread (e : FlowNotice ι) : ThreadStep ι
  | processData : ThreadStep ι
  deriving DecidableEq

/-- The event a step notifies, and the timer after it. -/
def ProcessData.resolve {ι : Type*} (interval : UInt32) (t : ProcessData) :
    ThreadStep ι → ProcessData × MetricEvent ι
  | .flowThread e => (t, .flow e)
  | .processData => t.next interval

end MonitoringTool.Sniffer
