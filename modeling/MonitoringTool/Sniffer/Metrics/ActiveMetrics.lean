import MonitoringTool.Frontend.Form

/-!
# `Protocol::activeMetrics`

The message `Init` carries one bit for each metric of a protocol.  `activeMetrics` goes down the
vector of metrics, erases those whose bit is not set and subscribes the others to the events of
the protocol.  Since it goes down, the metrics it has yet to look at are still where the
constructor of the protocol put them: `activeFrom_eq` is the invariant of the loop.

`active_metrics_follow_mask` says what is left and what is subscribed, also for the mask that the
form sends.
-/

namespace MonitoringTool.Sniffer

/-! ## Metrics and events -/

/-- The events of an `EventManager`. -/
inductive EventName where
  | newFlowReceived
  | flowUpdate
  | requestReceived
  | responseReceived
  | timerExpired
  | intervalExpired
  | analysisEnded
  deriving DecidableEq

/-- The classes derived from `Metric`. -/
inductive MetricClass where
  | rst
  | reqRate
  | errRate
  | tp
  | tpRev
  | connRate
  | client
  | reqPath
  | reqMethod
  | reqType
  | rspStatus
  deriving DecidableEq

/-- The first text that the class's constructor passes on. -/
def MetricClass.name : MetricClass → String
  | .rst => "rst"
  | .reqRate => "req_rate"
  | .errRate => "err_rate"
  | .tp => "tp"
  | .tpRev => "tp_rev"
  | .connRate => "conn_rate"
  | .client => "clients"
  | .reqPath => "req_path"
  | .reqMethod => "req_method"
  | .reqType => "req_type"
  | .rspStatus => "rsp_status"

/-- The events that the class's `subscribe` adds the metric to, in that order. -/
def MetricClass.events : MetricClass → List EventName
  | .rst => [.responseReceived, .intervalExpired]
  | .reqRate => [.requestReceived, .timerExpired, .intervalExpired]
  | .errRate => [.responseReceived, .timerExpired, .intervalExpired]
  | .tp => [.flowUpdate, .timerExpired, .intervalExpired]
  | .tpRev => [.flowUpdate, .timerExpired, .intervalExpired]
  | .connRate => [.newFlowReceived, .timerExpired, .intervalExpired]
  | .client => [.requestReceived, .intervalExpired]
  | .reqPath => [.requestReceived, .intervalExpired]
  | .reqMethod => [.requestReceived, .intervalExpired]
  | .reqType => [.requestReceived, .intervalExpired]
  | .rspStatus => [.responseReceived, .intervalExpired]

/-- A `Metric*`: the address of the object and its class. -/
structure Metric where
  addr : ℕ
  cls : MetricClass
  deriving DecidableEq

/-- `EventManager`: the observers of each event. -/
abbrev EventManager := EventName → List Metric

/-- `Event::add`. -/
def EventManager.add (em : EventManager) (m : Metric) (e : EventName) : EventManager :=
  Function.update em e (em e ++ [m])

/-- `subscribe`. -/
def Metric.subscribe (m : Metric) (em : EventManager) : EventManager :=
  m.cls.events.foldl (fun em e => em.add m e) em

/-! ## The loop -/

/-- `activeMetrics & (1<<i)`. -/
def isActive (mask : Int32) (i : ℕ) : Bool := mask &&& (1 <<< Int32.ofNat i) ≠ 0

/-- The body of the loop at `i`; `none` stands for an index out of the vector. -/
def activeBody (mask : Int32) (i : ℕ) (metrics : List Metric) (em : EventManager) :
    Option (List Metric × EventManager) :=
  metrics[i]?.map fun m =>
    if isActive mask i then (metrics, m.subscribe em) else (metrics.eraseIdx i, em)

/-- The loop, for the indices below `n`, from the last one down. -/
def activeFrom (mask : Int32) : ℕ → List Metric → EventManager →
    Option (List Metric × EventManager)
  | 0, metrics, em => some (metrics, em)
  | i + 1, metrics, em =>
      (activeBody mask i metrics em).bind fun r => activeFrom mask i r.1 r.2

/-- `Protocol::activeMetrics`: the vector and the observers. -/
def Protocol.activeMetrics (mask : Int32) (metrics : List Metric) (em : EventManager) :
    Option (List Metric × EventManager) :=
  if metrics.isEmpty then some (metrics, em) else activeFrom mask metrics.length metrics em

/-! ## What is left -/

/-- The elements of a list whose index satisfies `p`, in order. -/
def selectIdx {α : Type} (p : ℕ → Bool) (l : List α) : List α :=
  (l.zipIdx.filter fun x => p x.2).map (·.1)

/-- Bit `i` of an `int`. -/
def bit (mask : Int32) (i : ℕ) : Bool := mask.toBitVec.getLsbD i

theorem one_shiftLeft {i : ℕ} (hi : i < 32) :
    (1 <<< Int32.ofNat i : Int32).toBitVec = BitVec.twoPow 32 i := by
  have hall : ∀ i < 32, (1 <<< Int32.ofNat i : Int32).toBitVec = BitVec.twoPow 32 i := by decide
  exact hall i hi

/-- The test of the loop is the bit. -/
theorem isActive_eq (mask : Int32) {i : ℕ} (hi : i < 32) : isActive mask i = bit mask i := by
  have hand : (mask &&& (1 <<< Int32.ofNat i)).toBitVec =
      if mask.toBitVec.getLsbD i then BitVec.twoPow 32 i else 0#32 := by
    rw [Int32.toBitVec_and, one_shiftLeft hi, BitVec.and_twoPow]
  have hpow : BitVec.twoPow 32 i ≠ 0#32 := by
    intro h
    have hbit := congrArg (·.getLsbD i) h
    simp [hi] at hbit
  have hzero : mask &&& (1 <<< Int32.ofNat i) = 0 ↔ mask.toBitVec.getLsbD i = false := by
    rw [← Int32.toBitVec_inj, hand]
    cases mask.toBitVec.getLsbD i with
    | false => simp
    | true => simpa using hpow
  unfold isActive bit
  cases hbit : mask.toBitVec.getLsbD i <;> simp [hzero, hbit]

theorem selectIdx_concat {α : Type} (p : ℕ → Bool) (l : List α) (x : α) :
    selectIdx p (l ++ [x]) = selectIdx p l ++ if p l.length then [x] else [] := by
  unfold selectIdx
  rw [List.zipIdx_append, List.filter_append, List.map_append]
  cases hp : p l.length <;> simp [hp]

/-- The observers of an event after some metrics have been subscribed, the last one first. -/
theorem subscribe_apply (m : Metric) (em : EventManager) (e : EventName) :
    m.subscribe em e = em e ++ if e ∈ m.cls.events then [m] else [] := by
  have hfold : ∀ (es : List EventName) (em : EventManager), es.Nodup →
      es.foldl (fun em e => em.add m e) em e = em e ++ if e ∈ es then [m] else [] := by
    intro es
    induction es with
    | nil => simp
    | cons d es ih =>
        intro em hnodup
        have hd : d ∉ es := (List.nodup_cons.mp hnodup).1
        rw [List.foldl_cons, ih _ (List.nodup_cons.mp hnodup).2]
        by_cases hde : e = d
        · subst hde
          simp [EventManager.add, hd]
        · simp [EventManager.add, hde]
  have hnodup : m.cls.events.Nodup := by
    cases m.cls <;> decide
  exact hfold m.cls.events em hnodup

/-- **The loop.**  With the indices below `before.length` to go, what is behind them in the
vector stays, and what is before them is as it was at the start. -/
theorem activeFrom_eq {mask : Int32} (before kept : List Metric) (em : EventManager)
    (hlen : before.length ≤ 32) :
    activeFrom mask before.length (before ++ kept) em =
      some (selectIdx (bit mask) before ++ kept,
        (selectIdx (bit mask) before).reverse.foldl (fun em m => m.subscribe em) em) := by
  induction before using List.reverseRecOn generalizing kept em with
  | nil => rfl
  | append_singleton before m ih =>
      have hlt : before.length < 32 := by
        simp only [List.length_append, List.length_singleton] at hlen
        omega
      have hvec : before ++ [m] ++ kept = before ++ m :: kept := by simp
      have hget : (before ++ m :: kept)[before.length]? = some m := by simp
      have herase : (before ++ m :: kept).eraseIdx before.length = before ++ kept := by
        rw [List.eraseIdx_append_of_length_le le_rfl]
        simp
      rw [List.length_append, List.length_singleton, activeFrom, activeBody, hvec, hget,
        isActive_eq mask hlt, selectIdx_concat]
      cases bit mask before.length with
      | false => simpa [herase] using ih kept em (by omega)
      | true => simpa using ih (m :: kept) (m.subscribe em) (by omega)

theorem activeMetrics_eq (mask : Int32) (metrics : List Metric) (em : EventManager)
    (hlen : metrics.length ≤ 32) :
    Protocol.activeMetrics mask metrics em =
      some (selectIdx (bit mask) metrics,
        (selectIdx (bit mask) metrics).reverse.foldl (fun em m => m.subscribe em) em) := by
  unfold Protocol.activeMetrics
  cases metrics with
  | nil => rfl
  | cons m rest =>
      have hloop := @activeFrom_eq mask (m :: rest) [] em hlen
      simpa using hloop

/-- The observers of an event after some metrics have been subscribed. -/
theorem foldl_subscribe_apply (ms : List Metric) (em : EventManager) (e : EventName) :
    (ms.foldl (fun em m => m.subscribe em) em) e = em e ++ ms.filter (e ∈ ·.cls.events) := by
  induction ms generalizing em with
  | nil => simp
  | cons m ms ih =>
      rw [List.foldl_cons, ih, subscribe_apply]
      by_cases he : e ∈ m.cls.events <;> simp [he]

/-! ## The mask of the form -/

theorem bit_or (x y : Int32) (i : ℕ) : bit (x ||| y) i = (bit x i || bit y i) := by
  unfold bit
  rw [Int32.toBitVec_or, BitVec.getLsbD_or]

theorem bit_one_shiftLeft {k : ℕ} (hk : k < 32) (i : ℕ) :
    bit (1 <<< Int32.ofNat k) i = decide (k = i) := by
  unfold bit
  rw [one_shiftLeft hk, BitVec.getLsbD_twoPow]
  simp [hk]

/-- The form's step for one metric. -/
def addBit (mask : Int32) (x : Bool × ℕ) : Int32 :=
  if x.1 then mask ||| (1 <<< Int32.ofNat x.2) else mask

theorem bit_foldl_addBit (l : List Bool) (i k : ℕ) (mask : Int32) (hk : k + l.length ≤ 32) :
    bit ((l.zipIdx k).foldl addBit mask) i =
      (bit mask i || (decide (k ≤ i) && l[i - k]?.getD false)) := by
  induction l generalizing k mask with
  | nil => simp
  | cons active l ih =>
      rw [List.length_cons] at hk
      have hlt : k < 32 := by omega
      have hmask : bit (addBit mask (active, k)) i =
          (bit mask i || (active && decide (k = i))) := by
        cases active <;> simp [addBit, bit_or, bit_one_shiftLeft hlt]
      rw [List.zipIdx_cons, List.foldl_cons, ih (k + 1) _ (by omega), hmask]
      rcases Nat.lt_trichotomy i k with h | h | h
      · have h1 : ¬ k = i := by omega
        have h2 : ¬ k ≤ i := by omega
        have h3 : ¬ k + 1 ≤ i := by omega
        simp [h1, h2, h3]
      · subst h
        simp
      · obtain ⟨j, rfl⟩ : ∃ j, i = k + 1 + j := ⟨i - (k + 1), by omega⟩
        have h1 : ¬ k = k + 1 + j := by omega
        have h2 : k ≤ k + 1 + j := by omega
        have h3 : k + 1 + j - k = j + 1 := by omega
        simp [h1, h2, h3]

/-- Bit `i` is set for the metric at `i` and for no other. -/
theorem bit_activeMetrics {switches : List Bool} (hlen : switches.length ≤ 32) (i : ℕ) :
    bit (Frontend.activeMetrics switches) i = switches[i]?.getD false := by
  have hfold : Frontend.activeMetrics switches = (switches.zipIdx 0).foldl addBit 0 := rfl
  rw [hfold, bit_foldl_addBit switches i 0 0 (by omega)]
  simp [bit]

theorem selectIdx_cons {α : Type} (p : ℕ → Bool) (x : α) (l : List α) :
    selectIdx p (x :: l) = (if p 0 then [x] else []) ++ selectIdx (fun i => p (i + 1)) l := by
  unfold selectIdx
  rw [List.zipIdx_cons, Nat.zero_add, List.zipIdx_succ, List.filter_cons, List.filter_map,
    apply_ite (List.map Prod.fst)]
  cases p 0 <;> simp [Function.comp_def]

/-- The elements at the indices that are switched on. -/
theorem selectIdx_switches {α : Type} {p : ℕ → Bool} {l : List α} {switches : List Bool}
    (hlen : switches.length = l.length) (hp : ∀ i, p i = switches[i]?.getD false) :
    selectIdx p l = ((l.zip switches).filter (·.2)).map (·.1) := by
  induction l generalizing p switches with
  | nil => simp [selectIdx]
  | cons x l ih =>
      cases switches with
      | nil => simp at hlen
      | cons active switches =>
          have hzero : p 0 = active := by simpa using hp 0
          have hrest : ∀ i, p (i + 1) = switches[i]?.getD false := by
            intro i
            simpa using hp (i + 1)
          rw [selectIdx_cons, ih (by simpa using hlen) hrest, hzero]
          cases active <;> simp

/-- The mask behind the `uint32` field of the message, as the parameter of
`activeMetrics`. -/
def receivedMask (sent : Int32) : Int32 := sent.toUInt32.toInt32

@[simp] theorem receivedMask_eq (sent : Int32) : receivedMask sent = sent := rfl

/-- **Metric selection follows the mask.**  The vector keeps, in order, the metrics whose index
has its bit set; each of these is subscribed by one call, the others by none, so that every event
has as new observers the metrics kept that attach to it, once each; and for the mask of a form
with one switch for each metric they are the metrics that are switched on. -/
theorem active_metrics_follow_mask (mask : Int32) (metrics : List Metric) (em : EventManager)
    (hlen : metrics.length ≤ 31) :
    ∃ em', Protocol.activeMetrics mask metrics em = some (selectIdx (bit mask) metrics, em') ∧
      em' = (selectIdx (bit mask) metrics).reverse.foldl (fun em m => m.subscribe em) em ∧
      (∀ e, em' e = em e ++
        (selectIdx (bit mask) metrics).reverse.filter (e ∈ ·.cls.events)) ∧
      ∀ switches : List Bool, switches.length = metrics.length →
        mask = receivedMask (Frontend.activeMetrics switches) →
          selectIdx (bit mask) metrics = ((metrics.zip switches).filter (·.2)).map (·.1) := by
  refine ⟨_, activeMetrics_eq mask metrics em (by omega), rfl, ?_, ?_⟩
  · exact foldl_subscribe_apply _ em
  · intro switches hswitches hmask
    apply selectIdx_switches hswitches
    rw [hmask, receivedMask_eq]
    exact bit_activeMetrics (by omega)

/-- Three metrics, of which the mask 5 keeps the first and the third. -/
theorem active_metrics_follow_mask_five :
    [(⟨0, .rst⟩ : Metric), ⟨1, .tp⟩, ⟨2, .client⟩].length ≤ 31 ∧
      ∃ em', Protocol.activeMetrics 5 [⟨0, .rst⟩, ⟨1, .tp⟩, ⟨2, .client⟩] (fun _ => []) =
          some ([⟨0, .rst⟩, ⟨2, .client⟩], em') ∧
        em' .intervalExpired = [⟨2, .client⟩, ⟨0, .rst⟩] := by
  have hlen : [(⟨0, .rst⟩ : Metric), ⟨1, .tp⟩, ⟨2, .client⟩].length ≤ 31 := by decide
  obtain ⟨em', hres, -, hevents, -⟩ := active_metrics_follow_mask 5 _ (fun _ => []) hlen
  refine ⟨hlen, em', hres, ?_⟩
  rw [hevents]
  decide

/-! ## The metrics of the protocols -/

/-- The protocols that the sniffer knows. -/
inductive ProtocolName where
  | http
  | memcached
  | mysql

/-- What the constructors of `Http`, `MemCached` and `MySQL` put into `metrics`. -/
def ProtocolName.metrics : ProtocolName → List MetricClass
  | .http =>
      [.rst, .reqRate, .errRate, .tp, .tpRev, .connRate, .client, .reqPath, .reqMethod, .reqType,
        .rspStatus]
  | .memcached => [.rst, .errRate, .tp, .tpRev, .reqType, .rspStatus]
  | .mysql => [.rst, .reqRate, .tp, .tpRev, .reqType]

end MonitoringTool.Sniffer
