import MonitoringTool.Sniffer.Metrics.HashTable
import MonitoringTool.Sniffer.Protocols
import Mathlib.Algebra.Order.Ring.Rat
import Mathlib.Tactic.Linarith

/-!
# Cumulative distributions

Five metrics count keys over the whole run: `Client` the source addresses of the requests,
`ReqPath` and `ReqMethod` two parts of their URIs, `ReqType` their methods, `RspStatus` the
status of the responses.  At an interval each of them puts the keys with more than one
hundredth of the events into a `cf_list`, which is sent, printed and emptied.

The list has 100 places and drops what finds it full.  `distributions_complete` says that
this never happens: the tables hold every key once, the counts add up to no more than the
events, so fewer than 100 keys have more than a hundredth of them.

Doubles are rationals here.  Names of methods and of statuses are the string literals that
they come from; `Literal` is the type of these, in the order of their addresses.
-/

namespace MonitoringTool.Sniffer

open Lib

/-! ## The list of frequencies -/

def CFL_SIZE : ℕ := 100

def MIN_FREQ : ℚ := 1 / CFL_SIZE

/-- `cf_item`. -/
structure CfItem where
  name : List UInt8
  cFreq : ℚ
  deriving DecidableEq

/-- `cf_list`, with the items that are in use. -/
structure CfList where
  list : List CfItem
  size : ℕ
  deriving DecidableEq

def CfList.count (cfl : CfList) : ℕ := cfl.list.length

/-- `cfl_init`. -/
def cflInit : CfList := { list := [], size := CFL_SIZE }

/-- `cfl_add`. -/
def cflAdd (name : List UInt8) (cFreq : ℚ) (cfl : CfList) : CfList :=
  if cfl.count ≥ cfl.size then cfl
  else { cfl with list := cfl.list ++ [{ name := name, cFreq := cFreq }] }

/-- `cfl_delete`. -/
def cflDelete (cfl : CfList) : CfList := { cfl with list := [] }

namespace MetricCumDistr

/-- `cflAdd` of the metrics with a hash table, and the same lines in the `onIntervalExpired`
of the others. -/
def cflAdd (total : Int32) (name : List UInt8) (cnt : Int32) (cfl : CfList) : CfList :=
  if total ≤ 0 then cfl
  else
    let freq : ℚ := cnt.toInt / total.toInt
    if freq > MIN_FREQ then Sniffer.cflAdd name freq cfl else cfl

/-- `cflAdd` for every entry of a table. -/
def cflAddAll {κ : Type*} (total : Int32) (name : κ → List UInt8) (entries : List (κ × Int32))
    (cfl : CfList) : CfList :=
  entries.foldl (fun cfl e => cflAdd total (name e.1) e.2 cfl) cfl

end MetricCumDistr

/-! ## Metrics with a hash table -/

/-- `Client`, `ReqPath` and `ReqMethod`. -/
structure HashDistr (α : Type*) [HashableValue α] where
  reqTotal : Int32
  ht : Hash α
  cfl : CfList

namespace HashDistr

variable {α : Type*} [HashableValue α]

/-- The constructors. -/
def new : HashDistr α := { reqTotal := 0, ht := .new, cfl := cflInit }

/-- `MetricCumDistr::cflUpdate`: over the buckets, over the nodes of each. -/
def cflUpdate (name : α → List UInt8) (m : HashDistr α) : CfList :=
  m.ht.buckets.foldl (fun cfl bucket =>
    bucket.foldl (fun cfl n => MetricCumDistr.cflAdd m.reqTotal (name n.value) n.cnt cfl) cfl) m.cfl

/-- `onRequestReceived`, on the key of the request. -/
def onRequestReceived [DecidableEq α] (key : Option α) (m : HashDistr α) : HashDistr α :=
  { m with
    reqTotal := m.reqTotal + 1
    ht := match key with
      | none => m.ht
      | some value => (m.ht.add value).1 }

/-- `onIntervalExpired`: the list that is sent, and the metric after it. -/
def onIntervalExpired (name : α → List UInt8) (m : HashDistr α) : CfList × HashDistr α :=
  let cfl := m.cflUpdate name
  (cfl, { m with cfl := cflDelete cfl })

end HashDistr

/-! ## Metrics with a map -/

/-- `ReqType` and `RspStatus`. -/
structure MapDistr (κ : Type*) [LinearOrder κ] where
  total : Int32
  map : StdMap κ
  cfl : CfList

namespace MapDistr

variable {κ : Type*} [LinearOrder κ]

/-- The constructors. -/
def new : MapDistr κ := { total := 0, map := .new, cfl := cflInit }

/-- `onRequestReceived` and `onResponseReceived`, on the name. -/
def onReceived (name : Option κ) (m : MapDistr κ) : MapDistr κ :=
  { m with
    total := m.total + 1
    map := match name with
      | none => m.map
      | some name => m.map.increment name }

/-- `onIntervalExpired`: the list that is sent, if there is one, and the metric after it. -/
def onIntervalExpired (text : κ → List UInt8) (m : MapDistr κ) : Option CfList × MapDistr κ :=
  if m.total ≤ 0 then (none, m)
  else
    let cfl := MetricCumDistr.cflAddAll m.total text m.map.entries m.cfl
    (some cfl, { m with cfl := cflDelete cfl })

end MapDistr

/-! ## Requests and responses -/

/-- `RequestMethod`. -/
structure RequestMethod (Literal : Type*) where
  methodsName : List Literal
  methodCode : ℤ

/-- `RequestMethod::getMethodName`; `none` is `NULL`. -/
def RequestMethod.getMethodName {Literal : Type*} (req : RequestMethod Literal) (methodsCode : ℤ) :
    Option Literal :=
  if methodsCode < 0 ∨ methodsCode > (req.methodsName.length : ℤ) - 1 then none
  else req.methodsName[methodsCode.toNat]?

/-- `ResponseStatus`. -/
structure ResponseStatus (Literal : Type*) where
  status : List (ℤ × Literal)
  statusCode : ℤ

/-- `ResponseStatus::getStatusName`. -/
def ResponseStatus.getStatusName {Literal : Type*} (rsp : ResponseStatus Literal)
    (statusCode : ℤ) : Option Literal :=
  rsp.status.lookup statusCode

/-- What the metrics read of a request and of its flow. -/
structure ReceivedRequest (Literal : Type*) where
  saddr : UInt32
  uri : Option CString
  method : RequestMethod Literal

/-- `str.substr(0, n)`. -/
def CString.substr (s : CString) (n : ℕ) : CString where
  chars := s.chars.take n
  noNul := fun h => s.noNul (List.mem_of_mem_take h)

/-- `str.find(c)`, `none` for `npos`. -/
def CString.find (s : CString) (c : UInt8) : Option ℕ := s.chars.idxOf? c

/-- `str.find_last_of(c)`. -/
def CString.findLastOf (s : CString) (c : UInt8) : Option ℕ :=
  (s.chars.reverse.idxOf? c).map fun i => s.chars.length - 1 - i

/-- A decimal number below 256, as `%d` prints it. -/
def decimal (n : UInt32) : List UInt8 :=
  (Nat.toDigits 10 n.toNat).map fun c => UInt8.ofNat c.toNat

/-- `ip_ntos`. -/
def ipNtos (n : UInt32) : List UInt8 :=
  decimal ((n &&& 0xff000000) >>> 24) ++ chars "." ++ decimal ((n &&& 0x00ff0000) >>> 16) ++
    chars "." ++ decimal ((n &&& 0x0000ff00) >>> 8) ++ chars "." ++
    decimal ((n &&& 0x000000ff) >>> 0)

/-! ## The five metrics -/

section Metrics

variable {Literal : Type*} [LinearOrder Literal]

/-! ### Clients -/

abbrev Client := HashDistr Addr2

namespace Client

/-- The address that is counted. -/
def key (req : ReceivedRequest Literal) : Option Addr2 := some { value := req.saddr }

/-- `Client::onRequestReceived`. -/
def onRequestReceived (req : ReceivedRequest Literal) (m : Client) : Client :=
  HashDistr.onRequestReceived (key req) m

def name (a : Addr2) : List UInt8 := ipNtos a.value

/-- `Client::onIntervalExpired`. -/
def onIntervalExpired (m : Client) : CfList × Client := HashDistr.onIntervalExpired name m

end Client

/-! ### Paths -/

def SLASH : UInt8 := 47
def QUESTION : UInt8 := 63

def StringHash.name (s : StringHash) : List UInt8 := s.value.chars

abbrev ReqPath := HashDistr StringHash

namespace ReqPath

/-- `ReqPath::extractReqPath`: up to the last slash, or else up to the query. -/
def extractReqPath (uri : CString) : CString :=
  match uri.findLastOf SLASH with
  | none =>
      match uri.find QUESTION with
      | none => uri
      | some query => uri.substr query
  | some last => uri.substr (last + 1)

/-- The path that is counted. -/
def key (req : ReceivedRequest Literal) : Option StringHash :=
  req.uri.map fun uri => { value := extractReqPath uri }

/-- `ReqPath::onRequestReceived`. -/
def onRequestReceived (req : ReceivedRequest Literal) (m : ReqPath) : ReqPath :=
  HashDistr.onRequestReceived (key req) m

/-- `ReqPath::onIntervalExpired`. -/
def onIntervalExpired (m : ReqPath) : CfList × ReqPath :=
  HashDistr.onIntervalExpired StringHash.name m

end ReqPath

abbrev ReqMethod := HashDistr StringHash

namespace ReqMethod

/-- `ReqMethod::extractReqMethod`: up to the query. -/
def extractReqMethod : Option CString → Option CString
  | none => none
  | some uri =>
      match uri.find QUESTION with
      | none => some uri
      | some query => some (uri.substr query)

/-- The part of the URI that is counted. -/
def key (req : ReceivedRequest Literal) : Option StringHash :=
  (extractReqMethod req.uri).map fun reqPath => { value := reqPath }

/-- `ReqMethod::onRequestReceived`. -/
def onRequestReceived (req : ReceivedRequest Literal) (m : ReqMethod) : ReqMethod :=
  HashDistr.onRequestReceived (key req) m

/-- `ReqMethod::onIntervalExpired`. -/
def onIntervalExpired (m : ReqMethod) : CfList × ReqMethod :=
  HashDistr.onIntervalExpired StringHash.name m

end ReqMethod

/-! ### Names -/

abbrev ReqType (Literal : Type*) [LinearOrder Literal] := MapDistr Literal

namespace ReqType

/-- The name of the method. -/
def key (req : ReceivedRequest Literal) : Option Literal :=
  req.method.getMethodName req.method.methodCode

/-- `ReqType::onRequestReceived`. -/
def onRequestReceived (req : ReceivedRequest Literal) (m : ReqType Literal) : ReqType Literal :=
  MapDistr.onReceived (key req) m

/-- `ReqType::onIntervalExpired`. -/
def onIntervalExpired (text : Literal → List UInt8) (m : ReqType Literal) :
    Option CfList × ReqType Literal :=
  MapDistr.onIntervalExpired text m

end ReqType

abbrev RspStatus (Literal : Type*) [LinearOrder Literal] := MapDistr Literal

namespace RspStatus

/-- The name of the status. -/
def key (rsp : ResponseStatus Literal) : Option Literal := rsp.getStatusName rsp.statusCode

/-- `RspStatus::onResponseReceived`. -/
def onResponseReceived (rsp : ResponseStatus Literal) (m : RspStatus Literal) :
    RspStatus Literal :=
  MapDistr.onReceived (key rsp) m

/-- `RspStatus::onIntervalExpired`. -/
def onIntervalExpired (text : Literal → List UInt8) (m : RspStatus Literal) :
    Option CfList × RspStatus Literal :=
  MapDistr.onIntervalExpired text m

end RspStatus

end Metrics

/-! ## Runs -/

/-- A notification that a distribution hears. -/
inductive DistrNotice (Literal : Type*) where
  | requestReceived (req : ReceivedRequest Literal) : DistrNotice Literal
  | responseReceived (rsp : ResponseStatus Literal) : DistrNotice Literal
  | intervalExpired : DistrNotice Literal

namespace DistrNotice

variable {Literal : Type*}

/-- The requests of a run. -/
def requests (notices : List (DistrNotice Literal)) : List (ReceivedRequest Literal) :=
  notices.filterMap fun
    | .requestReceived req => some req
    | _ => none

/-- The responses of a run. -/
def responses (notices : List (DistrNotice Literal)) : List (ResponseStatus Literal) :=
  notices.filterMap fun
    | .responseReceived rsp => some rsp
    | _ => none

end DistrNotice

/-- The distributions of a protocol. -/
structure Distributions (Literal : Type*) [LinearOrder Literal] where
  client : Client
  reqPath : ReqPath
  reqMethod : ReqMethod
  reqType : ReqType Literal
  rspStatus : RspStatus Literal

namespace Distributions

variable {Literal : Type*} [LinearOrder Literal]

/-- The distributions when the analysis starts. -/
def new : Distributions Literal :=
  { client := .new, reqPath := .new, reqMethod := .new, reqType := .new, rspStatus := .new }

/-- A notification to all that subscribe to it.  `text` is what stands at a literal's
address. -/
def hear (text : Literal → List UInt8) (d : Distributions Literal) :
    DistrNotice Literal → Distributions Literal
  | .requestReceived req =>
      { d with
        client := d.client.onRequestReceived req
        reqPath := d.reqPath.onRequestReceived req
        reqMethod := d.reqMethod.onRequestReceived req
        reqType := d.reqType.onRequestReceived req }
  | .responseReceived rsp => { d with rspStatus := d.rspStatus.onResponseReceived rsp }
  | .intervalExpired =>
      { client := d.client.onIntervalExpired.2
        reqPath := d.reqPath.onIntervalExpired.2
        reqMethod := d.reqMethod.onIntervalExpired.2
        reqType := (d.reqType.onIntervalExpired text).2
        rspStatus := (d.rspStatus.onIntervalExpired text).2 }

/-- The distributions after a run. -/
def after (text : Literal → List UInt8) (notices : List (DistrNotice Literal)) :
    Distributions Literal :=
  notices.foldl (hear text) new

end Distributions

/-! ## What a list holds -/

section Built

variable {κ : Type*} [DecidableEq κ]

/-- The key makes up more than `MIN_FREQ` of the events. -/
def Frequent (events : List (Option κ)) (k : κ) : Prop :=
  MIN_FREQ * events.length < events.count (some k)

/-- The entry of a key. -/
def itemOf (name : κ → List UInt8) (events : List (Option κ)) (k : κ) : CfItem :=
  { name := name k, cFreq := (events.count (some k) : ℚ) / events.length }

/-- A list that holds one entry for every frequent key and no other.  It is not full, so
that `cfl_add`, which never takes an entry out, dropped none. -/
structure Complete (name : κ → List UInt8) (events : List (Option κ)) (cfl : CfList) : Prop where
  entries : ∃ keys : List κ, keys.Nodup ∧ (∀ k, k ∈ keys ↔ Frequent events k) ∧
    cfl.list = keys.map (itemOf name events)
  room : cfl.count < cfl.size
  sum_le_one : (cfl.list.map CfItem.cFreq).sum ≤ 1

theorem minFreq_mul_lt_iff (n total : ℕ) : MIN_FREQ * total < n ↔ total < CFL_SIZE * n := by
  have hcast : ((total : ℚ) < 100 * (n : ℚ)) ↔ total < 100 * n := by
    exact_mod_cast Iff.rfl
  unfold MIN_FREQ CFL_SIZE
  rw [← hcast]
  constructor
  · intro h
    push_cast at h
    linarith
  · intro h
    push_cast
    linarith

theorem frequent_iff (events : List (Option κ)) (k : κ) :
    Frequent events k ↔ events.length < CFL_SIZE * events.count (some k) :=
  minFreq_mul_lt_iff _ _

/-- Entries that the list has room for are all appended. -/
theorem foldl_cflAdd (items : List CfItem) (cfl : CfList)
    (hroom : cfl.count + items.length ≤ cfl.size) :
    items.foldl (fun cfl item => cflAdd item.name item.cFreq cfl) cfl =
      { cfl with list := cfl.list ++ items } := by
  induction items generalizing cfl with
  | nil => simp
  | cons item items ih =>
      have hlt : cfl.count < cfl.size := by
        simp only [List.length_cons] at hroom
        omega
      have hadd : cflAdd item.name item.cFreq cfl = { cfl with list := cfl.list ++ [item] } := by
        rw [cflAdd, if_neg (not_le.mpr hlt)]
      rw [List.foldl_cons, hadd, ih]
      · simp
      · simp only [CfList.count, List.length_append, List.length_cons, List.length_nil] at hroom ⊢
        omega

theorem toInt_ofNat {n : ℕ} (h : n < 2 ^ 31) : (Int32.ofNat n).toInt = n :=
  Int32.toInt_ofNat_of_lt h

/-- `cflAdd` on an entry of a table that keeps up with the events. -/
theorem cflAdd_ofNat {name : List UInt8} {n total : ℕ} (hpos : 0 < total) (htotal : total < 2 ^ 31)
    (hn : n ≤ total) (cfl : CfList) :
    MetricCumDistr.cflAdd (Int32.ofNat total) name (Int32.ofNat n) cfl =
      if total < CFL_SIZE * n then cflAdd name ((n : ℚ) / total) cfl else cfl := by
  have hgt : ¬ Int32.ofNat total ≤ 0 := by
    rw [Int32.le_iff_toInt_le, toInt_ofNat htotal]
    simpa using hpos.ne'
  have hpos' : (0 : ℚ) < total := by exact_mod_cast hpos
  have hfreq : ((n : ℚ) / total > MIN_FREQ) ↔ total < CFL_SIZE * n := by
    rw [gt_iff_lt, lt_div_iff₀ hpos']
    exact minFreq_mul_lt_iff n total
  unfold MetricCumDistr.cflAdd
  rw [if_neg hgt, toInt_ofNat htotal, toInt_ofNat (hn.trans_lt htotal)]
  simp only [Int.cast_natCast, hfreq]

/-- The loop over a table adds the items of the frequent keys. -/
theorem cflAddAll_ofNat (name : κ → List UInt8) {entries : List (κ × Int32)}
    {events : List (Option κ)} (hpos : 0 < events.length) (hlt : events.length < 2 ^ 31)
    (hcnt : ∀ e ∈ entries, e.2 = Int32.ofNat (events.count (some e.1))) (cfl : CfList) :
    MetricCumDistr.cflAddAll (Int32.ofNat events.length) name entries cfl =
      (((entries.map Prod.fst).filter fun k =>
        decide (events.length < CFL_SIZE * events.count (some k))).map (itemOf name events)).foldl
          (fun cfl item => cflAdd item.name item.cFreq cfl) cfl := by
  induction entries generalizing cfl with
  | nil => rfl
  | cons e entries ih =>
      have hrest := ih (fun e' he' => hcnt e' (by simp [he']))
      have hhead : MetricCumDistr.cflAdd (Int32.ofNat events.length) (name e.1) e.2 cfl =
          if events.length < CFL_SIZE * events.count (some e.1) then
            cflAdd (name e.1) ((events.count (some e.1) : ℚ) / events.length) cfl
          else cfl := by
        rw [hcnt e (by simp)]
        exact cflAdd_ofNat hpos hlt List.count_le_length cfl
      unfold MetricCumDistr.cflAddAll at hrest ⊢
      rw [List.foldl_cons, hhead, hrest, List.map_cons, List.filter_cons]
      by_cases hfreq : events.length < CFL_SIZE * events.count (some e.1)
      · simp only [hfreq, if_true, decide_true, List.map_cons, List.foldl_cons, itemOf]
      · simp only [hfreq, if_false, decide_false, Bool.false_eq_true]

/-- The lists that are built of a table that keeps up with the events are complete. -/
theorem cflAddAll_complete (name : κ → List UInt8) {entries : List (κ × Int32)}
    {events : List (Option κ)} (ht : Tallies Int32.ofNat entries events)
    (hlt : events.length < 2 ^ 31) :
    Complete name events
      (MetricCumDistr.cflAddAll (Int32.ofNat events.length) name entries cflInit) := by
  -- the keys in the order of the table
  let keys := (entries.map Prod.fst).filter fun k =>
    decide (events.length < CFL_SIZE * events.count (some k))
  have hnodup : keys.Nodup := ht.nodup.filter _
  have hmem : ∀ k, k ∈ keys ↔ Frequent events k := by
    intro k
    rw [List.mem_filter, ht.mem_keys_iff, decide_eq_true_eq, frequent_iff]
    constructor
    · exact fun h => h.2
    · intro h
      refine ⟨Nat.pos_of_ne_zero fun hzero => ?_, h⟩
      simp [hzero] at h
  have hroom : keys.length < CFL_SIZE := by
    apply length_frequent_lt hnodup (by decide)
    intro k hk
    exact (frequent_iff events k).mp ((hmem k).mp hk)
  have hbuilt : MetricCumDistr.cflAddAll (Int32.ofNat events.length) name entries cflInit =
      { cflInit with list := keys.map (itemOf name events) } := by
    have hcnt : ∀ e ∈ entries, e.2 = Int32.ofNat (events.count (some e.1)) :=
      fun e he => ((ht.mem_iff e.1 e.2).mp he).2
    have hfits : cflInit.count + (keys.map (itemOf name events)).length ≤ cflInit.size := by
      rw [List.length_map]
      exact (Nat.zero_add keys.length).trans_le hroom.le
    cases hevents : events with
    | nil =>
        have hempty : entries = [] := by
          apply List.eq_nil_iff_forall_not_mem.mpr
          intro e he
          have hcount := ((ht.mem_iff e.1 e.2).mp he).1
          simp [hevents] at hcount
        have hkeys : keys = [] := by simp [keys, hempty]
        rw [hempty, hkeys]
        rfl
    | cons e rest =>
        rw [← hevents]
        have hpos : 0 < events.length := by simp [hevents]
        exact (cflAddAll_ofNat name hpos hlt hcnt cflInit).trans (foldl_cflAdd _ _ hfits)
  rw [hbuilt]
  exact
    { entries := ⟨keys, hnodup, hmem, rfl⟩
      room := by
        show (keys.map (itemOf name events)).length < CFL_SIZE
        rwa [List.length_map]
      sum_le_one := by
        show ((keys.map (itemOf name events)).map CfItem.cFreq).sum ≤ 1
        rw [List.map_map]
        exact sum_share_le_one hnodup events }

end Built

/-! ## What a notification keeps -/

@[simp] theorem cflAdd_size (name : List UInt8) (cFreq : ℚ) (cfl : CfList) :
    (cflAdd name cFreq cfl).size = cfl.size := by
  unfold cflAdd
  split <;> rfl

theorem cflAddAll_size {κ : Type*} (total : Int32) (name : κ → List UInt8)
    (entries : List (κ × Int32)) (cfl : CfList) :
    (MetricCumDistr.cflAddAll total name entries cfl).size = cfl.size := by
  unfold MetricCumDistr.cflAddAll
  induction entries generalizing cfl with
  | nil => rfl
  | cons e entries ih =>
      rw [List.foldl_cons, ih]
      unfold MetricCumDistr.cflAdd
      split
      · rfl
      · dsimp only
        split
        · exact cflAdd_size _ _ _
        · rfl

/-- The next report finds the list empty again. -/
theorem cflDelete_cflAddAll {κ : Type*} (total : Int32) (name : κ → List UInt8)
    (entries : List (κ × Int32)) :
    cflDelete (MetricCumDistr.cflAddAll total name entries cflInit) = cflInit := by
  unfold cflDelete
  rw [cflAddAll_size]
  rfl

/-- A metric with a table keeps up with the events: the table counts their keys, the total
counts them all, and the list is empty. -/
structure KeepsUp {κ : Type*} [DecidableEq κ] (events : List (Option κ))
    (entries : List (κ × Int32)) (total : Int32) (cfl : CfList) : Prop where
  tallies : Tallies Int32.ofNat entries events
  total_eq : total = Int32.ofNat events.length
  empty : cfl = cflInit

namespace HashDistr

variable {α : Type*} [HashableValue α] [DecidableEq α] {events : List (Option α)}
  {m : HashDistr α}

omit [DecidableEq α] in
/-- The nested loops of `cflUpdate` go over the entries of the table. -/
theorem cflUpdate_eq (name : α → List UInt8) (m : HashDistr α) :
    m.cflUpdate name = MetricCumDistr.cflAddAll m.reqTotal name m.ht.entries m.cfl := by
  unfold cflUpdate MetricCumDistr.cflAddAll Hash.entries Hash.nodes
  rw [List.foldl_map, List.foldl_flatten]

/-- The metric keeps up with the events. -/
def Inv (events : List (Option α)) (m : HashDistr α) : Prop :=
  KeepsUp events m.ht.entries m.reqTotal m.cfl

theorem inv_new : Inv [] (new : HashDistr α) where
  tallies := by
    simp only [new, Hash.entries, Hash.nodes_new, List.map_nil]
    exact .nil
  total_eq := rfl
  empty := rfl

theorem Inv.received (hs : Inv events m) (key : Option α) :
    Inv (events ++ [key]) (m.onRequestReceived key) where
  tallies := by
    cases key with
    | none => exact hs.tallies.without_key
    | some value => exact Hash.tallies_add hs.tallies value
  total_eq := by
    show m.reqTotal + 1 = _
    rw [hs.total_eq, List.length_append, List.length_singleton, ofNat_succ]
  empty := hs.empty

theorem Inv.intervalExpired (hs : Inv events m) (name : α → List UInt8) :
    Inv events (m.onIntervalExpired name).2 where
  tallies := hs.tallies
  total_eq := hs.total_eq
  empty := by
    show cflDelete (m.cflUpdate name) = cflInit
    rw [cflUpdate_eq, hs.empty]
    exact cflDelete_cflAddAll _ _ _

theorem Inv.complete (hs : Inv events m) (name : α → List UInt8) (hlt : events.length < 2 ^ 31) :
    Complete name events (m.onIntervalExpired name).1 := by
  show Complete name events (m.cflUpdate name)
  rw [cflUpdate_eq, hs.empty, hs.total_eq]
  exact cflAddAll_complete name hs.tallies hlt

end HashDistr

namespace MapDistr

variable {κ : Type*} [LinearOrder κ] {events : List (Option κ)} {m : MapDistr κ}

/-- The metric keeps up with the events. -/
def Inv (events : List (Option κ)) (m : MapDistr κ) : Prop :=
  KeepsUp events m.map.entries m.total m.cfl

theorem inv_new : Inv [] (new : MapDistr κ) where
  tallies := .nil
  total_eq := rfl
  empty := rfl

theorem Inv.received (hs : Inv events m) (name : Option κ) :
    Inv (events ++ [name]) (m.onReceived name) where
  tallies := by
    cases name with
    | none => exact hs.tallies.without_key
    | some name => exact StdMap.tallies_increment hs.tallies name
  total_eq := by
    show m.total + 1 = _
    rw [hs.total_eq, List.length_append, List.length_singleton, ofNat_succ]
  empty := hs.empty

theorem Inv.intervalExpired (hs : Inv events m) (text : κ → List UInt8) :
    Inv events (m.onIntervalExpired text).2 := by
  unfold onIntervalExpired
  split
  · exact hs
  · exact
      { tallies := hs.tallies
        total_eq := hs.total_eq
        empty := by
          show cflDelete (MetricCumDistr.cflAddAll _ _ _ m.cfl) = cflInit
          rw [hs.empty]
          exact cflDelete_cflAddAll _ _ _ }

/-- A list is built as soon as there was an event. -/
theorem Inv.complete (hs : Inv events m) (text : κ → List UInt8) (hlt : events.length < 2 ^ 31) :
    if events = [] then (m.onIntervalExpired text).1 = none
    else ∃ cfl, (m.onIntervalExpired text).1 = some cfl ∧ Complete text events cfl := by
  have htotal : m.total ≤ 0 ↔ events = [] := by
    rw [hs.total_eq, Int32.le_iff_toInt_le, toInt_ofNat hlt, ← List.length_eq_zero_iff]
    exact Int.natCast_nonpos_iff
  unfold onIntervalExpired
  split_ifs with hempty htotal' htotal'
  · rfl
  · exact absurd (htotal.mpr hempty) htotal'
  · exact absurd (htotal.mp htotal') hempty
  · refine ⟨_, rfl, ?_⟩
    rw [hs.empty, hs.total_eq]
    exact cflAddAll_complete text hs.tallies hlt

end MapDistr

/-! ## Completeness -/

namespace Distributions

variable {Literal : Type*} [LinearOrder Literal]

/-- Every distribution keeps up with the notices. -/
structure Inv (notices : List (DistrNotice Literal)) (d : Distributions Literal) : Prop where
  client : d.client.Inv ((DistrNotice.requests notices).map Client.key)
  reqPath : d.reqPath.Inv ((DistrNotice.requests notices).map ReqPath.key)
  reqMethod : d.reqMethod.Inv ((DistrNotice.requests notices).map ReqMethod.key)
  reqType : d.reqType.Inv ((DistrNotice.requests notices).map ReqType.key)
  rspStatus : d.rspStatus.Inv ((DistrNotice.responses notices).map RspStatus.key)

theorem inv_new : Inv [] (new : Distributions Literal) where
  client := HashDistr.inv_new
  reqPath := HashDistr.inv_new
  reqMethod := HashDistr.inv_new
  reqType := MapDistr.inv_new
  rspStatus := MapDistr.inv_new

/-- One notification. -/
theorem Inv.hear {notices : List (DistrNotice Literal)} {d : Distributions Literal}
    (hs : d.Inv notices) (text : Literal → List UInt8) (n : DistrNotice Literal) :
    (d.hear text n).Inv (notices ++ [n]) := by
  cases n with
  | requestReceived req =>
      have hreq : DistrNotice.requests (notices ++ [.requestReceived req]) =
          DistrNotice.requests notices ++ [req] := by
        simp [DistrNotice.requests]
      have hrsp : DistrNotice.responses (notices ++ [.requestReceived req]) =
          DistrNotice.responses notices := by
        simp [DistrNotice.responses]
      constructor
      · rw [hreq, List.map_append]
        exact hs.client.received (Client.key req)
      · rw [hreq, List.map_append]
        exact hs.reqPath.received (ReqPath.key req)
      · rw [hreq, List.map_append]
        exact hs.reqMethod.received (ReqMethod.key req)
      · rw [hreq, List.map_append]
        exact hs.reqType.received (ReqType.key req)
      · rw [hrsp]
        exact hs.rspStatus
  | responseReceived rsp =>
      have hreq : DistrNotice.requests (notices ++ [.responseReceived rsp]) =
          DistrNotice.requests notices := by
        simp [DistrNotice.requests]
      have hrsp : DistrNotice.responses (notices ++ [.responseReceived rsp]) =
          DistrNotice.responses notices ++ [rsp] := by
        simp [DistrNotice.responses]
      constructor
      · exact hreq ▸ hs.client
      · exact hreq ▸ hs.reqPath
      · exact hreq ▸ hs.reqMethod
      · exact hreq ▸ hs.reqType
      · rw [hrsp, List.map_append]
        exact hs.rspStatus.received (RspStatus.key rsp)
  | intervalExpired =>
      have hreq : DistrNotice.requests (notices ++ [.intervalExpired]) =
          DistrNotice.requests notices := by
        simp [DistrNotice.requests]
      have hrsp : DistrNotice.responses (notices ++ [.intervalExpired]) =
          DistrNotice.responses notices := by
        simp [DistrNotice.responses]
      constructor
      · exact hreq ▸ hs.client.intervalExpired Client.name
      · exact hreq ▸ hs.reqPath.intervalExpired StringHash.name
      · exact hreq ▸ hs.reqMethod.intervalExpired StringHash.name
      · exact hreq ▸ hs.reqType.intervalExpired text
      · exact hrsp ▸ hs.rspStatus.intervalExpired text

/-- A whole run. -/
theorem inv_after (text : Literal → List UInt8) (notices : List (DistrNotice Literal)) :
    (after text notices).Inv notices := by
  induction notices using List.reverseRecOn with
  | nil => exact inv_new
  | append_singleton notices n ih =>
      unfold after at ih ⊢
      rw [List.foldl_append]
      exact ih.hear text n

end Distributions

/-- **The cumulative distributions are complete.**  After every run of fewer than 2^31
notifications the list that a distribution builds at an `intervalExpired` holds exactly one
entry, with the frequency so far, for every key that more than one hundredth of the requests
so far had, for `RspStatus` of the responses, and no other entry; no entry was dropped, and
the frequencies add up to at most 1.  `ReqType` and `RspStatus` build their list from the
first event on, and none before. -/
theorem distributions_complete {Literal : Type*} [LinearOrder Literal]
    (text : Literal → List UInt8) (notices : List (DistrNotice Literal))
    (hlt : notices.length < 2 ^ 31) :
    Complete Client.name ((DistrNotice.requests notices).map Client.key)
        (Distributions.after text notices).client.onIntervalExpired.1 ∧
      Complete StringHash.name ((DistrNotice.requests notices).map ReqPath.key)
        (Distributions.after text notices).reqPath.onIntervalExpired.1 ∧
      Complete StringHash.name ((DistrNotice.requests notices).map ReqMethod.key)
        (Distributions.after text notices).reqMethod.onIntervalExpired.1 ∧
      (if DistrNotice.requests notices = [] then
          ((Distributions.after text notices).reqType.onIntervalExpired text).1 = none
        else ∃ cfl, ((Distributions.after text notices).reqType.onIntervalExpired text).1 =
            some cfl ∧
          Complete text ((DistrNotice.requests notices).map ReqType.key) cfl) ∧
      if DistrNotice.responses notices = [] then
        ((Distributions.after text notices).rspStatus.onIntervalExpired text).1 = none
      else ∃ cfl, ((Distributions.after text notices).rspStatus.onIntervalExpired text).1 =
          some cfl ∧
        Complete text ((DistrNotice.responses notices).map RspStatus.key) cfl := by
  have hs := Distributions.inv_after text notices
  have hreq : (DistrNotice.requests notices).length < 2 ^ 31 :=
    (List.length_filterMap_le _ _).trans_lt hlt
  have hrsp : (DistrNotice.responses notices).length < 2 ^ 31 :=
    (List.length_filterMap_le _ _).trans_lt hlt
  have htypes := hs.reqType.complete text (by rwa [List.length_map])
  have hstatuses := hs.rspStatus.complete text (by rwa [List.length_map])
  simp only [List.map_eq_nil_iff] at htypes hstatuses
  exact ⟨hs.client.complete _ (by rwa [List.length_map]),
    hs.reqPath.complete _ (by rwa [List.length_map]),
    hs.reqMethod.complete _ (by rwa [List.length_map]),
    htypes, hstatuses⟩

/-- One request, of `127.0.0.1`, with the second of two methods. -/
theorem distributions_complete_one_request :
    let notices : List (DistrNotice ℕ) := [.requestReceived
      { saddr := 0x7f000001, uri := none, method := { methodsName := [7, 9], methodCode := 1 } }]
    let text : ℕ → List UInt8 := fun i => [UInt8.ofNat i]
    Complete Client.name [some { value := 0x7f000001 }]
        (Distributions.after text notices).client.onIntervalExpired.1 ∧
      ∃ cfl, ((Distributions.after text notices).reqType.onIntervalExpired text).1 = some cfl ∧
        Complete text [some 9] cfl := by
  intro notices text
  obtain ⟨hclient, -, -, hreqType, -⟩ := distributions_complete text notices (by decide)
  rw [if_neg (by decide)] at hreqType
  exact ⟨hclient, hreqType⟩

end MonitoringTool.Sniffer
