import MonitoringTool.Lib.Run
import MonitoringTool.Sniffer.PairChain
import Mathlib.Data.List.Nodup

/-!
# `Protocol::extractData`

`extractData` walks the pair chain of a flow, notifies each request and each
response once, and deletes pairs whose response it has notified before.  The
deletion is `flow->pair_f = pair->next`: it moves the front of the chain past
the deleted pair, so every pair before it leaves the chain as well, answered or
not.

`extractData_keeps_unanswered_iff` says when no unanswered pair is lost that
way.
-/

namespace MonitoringTool.Sniffer

open Lib

/-! ## The walk -/

/-- A call of one of the observers' `notify`, with the pair it is called on. -/
inductive Notification where
  | newFlowReceived : Notification
  | flowUpdate : Notification
  | requestReceived (pair : Pair) : Notification
  | responseReceived (pair : Pair) : Notification
  deriving DecidableEq

/-- The members of `Protocol` that select flows. -/
structure FlowFilter where
  hasClientIp : Bool
  clientIp : UInt32
  clientPorts : List UInt16
  hasServerIp : Bool
  serverIp : UInt32
  serverPorts : List UInt16

/-- The flow is not filtered out. -/
def FlowFilter.passes (flt : FlowFilter) (s : FlowS) : Bool :=
  !(flt.hasClientIp && flt.clientIp != s.saddr) &&
  !(!flt.clientPorts.isEmpty && !flt.clientPorts.contains s.sport) &&
  !(flt.hasServerIp && flt.serverIp != s.daddr) &&
  !(!flt.serverPorts.isEmpty && !flt.serverPorts.contains s.dport &&
    !flt.serverPorts.contains s.sport)

/-- `pair->request_header->processed = true`. -/
def Pair.markRequest (pair : Pair) : Pair :=
  { pair with requestHeader := pair.requestHeader.map ({ · with processed := true }) }

/-- `pair->response_header->processed = true`. -/
def Pair.markResponse (pair : Pair) : Pair :=
  { pair with responseHeader := pair.responseHeader.map ({ · with processed := true }) }

/-- The notification of a pair's request, once. -/
def Pair.requestNotes (pair : Pair) : List Notification :=
  match pair.requestHeader with
  | some req => if req.processed then [] else [.requestReceived pair.markRequest]
  | none => []

/-- The walk's body on one pair: the pair as it stays in the chain, `none` where
it is deleted, and the notifications. -/
def Pair.visit (pair : Pair) (hasNext : Bool) : Option Pair × List Notification :=
  if pair.requestHeader.isNone then (some pair, [])
  else
    let notes := pair.requestNotes
    let pair := pair.markRequest
    match pair.responseHeader with
    | none => (some pair, notes)
    | some rsp =>
        if rsp.processed then (if hasNext then none else some pair, notes)
        else (some pair.markResponse, notes ++ [.responseReceived pair.markResponse])

/-- The walk over the chain: `passed` are the pairs from `pair_f` up to the
current one.  Deleting a pair sets `pair_f` to the next one.  The result is the
chain from the last `pair_f` on. -/
def dataLoop (passed : List Pair) : List Pair → List Pair × List Notification
  | [] => (passed, [])
  | pair :: rest =>
      let v := pair.visit (!rest.isEmpty)
      let r :=
        match v.1 with
        | some pair => dataLoop (passed ++ [pair]) rest
        | none => dataLoop [] rest
      (r.1, v.2 ++ r.2)

/-- `Protocol::extractData`: the flow and the notifications, in order. -/
def extractData (flt : FlowFilter) (flow : Flow) : Flow × List Notification :=
  if flt.passes flow.socket then
    let newFlow := if flow.processed then [] else [Notification.newFlowReceived]
    let r := dataLoop [] flow.pairs
    ({ flow with processed := true, pairs := r.1 }, newFlow ++ .flowUpdate :: r.2)
  else (flow, [])

/-! ## What the walk keeps -/

/-- The walk notifies the pair's response. -/
def Pair.answersNow (pair : Pair) : Bool :=
  pair.requestHeader.isSome && pair.responseHeader.any (!·.processed)

/-- An earlier walk has notified the pair's response. -/
def Pair.answeredBefore (pair : Pair) : Bool :=
  pair.requestHeader.isSome && pair.responseHeader.any (·.processed)

/-- The pair as the walk leaves it. -/
def Pair.mark (pair : Pair) : Pair :=
  if pair.requestHeader.isNone then pair else pair.markRequest.markResponse

@[simp] theorem Pair.mark_addr (pair : Pair) : pair.mark.addr = pair.addr := by
  unfold Pair.mark
  split <;> rfl

@[simp] theorem Pair.mark_requestHeader_isSome (pair : Pair) :
    pair.mark.requestHeader.isSome = pair.requestHeader.isSome := by
  unfold Pair.mark
  split
  · rfl
  · simp [Pair.markRequest, Pair.markResponse]

@[simp] theorem Pair.mark_responseHeader_eq_none (pair : Pair) :
    pair.mark.responseHeader = none ↔ pair.responseHeader = none := by
  unfold Pair.mark
  split
  · rfl
  · simp [Pair.markRequest, Pair.markResponse]

/-- The address of the pair whose response a notification reports. -/
def Notification.answered : Notification → Option Nat
  | .responseReceived pair => some pair.addr
  | _ => none

/-- A pair without a response comes before one that is answered already and is
not the last. -/
def SkipsUnanswered (pairs : List Pair) : Prop :=
  ∃ before done next rest, pairs = before ++ done :: next :: rest ∧ done.answeredBefore = true ∧
    ∃ p ∈ before, p.responseHeader = none

theorem Pair.answered_requestNotes (pair : Pair) :
    pair.requestNotes.filterMap Notification.answered = [] := by
  unfold Pair.requestNotes
  split
  · split <;> rfl
  · rfl

/-- A response that is processed, or missing, is left as it is. -/
theorem Pair.mark_eq_markRequest {pair : Pair} (hreq : pair.requestHeader.isNone = false)
    (hrsp : pair.responseHeader.any (!·.processed) = false) : pair.mark = pair.markRequest := by
  unfold Pair.mark
  rw [hreq]
  cases h : pair.responseHeader with
  | none => simp [Pair.markRequest, Pair.markResponse, h]
  | some rsp =>
      obtain ⟨time, size, hdlen, processed⟩ := rsp
      obtain rfl : processed = true := by simpa [h] using hrsp
      simp [Pair.markRequest, Pair.markResponse, h]

/-- A pair stays, marked, unless it is answered already and not the last. -/
theorem Pair.visit_stays {pair : Pair} {hasNext : Bool}
    (h : pair.answeredBefore = true → hasNext = false) :
    (pair.visit hasNext).1 = some pair.mark ∧
      (pair.visit hasNext).2.filterMap Notification.answered =
        if pair.answersNow then [pair.addr] else [] := by
  have hreqNotes := pair.answered_requestNotes
  unfold Pair.visit
  cases hreq : pair.requestHeader with
  | none => simp [Pair.mark, Pair.answersNow, hreq]
  | some req =>
      have hisNone : pair.requestHeader.isNone = false := by simp [hreq]
      have hrspEq : pair.markRequest.responseHeader = pair.responseHeader := rfl
      cases hrsp : pair.responseHeader with
      | none =>
          have hmark := Pair.mark_eq_markRequest hisNone (by simp [hrsp])
          simp [hrspEq, hrsp, hmark, Pair.answersNow, hreqNotes]
      | some rsp =>
          cases hproc : rsp.processed with
          | true =>
              have hmark := Pair.mark_eq_markRequest hisNone (by simp [hrsp, hproc])
              have hlast : hasNext = false := h (by simp [Pair.answeredBefore, hreq, hrsp, hproc])
              simp [hrspEq, hrsp, hproc, hmark, hlast, Pair.answersNow, hreqNotes]
          | false =>
              have hmark : pair.mark = pair.markRequest.markResponse := by simp [Pair.mark, hreq]
              have haddr : Notification.answered (.responseReceived pair.markRequest.markResponse) =
                  some pair.addr := rfl
              simp [hrspEq, hrsp, hproc, hmark, Pair.answersNow, hreq, hreqNotes, haddr]

theorem Pair.visit_deletes {pair : Pair} (h : pair.answeredBefore = true) :
    (pair.visit true).1 = none ∧
      (pair.visit true).2.filterMap Notification.answered = [] ∧ pair.answersNow = false := by
  have hreqNotes := pair.answered_requestNotes
  have hrspEq : pair.markRequest.responseHeader = pair.responseHeader := rfl
  unfold Pair.answeredBefore at h
  unfold Pair.visit Pair.answersNow
  cases hreq : pair.requestHeader with
  | none => simp [hreq] at h
  | some req =>
      cases hrsp : pair.responseHeader with
      | none => simp [hrsp] at h
      | some rsp =>
          have hproc : rsp.processed = true := by simpa [hreq, hrsp] using h
          simp [hrspEq, hrsp, hproc, hreqNotes]

theorem dataLoop_stays {passed rest : List Pair} {pair : Pair}
    (h : pair.answeredBefore = true → rest = []) :
    (dataLoop passed (pair :: rest)).1 = (dataLoop (passed ++ [pair.mark]) rest).1 ∧
      (dataLoop passed (pair :: rest)).2.filterMap Notification.answered =
        (if pair.answersNow then [pair.addr] else []) ++
          (dataLoop (passed ++ [pair.mark]) rest).2.filterMap Notification.answered := by
  have hlast : pair.answeredBefore = true → (!rest.isEmpty) = false :=
    fun hdone => by simp [h hdone]
  obtain ⟨hvisit, hnotes⟩ := Pair.visit_stays hlast
  rw [dataLoop, hvisit]
  exact ⟨rfl, by rw [List.filterMap_append, hnotes]⟩

theorem dataLoop_deletes {passed rest : List Pair} {pair : Pair}
    (h : pair.answeredBefore = true) (hrest : rest ≠ []) :
    (dataLoop passed (pair :: rest)).1 = (dataLoop [] rest).1 ∧
      (dataLoop passed (pair :: rest)).2.filterMap Notification.answered =
        (dataLoop [] rest).2.filterMap Notification.answered := by
  have hnext : (!rest.isEmpty) = true := by simpa using hrest
  obtain ⟨hvisit, hnotes, -⟩ := Pair.visit_deletes h
  rw [dataLoop, hnext, hvisit]
  exact ⟨rfl, by rw [List.filterMap_append, hnotes, List.nil_append]⟩

theorem Pair.answered_of_before {pair : Pair} (h : pair.answeredBefore = true) :
    pair.responseHeader ≠ none := by
  intro hnone
  simp [Pair.answeredBefore, hnone] at h

/-- The same for a walk that has passed some pairs. -/
def SkipsFrom (passed pairs : List Pair) : Prop :=
  ∃ before done next rest, pairs = before ++ done :: next :: rest ∧ done.answeredBefore = true ∧
    ∃ p ∈ passed ++ before, p.responseHeader = none

/-- What was passed goes with a pair that is deleted. -/
theorem skipsFrom_deletes {passed rest : List Pair} {pair : Pair}
    (hdone : pair.answeredBefore = true) (hrest : rest ≠ []) :
    SkipsFrom passed (pair :: rest) ↔
      (∃ p ∈ passed, p.responseHeader = none) ∨ SkipsFrom [] rest := by
  constructor
  · rintro ⟨before, done, next, rest', heq, hd, p, hp, hnone⟩
    rcases List.mem_append.mp hp with hp | hp
    · exact .inl ⟨p, hp, hnone⟩
    · cases before with
      | nil => cases hp
      | cons b before =>
          obtain ⟨rfl, hrest'⟩ := List.cons_eq_cons.mp heq
          rcases List.mem_cons.mp hp with rfl | hp
          · exact absurd hnone (Pair.answered_of_before hdone)
          · exact .inr ⟨before, done, next, rest', hrest', hd, p, hp, hnone⟩
  · rintro (⟨p, hp, hnone⟩ | ⟨before, done, next, rest', rfl, hd, p, hp, hnone⟩)
    · obtain ⟨next, rest', rfl⟩ := List.exists_cons_of_ne_nil hrest
      exact ⟨[], pair, next, rest', rfl, hdone, p, List.mem_append_left _ hp, hnone⟩
    · exact ⟨pair :: before, done, next, rest', rfl, hd, p,
        List.mem_append_right _ (List.mem_cons_of_mem _ hp), hnone⟩

/-- A pair that stays has been passed. -/
theorem skipsFrom_stays {passed rest : List Pair} {pair : Pair}
    (hstay : pair.answeredBefore = true → rest = []) :
    SkipsFrom passed (pair :: rest) ↔ SkipsFrom (passed ++ [pair.mark]) rest := by
  have hpassed : ∀ before : List Pair, (∃ p ∈ passed ++ pair :: before, p.responseHeader = none) ↔
      ∃ p ∈ (passed ++ [pair.mark]) ++ before, p.responseHeader = none := by
    intro before
    simp only [List.mem_append, List.mem_cons, List.not_mem_nil, or_false, or_and_right, exists_or,
      exists_eq_left, Pair.mark_responseHeader_eq_none, or_assoc]
  constructor
  · rintro ⟨before, done, next, rest', heq, hd, hlost⟩
    cases before with
    | nil =>
        obtain ⟨rfl, rfl⟩ := List.cons_eq_cons.mp heq
        exact absurd (hstay hd) (List.cons_ne_nil _ _)
    | cons b before =>
        obtain ⟨rfl, rfl⟩ := List.cons_eq_cons.mp heq
        exact ⟨before, done, next, rest', rfl, hd, (hpassed before).mp hlost⟩
  · rintro ⟨before, done, next, rest', rfl, hd, hlost⟩
    exact ⟨pair :: before, done, next, rest', rfl, hd, (hpassed before).mpr hlost⟩

/-- **One walk.**  The chain loses a front part `dropped` of the marked pairs;
the responses notified are those not notified before; and an unanswered pair is
among the dropped ones exactly when one comes before a pair that is answered
already and is not the last. -/
theorem dataLoop_spec (passed pairs : List Pair) :
    ∃ dropped, passed ++ pairs.map Pair.mark = dropped ++ (dataLoop passed pairs).1 ∧
      (dataLoop passed pairs).2.filterMap Notification.answered =
        (pairs.filter Pair.answersNow).map (·.addr) ∧
      ((∃ p ∈ dropped, p.responseHeader = none) ↔ SkipsFrom passed pairs) := by
  induction pairs generalizing passed with
  | nil => exact ⟨[], by simp [dataLoop, SkipsFrom]⟩
  | cons pair rest ih =>
      by_cases hgoes : pair.answeredBefore = true ∧ rest ≠ []
      · -- deleted, with everything passed
        obtain ⟨hdone, hrest⟩ := hgoes
        obtain ⟨hchain, hnotes⟩ := @dataLoop_deletes passed rest pair hdone hrest
        obtain ⟨-, -, hnow⟩ := Pair.visit_deletes hdone
        have hrsp := Pair.answered_of_before hdone
        obtain ⟨dropped, hsplit, hanswered, hlost⟩ := ih []
        refine ⟨passed ++ pair.mark :: dropped, ?_, ?_, ?_⟩
        · rw [hchain]
          simpa using hsplit
        · rw [hnotes, hanswered, List.filter_cons_of_neg (by simp [hnow])]
        · rw [skipsFrom_deletes hdone hrest, ← hlost]
          simp [or_and_right, exists_or, hrsp]
      · -- stays, marked
        have hstay : pair.answeredBefore = true → rest = [] := fun hdone => by
          simpa using fun h => hgoes ⟨hdone, h⟩
        obtain ⟨hchain, hnotes⟩ := @dataLoop_stays passed rest pair hstay
        obtain ⟨dropped, hsplit, hanswered, hlost⟩ := ih (passed ++ [pair.mark])
        refine ⟨dropped, ?_, ?_, hlost.trans (skipsFrom_stays hstay).symm⟩
        · rw [hchain]
          simpa using hsplit
        · rw [hnotes, hanswered]
          cases hnow : pair.answersNow <;> simp [hnow]

/-- `extractData` touches neither the order lists nor the socket, and opens no pair. -/
theorem extractData_frame (flt : FlowFilter) (f : Flow) :
    (extractData flt f).1.order = f.order ∧ (extractData flt f).1.socket = f.socket ∧
      (extractData flt f).1.nextPair = f.nextPair := by
  unfold extractData
  split <;> exact ⟨rfl, rfl, rfl⟩

/-- The pairs stay, or a front part of them goes and the others are marked. -/
theorem extractData_pairs (flt : FlowFilter) (f : Flow) :
    (extractData flt f).1.pairs = f.pairs ∨
      ∃ dropped, f.pairs.map Pair.mark = dropped ++ (extractData flt f).1.pairs := by
  unfold extractData
  split
  · obtain ⟨dropped, hsplit, -⟩ := dataLoop_spec [] f.pairs
    exact .inr ⟨dropped, hsplit⟩
  · exact .inl rfl

/-- A pair after the walk was in the chain, and may have been marked. -/
theorem extractData_mem (flt : FlowFilter) {f : Flow} {q : Pair}
    (hq : q ∈ (extractData flt f).1.pairs) : ∃ p ∈ f.pairs, q = p ∨ q = p.mark := by
  rcases extractData_pairs flt f with hsame | ⟨dropped, hsplit⟩
  · exact ⟨q, hsame ▸ hq, .inl rfl⟩
  · have hmem : q ∈ f.pairs.map Pair.mark := hsplit ▸ List.mem_append_right _ hq
    obtain ⟨p, hp, rfl⟩ := List.mem_map.mp hmem
    exact ⟨p, hp, .inr rfl⟩

/-! ## Runs on a live flow -/

/-- A flow and everything notified about it so far. -/
structure Watched where
  flow : Flow
  notes : List Notification

/-- The pairs whose response has been notified. -/
def Watched.answered (w : Watched) : List Nat := w.notes.filterMap Notification.answered

/-- A call on the flow. -/
inductive Call where
  | addPacket (now : Clock) (packet : PacketT) (src : Bool) : Call
  | extractPair (closed : Bool) : Call
  | extractData : Call

/-- Every pair created since number `n` is in the chain, or its response has been
notified. -/
def KeepsPairs (n : Nat) (w : Watched) : Prop :=
  ∀ a, n ≤ a → a < w.flow.nextPair → a ∈ w.flow.pairs.map (·.addr) ∨ a ∈ w.answered

section Runs

variable (flt : FlowFilter) (rspHdlen : Option (List UInt8) → UInt16 → Int)

/-- One call.  There is none on a flow that `add_packet` has deleted. -/
def callStep (w : Watched) : Call → Option Watched
  | .addPacket now packet src =>
      (w.flow.receive now packet src).map fun f => { w with flow := f }
  | .extractPair closed =>
      (MonitoringTool.Sniffer.extractPair rspHdlen w.flow closed).map
        fun r => { w with flow := r.1 }
  | .extractData =>
      let r := MonitoringTool.Sniffer.extractData flt w.flow
      some ⟨r.1, w.notes ++ r.2⟩

/-- The guard: `extractData`, where it walks the chain, meets no pair that is
answered already, not the last, and behind an unanswered one. -/
def NothingSkipped (w : Watched) : Call → Prop
  | .extractData => flt.passes w.flow.socket = true → ¬ SkipsUnanswered w.flow.pairs
  | _ => True

/-- What the chain satisfies throughout; pairs are numbered from `n` on. -/
structure ChainInv (n : Nat) (w : Watched) : Prop where
  start : n ≤ w.flow.nextPair
  nodup : (w.flow.pairs.map (·.addr)).Nodup
  range : ∀ p ∈ w.flow.pairs, n ≤ p.addr ∧ p.addr < w.flow.nextPair
  request : ∀ p ∈ w.flow.pairs, p.requestHeader.isSome = true
  notified : ∀ p ∈ w.flow.pairs, p.addr ∈ w.answered ↔ p.answeredBefore = true
  notified_lt : ∀ a ∈ w.answered, a < w.flow.nextPair

variable {n : Nat} {w w' : Watched}

theorem Pair.Extends.answeredBefore_eq {p q : Pair} (h : p.Extends q) :
    q.answeredBefore = p.answeredBefore := by
  unfold Pair.answeredBefore
  rw [h.request]
  have hany : ∀ r : Option Response, r.any (·.processed) = (r.map (·.processed) == some true) := by
    rintro (_ | r)
    · rfl
    · cases hr : r.processed <;> simp [hr]
  rw [hany, hany]
  rcases h.response with hrsp | ⟨hp, hq⟩
  · rw [hrsp]
  · simp [hp, hq]

/-- Given a request, the response is notified now or has been before, or there is
none. -/
theorem Pair.answered_iff {p : Pair} (hreq : p.requestHeader.isSome = true) :
    (p.answeredBefore = true ∨ p.answersNow = true) ↔ p.responseHeader ≠ none := by
  unfold Pair.answeredBefore Pair.answersNow
  cases hrsp : p.responseHeader with
  | none => simp
  | some rsp => cases hproc : rsp.processed <;> simp [hreq, hproc]

theorem Pair.mark_answeredBefore_iff {p : Pair} (hreq : p.requestHeader.isSome = true) :
    p.mark.answeredBefore = true ↔ p.responseHeader ≠ none := by
  have hnone : p.requestHeader.isNone = false := by
    rw [← Option.not_isSome, hreq]
    rfl
  cases hrsp : p.responseHeader <;>
    simp [Pair.answeredBefore, Pair.mark, hnone, Pair.markRequest, Pair.markResponse, hreq, hrsp]

/-- `extractPair` keeps the chain in order. -/
theorem ChainInv.extractPair {f : Flow} {closed : Bool} {ret : Int} (hinv : ChainInv n w)
    (hcall : MonitoringTool.Sniffer.extractPair rspHdlen w.flow closed = some (f, ret)) :
    ChainInv n { w with flow := f } := by
  obtain ⟨k, hnext, -⟩ := extractPair_addrs rspHdlen hcall
  have hstart := hinv.start
  exact
    { start := by
        show n ≤ f.nextPair
        omega
      nodup := extractPair_nodup rspHdlen hcall hinv.nodup fun p hp => (hinv.range p hp).2
      range := by
        intro q hq
        show n ≤ q.addr ∧ q.addr < f.nextPair
        rcases extractPair_mem rspHdlen hcall hq with ⟨p, hp, hpq⟩ | ⟨hnew, -⟩
        · have hlt := hinv.range p hp
          rw [hpq.addr]
          omega
        · omega
      request := by
        intro q hq
        rcases extractPair_mem rspHdlen hcall hq with ⟨p, hp, hpq⟩ | ⟨-, hreq, -⟩
        · rw [hpq.request]
          exact hinv.request p hp
        · exact Pair.isSome_of_unread hreq
      notified := by
        intro q hq
        show q.addr ∈ w.answered ↔ _
        rcases extractPair_mem rspHdlen hcall hq with ⟨p, hp, hpq⟩ | ⟨hnew, -, hproc⟩
        · rw [hpq.addr, hpq.answeredBefore_eq]
          exact hinv.notified p hp
        · -- a new pair has no response that is processed
          refine iff_of_false (fun h => ?_) (fun h => ?_)
          · have hlt := hinv.notified_lt q.addr h
            omega
          · cases hrsp : q.responseHeader with
            | none => simp [Pair.answeredBefore, hrsp] at h
            | some rsp => simp_all [Pair.answeredBefore]
      notified_lt := by
        intro a ha
        have hlt := hinv.notified_lt a ha
        show a < f.nextPair
        omega }

/-- `extractPair` loses no pair. -/
theorem KeepsPairs.extractPair {f : Flow} {closed : Bool} {ret : Int} (hkeep : KeepsPairs n w)
    (hcall : MonitoringTool.Sniffer.extractPair rspHdlen w.flow closed = some (f, ret)) :
    KeepsPairs n { w with flow := f } := by
  obtain ⟨k, hnext, haddrs⟩ := extractPair_addrs rspHdlen hcall
  intro a hna haf
  show a ∈ f.pairs.map (·.addr) ∨ a ∈ w.answered
  rw [haddrs, List.mem_append, List.mem_range'_1]
  by_cases hlt : a < w.flow.nextPair
  · rcases hkeep a hna hlt with h | h
    · exact .inl (.inl h)
    · exact .inr h
  · have haf' : a < f.nextPair := haf
    exact .inl (.inr (by omega))

/-- The state after a walk, in terms of the pairs it leaves and of the responses
it notifies. -/
theorem callStep_extractData (hpass : flt.passes w.flow.socket = true)
    (hcall : callStep flt rspHdlen w .extractData = some w') :
    w'.flow.pairs = (dataLoop [] w.flow.pairs).1 ∧ w'.flow.nextPair = w.flow.nextPair ∧
      w'.answered = w.answered ++ (w.flow.pairs.filter Pair.answersNow).map (·.addr) := by
  obtain ⟨-, -, hanswered, -⟩ := dataLoop_spec [] w.flow.pairs
  obtain rfl := Option.some.inj hcall
  have hnew : (if w.flow.processed then [] else [Notification.newFlowReceived]).filterMap
      Notification.answered = [] := by
    split <;> rfl
  refine ⟨by simp [extractData, hpass], by simp [extractData, hpass], ?_⟩
  simp only [Watched.answered, extractData, hpass, if_true, List.filterMap_append, hnew,
    List.nil_append]
  rw [← hanswered]
  rfl

/-- The chain after a walk of `extractData`: what is left of it behind the pairs dropped, all
of them marked, and exactly those with a response notified. -/
structure ChainWalked (w w' : Watched) (dropped : List Pair) : Prop where
  nextPair : w'.flow.nextPair = w.flow.nextPair
  marked : w.flow.pairs.map Pair.mark = dropped ++ w'.flow.pairs
  skips : (∃ p ∈ dropped, p.responseHeader = none) ↔ SkipsUnanswered w.flow.pairs
  notified : ∀ p ∈ w.flow.pairs, p.addr ∈ w'.answered ↔ p.responseHeader ≠ none
  before : ∀ a ∈ w.answered, a ∈ w'.answered
  now : ∀ a ∈ w'.answered, a ∈ w.answered ∨ ∃ p ∈ w.flow.pairs, p.addr = a

theorem ChainInv.walked (hinv : ChainInv n w) (hpass : flt.passes w.flow.socket = true)
    (hcall : callStep flt rspHdlen w .extractData = some w') :
    ∃ dropped, ChainWalked w w' dropped := by
  obtain ⟨hpairs, hnext, hans⟩ := callStep_extractData flt rspHdlen hpass hcall
  obtain ⟨dropped, hsplit, -, hlost⟩ := dataLoop_spec [] w.flow.pairs
  rw [← hpairs, List.nil_append] at hsplit
  have hunique : ∀ p ∈ w.flow.pairs, ∀ q ∈ w.flow.pairs, p.addr = q.addr → p = q :=
    fun p hp q hq => List.inj_on_of_nodup_map hinv.nodup hp hq
  refine ⟨dropped, hnext, hsplit, hlost, fun p hp => ?_, fun a ha => ?_, fun a ha => ?_⟩
  · rw [hans, List.mem_append, hinv.notified p hp, ← Pair.answered_iff (hinv.request p hp)]
    refine or_congr_right ⟨fun h => ?_, fun h => ?_⟩
    · obtain ⟨q, hq, heq⟩ := List.mem_map.mp h
      obtain ⟨hq, hnow⟩ := List.mem_filter.mp hq
      exact hunique q hq p hp heq ▸ hnow
    · exact List.mem_map_of_mem (List.mem_filter.mpr ⟨hp, h⟩)
  · rw [hans]
    exact List.mem_append_left _ ha
  · rw [hans, List.mem_append] at ha
    refine ha.imp_right fun ha => ?_
    obtain ⟨p, hp, rfl⟩ := List.mem_map.mp ha
    exact ⟨p, (List.mem_filter.mp hp).1, rfl⟩

namespace ChainWalked

variable {dropped : List Pair}

/-- The addresses are those of the chain before. -/
theorem addrs (h : ChainWalked w w' dropped) :
    dropped.map (·.addr) ++ w'.flow.pairs.map (·.addr) = w.flow.pairs.map (·.addr) := by
  rw [← List.map_append, ← h.marked, List.map_map]
  exact List.map_congr_left fun p _ => Pair.mark_addr p

theorem of_mem (h : ChainWalked w w' dropped) {q : Pair} (hq : q ∈ dropped ++ w'.flow.pairs) :
    ∃ p ∈ w.flow.pairs, p.mark = q := by
  rw [← h.marked] at hq
  exact List.mem_map.mp hq

theorem of_mem_left (h : ChainWalked w w' dropped) {q : Pair} (hq : q ∈ w'.flow.pairs) :
    ∃ p ∈ w.flow.pairs, p.mark = q := h.of_mem (List.mem_append_right _ hq)

/-- The chain stays in order. -/
theorem chainInv (h : ChainWalked w w' dropped) (hinv : ChainInv n w) : ChainInv n w' where
  start := h.nextPair ▸ hinv.start
  nodup := by
    have hnodup := hinv.nodup
    rw [← h.addrs] at hnodup
    exact hnodup.of_append_right
  range := by
    intro q hq
    obtain ⟨p, hp, rfl⟩ := h.of_mem_left hq
    rw [Pair.mark_addr, h.nextPair]
    exact hinv.range p hp
  request := by
    intro q hq
    obtain ⟨p, hp, rfl⟩ := h.of_mem_left hq
    rw [Pair.mark_requestHeader_isSome]
    exact hinv.request p hp
  notified := by
    intro q hq
    obtain ⟨p, hp, rfl⟩ := h.of_mem_left hq
    rw [Pair.mark_addr, h.notified p hp, Pair.mark_answeredBefore_iff (hinv.request p hp)]
  notified_lt := by
    intro a ha
    rw [h.nextPair]
    rcases h.now a ha with ha | ⟨p, hp, rfl⟩
    · exact hinv.notified_lt a ha
    · exact (hinv.range p hp).2

/-- No created pair is lost if no pair dropped is unanswered. -/
theorem keepsPairs_iff (h : ChainWalked w w' dropped) (hinv : ChainInv n w)
    (hkeep : KeepsPairs n w) : KeepsPairs n w' ↔ ¬ SkipsUnanswered w.flow.pairs := by
  constructor
  · intro hkeep' hskips
    obtain ⟨q, hq, hnone⟩ := h.skips.mpr hskips
    obtain ⟨p, hp, rfl⟩ := h.of_mem (List.mem_append_left _ hq)
    rw [Pair.mark_responseHeader_eq_none] at hnone
    obtain ⟨hna, haf⟩ := hinv.range p hp
    rcases hkeep' p.addr hna (h.nextPair ▸ haf) with hin | hin
    · have hnodup := hinv.nodup
      rw [← h.addrs] at hnodup
      have hdropped : p.addr ∈ dropped.map (·.addr) :=
        List.mem_map.mpr ⟨p.mark, hq, Pair.mark_addr p⟩
      exact (List.nodup_append'.mp hnodup).2.2 hdropped hin
    · exact (h.notified p hp).mp hin hnone
  · intro hnothing a hna haf
    rw [h.nextPair] at haf
    rcases hkeep a hna haf with hin | hin
    · rw [← h.addrs, List.mem_append] at hin
      rcases hin with hin | hin
      · obtain ⟨q, hq, rfl⟩ := List.mem_map.mp hin
        obtain ⟨p, hp, rfl⟩ := h.of_mem (List.mem_append_left _ hq)
        right
        rw [Pair.mark_addr, h.notified p hp]
        intro hnone
        exact hnothing (h.skips.mp ⟨p.mark, hq, by simpa using hnone⟩)
      · exact .inl hin
    · exact .inr (h.before a hin)

end ChainWalked

/-- **`extractData`** keeps the chain in order, and loses no created pair exactly
when it skips no unanswered one. -/
theorem ChainInv.extractData (hinv : ChainInv n w) (hkeep : KeepsPairs n w)
    (hcall : callStep flt rspHdlen w .extractData = some w') :
    ChainInv n w' ∧ (KeepsPairs n w' ↔ NothingSkipped flt w .extractData) := by
  by_cases hpass : flt.passes w.flow.socket = true
  · obtain ⟨dropped, hwalked⟩ := hinv.walked flt rspHdlen hpass hcall
    refine ⟨hwalked.chainInv hinv, ?_⟩
    rw [hwalked.keepsPairs_iff hinv hkeep]
    exact ⟨fun h _ => h, fun h => h hpass⟩
  · -- the flow is filtered out
    have hsame : w' = w := by
      obtain rfl := Option.some.inj hcall
      simp [MonitoringTool.Sniffer.extractData, hpass]
    subst hsame
    exact ⟨hinv, iff_of_true hkeep fun h => absurd h hpass⟩

/-- **When no unanswered pair is lost.**  In every run of `add_packet`,
`extractPair` and `extractData` on a new flow, every created pair stays in the
chain until its response has been notified, in every state of the run, exactly
when no `extractData` of the run meets a pair that is answered already, not the
last, and behind an unanswered one. -/
theorem extractData_keeps_unanswered_iff (mem : Flow) (s : FlowS) (calls : List Call) :
    EveryState (callStep flt rspHdlen) (KeepsPairs mem.nextPair) ⟨Flow.new mem s, []⟩ calls ↔
      EveryStep (callStep flt rspHdlen) (NothingSkipped flt) ⟨Flow.new mem s, []⟩ calls := by
  have hnew : ChainInv mem.nextPair ⟨Flow.new mem s, []⟩ ∧
      KeepsPairs mem.nextPair ⟨Flow.new mem s, []⟩ :=
    ⟨⟨le_rfl, by simp [Flow.new], by simp [Flow.new], by simp [Flow.new], by simp [Flow.new],
      by simp [Watched.answered]⟩, fun a hna haf => absurd hna (Nat.not_le.mpr haf)⟩
  have hstep : ∀ w c w', ChainInv mem.nextPair w ∧ KeepsPairs mem.nextPair w →
      callStep flt rspHdlen w c = some w' →
        ChainInv mem.nextPair w' ∧ (KeepsPairs mem.nextPair w' ↔ NothingSkipped flt w c) := by
    rintro w (⟨now, packet, src⟩ | closed | -) w' ⟨hinv, hkeep⟩ hcall
    · -- the chain is left alone
      obtain ⟨f, hf, rfl⟩ := Option.map_eq_some_iff.mp hcall
      obtain ⟨-, rfl⟩ := (Flow.receive_eq_some _ _ _ _).mp hf
      obtain ⟨hp, hn, -, -⟩ := Flow.addPacket_pairs w.flow now packet src
      have hsame : ∀ f : Flow, f.pairs = w.flow.pairs → f.nextPair = w.flow.nextPair →
          ChainInv mem.nextPair { w with flow := f } ∧
            KeepsPairs mem.nextPair { w with flow := f } := by
        intro f hpairs hnext
        refine ⟨⟨?_, ?_, ?_, ?_, ?_, ?_⟩, ?_⟩ <;> simp only [KeepsPairs, hpairs, hnext]
        exacts [hinv.start, hinv.nodup, hinv.range, hinv.request, hinv.notified, hinv.notified_lt,
          hkeep]
      obtain ⟨hinv', hkeep'⟩ := hsame _ hp hn
      exact ⟨hinv', iff_of_true hkeep' trivial⟩
    · obtain ⟨⟨f, ret⟩, hf, rfl⟩ := Option.map_eq_some_iff.mp hcall
      exact ⟨hinv.extractPair rspHdlen hf, iff_of_true (hkeep.extractPair rspHdlen hf) trivial⟩
    · exact hinv.extractData flt rspHdlen hkeep hcall
  refine everyState_iff_everyStep (fun w hw => hw.2) (fun w c w' hw h => (hstep w c w' hw h).2)
    (fun w c w' hw h hkeep => ⟨(hstep w c w' hw h).1, hkeep⟩) (fun w c hw h => ?_) hnew
  cases c with
  | addPacket now packet src => exact trivial
  | extractPair closed => exact trivial
  | extractData => cases h

end Runs

/-! ## A skipped pair -/

/-- Three requests arrive and a response to the second one; the chain is then
walked twice. -/
def secondAnsweredFirst : List Call :=
  [.addPacket ⟨0, 0⟩ (webPacket 1 true 100 15 20 REQ) true,
    .addPacket ⟨0, 0⟩ (webPacket 2 true 120 15 20 REQ) true,
    .addPacket ⟨0, 0⟩ (webPacket 3 true 140 15 20 REQ) true,
    .addPacket ⟨0, 0⟩ (webPacket 4 false 15 140 30 RSP) false,
    .extractPair false, .extractData, .extractData]

/-- A filter that lets every flow pass. -/
def noFilter : FlowFilter := ⟨false, 0, [], false, 0, []⟩

/-- The second walk drops the first pair, which has no response. -/
theorem extractData_drops_unanswered :
    ¬ ∀ (flt : FlowFilter) (rspHdlen : Option (List UInt8) → UInt16 → Int) (mem : Flow) (s : FlowS)
      (calls : List Call), EveryState (callStep flt rspHdlen) (KeepsPairs mem.nextPair)
        ⟨Flow.new mem s, []⟩ calls := by
  intro h
  have hlost : ((run (callStep noFilter fun _ _ => 0) ⟨webFlow, []⟩ secondAnsweredFirst).any
      fun w => 0 < w.flow.nextPair ∧ 0 ∉ w.flow.pairs.map (·.addr) ∧ 0 ∉ w.answered) = true := by
    decide
  simp only [Option.any_eq_true, decide_eq_true_eq] at hlost
  obtain ⟨w, hrun, hcreated, hchain, hnotified⟩ := hlost
  have hkeep :=
    (h noFilter (fun _ _ => 0) Flow.zero ⟨1, 2, 4000, 80⟩ secondAnsweredFirst).final hrun
  rcases hkeep 0 (Nat.zero_le _) hcreated with hin | hin
  · exact hchain hin
  · exact hnotified hin

end MonitoringTool.Sniffer
