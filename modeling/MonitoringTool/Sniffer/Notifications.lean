import MonitoringTool.Sniffer.ExtractData

/-!
# Notifications are sent at most once and in order

The events of a flow are the notifications of its observers and the deletions of its
pairs, in the order in which `extractData` makes them.  `Allowed before e` says what may
follow the events `before`: a flow is announced once, the request and the response of a
pair once each and in that order, and nothing happens to a pair that was deleted.

Each of these rests on a processed flag of another object, and `Tracked` relates the two
flags of a pair to the events so far.  `notified_in_order` is the result for any run of
calls.
-/

namespace MonitoringTool.Sniffer

open Lib

/-! ## Events -/

/-- A notification, or `delete pair`. -/
inductive Event where
  | notify (n : Notification) : Event
  | delete (addr : ℕ) : Event
  deriving DecidableEq

namespace Event

/-- The notification. -/
def note : Event → Option Notification
  | .notify n => some n
  | .delete _ => none

/-- The pair whose request is notified. -/
def requested : Event → Option ℕ
  | .notify (.requestReceived pair) => some pair.addr
  | _ => none

/-- The pair whose response is notified. -/
def responded : Event → Option ℕ
  | .notify (.responseReceived pair) => some pair.addr
  | _ => none

/-- The pair an event is about. -/
def pair : Event → Option ℕ
  | .notify (.requestReceived pair) => some pair.addr
  | .notify (.responseReceived pair) => some pair.addr
  | .notify _ => none
  | .delete addr => some addr

end Event

/-- The events of the walk at one pair. -/
def Pair.events (pair : Pair) (hasNext : Bool) : List Event :=
  let v := pair.visit hasNext
  v.2.map .notify ++ if v.1.isNone then [.delete pair.addr] else []

/-- The events of the walk over a chain. -/
def walkEvents : List Pair → List Event
  | [] => []
  | pair :: rest => pair.events (!rest.isEmpty) ++ walkEvents rest

/-- The events of `extractData`. -/
def dataEvents (flt : FlowFilter) (flow : Flow) : List Event :=
  if flt.passes flow.socket then
    (if flow.processed then [] else [.notify .newFlowReceived]) ++
      .notify .flowUpdate :: walkEvents flow.pairs
  else []

theorem Pair.note_events (pair : Pair) (hasNext : Bool) :
    (pair.events hasNext).filterMap Event.note = (pair.visit hasNext).2 := by
  unfold Pair.events
  dsimp only
  rw [List.filterMap_append, List.filterMap_map]
  split <;> simp [Event.note, Function.comp_def]

/-- The events of the walk without the deletions are its notifications. -/
theorem note_walkEvents (passed pairs : List Pair) :
    (walkEvents pairs).filterMap Event.note = (dataLoop passed pairs).2 := by
  induction pairs generalizing passed with
  | nil => rfl
  | cons pair rest ih =>
      rw [walkEvents, dataLoop, List.filterMap_append, Pair.note_events]
      dsimp only
      cases (pair.visit (!rest.isEmpty)).1 with
      | none => rw [ih []]
      | some q => rw [ih (passed ++ [q])]

theorem note_dataEvents (flt : FlowFilter) (flow : Flow) :
    (dataEvents flt flow).filterMap Event.note = (extractData flt flow).2 := by
  unfold dataEvents extractData
  split
  · have hwalk := note_walkEvents [] flow.pairs
    cases flow.processed <;> simp [Event.note, hwalk]
  · rfl

/-! ## What may happen after what -/

/-- `e` may happen after the events `before`. -/
structure Allowed (before : List Event) (e : Event) : Prop where
  newFlow : e = .notify .newFlowReceived → e ∉ before
  request : ∀ a, e.requested = some a → a ∉ before.filterMap Event.requested
  response : ∀ a, e.responded = some a →
    a ∉ before.filterMap Event.responded ∧ a ∈ before.filterMap Event.requested
  alive : ∀ a, e.pair = some a → .delete a ∉ before

/-- Every event may happen after those before it. -/
def WellNotified (events : List Event) : Prop :=
  ∀ before e after, events = before ++ e :: after → Allowed before e

theorem wellNotified_nil : WellNotified [] := by
  intro before e after h
  simp at h

theorem WellNotified.concat {events : List Event} (h : WellNotified events) {e : Event}
    (he : Allowed events e) : WellNotified (events ++ [e]) := by
  intro before x after heq
  rcases List.eq_nil_or_concat' after with rfl | ⟨after, y, rfl⟩
  · obtain ⟨rfl, hx⟩ := List.append_inj' heq rfl
    obtain rfl : e = x := by simpa using hx
    exact he
  · rw [← List.cons_append, ← List.append_assoc] at heq
    exact h before x after (List.append_inj' heq rfl).1

/-- The flags of a pair agree with the events. -/
structure Tracked (events : List Event) (p : Pair) : Prop where
  request : p.requestHeader.isSome = true
  requested : p.addr ∈ events.filterMap Event.requested ↔
    p.requestHeader.map (·.processed) = some true
  responded : p.addr ∈ events.filterMap Event.responded ↔
    p.responseHeader.map (·.processed) = some true
  alive : .delete p.addr ∉ events

/-- The events concern the pair in no way. -/
def NotAbout (events : List Event) (a : ℕ) : Prop := ∀ e ∈ events, e.pair ≠ some a

theorem NotAbout.requested {events : List Event} {a : ℕ} (h : NotAbout events a) :
    a ∉ events.filterMap Event.requested := by
  intro hmem
  obtain ⟨e, he, hreq⟩ := List.mem_filterMap.mp hmem
  apply h e he
  unfold Event.requested at hreq
  split at hreq
  · exact hreq
  · cases hreq

theorem NotAbout.responded {events : List Event} {a : ℕ} (h : NotAbout events a) :
    a ∉ events.filterMap Event.responded := by
  intro hmem
  obtain ⟨e, he, hrsp⟩ := List.mem_filterMap.mp hmem
  apply h e he
  unfold Event.responded at hrsp
  split at hrsp
  · exact hrsp
  · cases hrsp

theorem NotAbout.alive {events : List Event} {a : ℕ} (h : NotAbout events a) :
    .delete a ∉ events := fun hmem => h _ hmem rfl

/-- Events about other pairs leave a pair tracked. -/
theorem Tracked.append {events more : List Event} {p : Pair} (h : Tracked events p)
    (hmore : NotAbout more p.addr) : Tracked (events ++ more) p where
  request := h.request
  requested := by
    rw [List.filterMap_append, List.mem_append, or_iff_left hmore.requested]
    exact h.requested
  responded := by
    rw [List.filterMap_append, List.mem_append, or_iff_left hmore.responded]
    exact h.responded
  alive := by
    rw [List.mem_append, not_or]
    exact ⟨h.alive, hmore.alive⟩

/-! ## The walk -/

@[simp] theorem Pair.markRequest_addr (p : Pair) : p.markRequest.addr = p.addr := rfl

@[simp] theorem Pair.markRequest_responseHeader (p : Pair) :
    p.markRequest.responseHeader = p.responseHeader := rfl

@[simp] theorem Pair.markResponse_addr (p : Pair) : p.markResponse.addr = p.addr := rfl

@[simp] theorem Pair.markResponse_requestHeader (p : Pair) :
    p.markResponse.requestHeader = p.requestHeader := rfl

/-- One event about the pair. -/
theorem Tracked.allowed {events : List Event} {p : Pair} (h : Tracked events p) {e : Event}
    (hpair : e.pair = some p.addr)
    (hreq : e.requested = some p.addr → p.addr ∉ events.filterMap Event.requested)
    (hrsp : e.responded = some p.addr → p.addr ∉ events.filterMap Event.responded ∧
      p.addr ∈ events.filterMap Event.requested) : Allowed events e where
  newFlow := by
    rintro rfl
    cases hpair
  request := by
    intro a ha
    obtain rfl : p.addr = a := by
      cases e with
      | delete addr => cases ha
      | notify n => cases n <;> simp_all [Event.requested, Event.pair]
    exact hreq ha
  response := by
    intro a ha
    obtain rfl : p.addr = a := by
      cases e with
      | delete addr => cases ha
      | notify n => cases n <;> simp_all [Event.responded, Event.pair]
    exact hrsp ha
  alive := by
    intro a ha
    obtain rfl := Option.some.inj (hpair.symm.trans ha)
    exact h.alive

/-- Notifying the request, if it was not. -/
theorem Tracked.requestNotes {events : List Event} {p : Pair} (h : Tracked events p)
    (hw : WellNotified events) :
    WellNotified (events ++ p.requestNotes.map Event.notify) ∧
      Tracked (events ++ p.requestNotes.map Event.notify) p.markRequest ∧
      p.addr ∈ (events ++ p.requestNotes.map Event.notify).filterMap Event.requested := by
  obtain ⟨req, hreq⟩ := Option.isSome_iff_exists.mp h.request
  have hrequested := h.requested
  rw [hreq, Option.map_some, Option.some.injEq] at hrequested
  have hmark : p.markRequest.requestHeader.map (·.processed) = some true := by
    simp [Pair.markRequest, hreq]
  have hsome : p.markRequest.requestHeader.isSome = true := by
    simp [Pair.markRequest, hreq]
  unfold Pair.requestNotes
  rw [hreq]
  dsimp only
  cases hproc : req.processed with
  | true =>
      rw [if_pos rfl, List.map_nil, List.append_nil]
      have hmem := hrequested.mpr hproc
      exact ⟨hw, ⟨hsome, iff_of_true hmem hmark, h.responded, h.alive⟩, hmem⟩
  | false =>
      have hno : p.addr ∉ events.filterMap Event.requested := fun hmem => by
        rw [hrequested.mp hmem] at hproc
        cases hproc
      rw [if_neg (by decide), List.map_singleton]
      have hallowed : Allowed events (.notify (.requestReceived p.markRequest)) :=
        h.allowed rfl (fun _ => hno) (fun hrsp => by cases hrsp)
      have hmem : p.addr ∈ (events ++ [Event.notify (.requestReceived p.markRequest)]).filterMap
          Event.requested := by
        rw [List.filterMap_append, List.mem_append]
        exact .inr (by simp [Event.requested])
      refine ⟨hw.concat hallowed, ⟨hsome, iff_of_true hmem hmark, ?_, ?_⟩, hmem⟩
      · have hresponded := h.responded
        rw [List.filterMap_append]
        simpa only [List.filterMap_cons, Event.responded, List.filterMap_nil, List.append_nil,
          Pair.markRequest_addr, Pair.markRequest_responseHeader] using hresponded
      · have halive := h.alive
        simpa using halive

/-- At one pair the request is notified, if it was not; then the pair stays as it is, or it
was answered before and is deleted, or its response is notified. -/
theorem Pair.events_cases {p : Pair} (h : p.requestHeader.isSome = true) (hasNext : Bool) :
    ((p.visit hasNext).1 = some p.markRequest ∧
      p.events hasNext = p.requestNotes.map Event.notify) ∨
    ((p.visit hasNext).1 = none ∧
      p.events hasNext = p.requestNotes.map Event.notify ++ [.delete p.addr]) ∨
    (p.responseHeader.map (·.processed) = some false ∧
      (p.visit hasNext).1 = some p.markRequest.markResponse ∧
      p.events hasNext = p.requestNotes.map Event.notify ++
        [.notify (.responseReceived p.markRequest.markResponse)]) := by
  have hisNone : p.requestHeader.isNone = false := by
    rw [← Option.not_isSome, h]
    rfl
  unfold Pair.events Pair.visit
  cases hrsp : p.responseHeader with
  | none => exact .inl (by simp [hisNone, hrsp])
  | some rsp =>
      cases hproc : rsp.processed with
      | false => exact .inr (.inr (by simp [hisNone, hrsp, hproc]))
      | true =>
          cases hasNext with
          | false => exact .inl (by simp [hisNone, hrsp, hproc])
          | true => exact .inr (.inl (by simp [hisNone, hrsp, hproc]))

/-- The events at one pair are about it. -/
theorem Pair.events_pair {p : Pair} (h : p.requestHeader.isSome = true) {hasNext : Bool} {e : Event}
    (he : e ∈ p.events hasNext) : e.pair = some p.addr := by
  have hnotes : ∀ e ∈ p.requestNotes.map Event.notify, e.pair = some p.addr := by
    intro e he
    obtain ⟨n, hn, rfl⟩ := List.mem_map.mp he
    unfold Pair.requestNotes at hn
    split at hn
    · split at hn
      · cases hn
      · obtain rfl := List.mem_singleton.mp hn
        rfl
    · cases hn
  rcases Pair.events_cases h hasNext with ⟨-, hev⟩ | ⟨-, hev⟩ | ⟨-, -, hev⟩ <;> rw [hev] at he
  · exact hnotes e he
  · rcases List.mem_append.mp he with he | he
    · exact hnotes e he
    · obtain rfl := List.mem_singleton.mp he
      rfl
  · rcases List.mem_append.mp he with he | he
    · exact hnotes e he
    · obtain rfl := List.mem_singleton.mp he
      rfl

/-- The events at one pair leave it tracked unless they delete it. -/
theorem Tracked.visit {events : List Event} {p : Pair} (h : Tracked events p)
    (hw : WellNotified events) (hasNext : Bool) :
    WellNotified (events ++ p.events hasNext) ∧
      ∀ q, (p.visit hasNext).1 = some q → q.addr = p.addr ∧
        Tracked (events ++ p.events hasNext) q := by
  obtain ⟨hw₁, h₁, hmem⟩ := h.requestNotes hw
  rcases Pair.events_cases h.request hasNext with ⟨hvisit, hev⟩ | ⟨hvisit, hev⟩ |
    ⟨hrsp, hvisit, hev⟩ <;> rw [hvisit, hev]
  · refine ⟨hw₁, fun q hq => ?_⟩
    obtain rfl := Option.some.inj hq
    exact ⟨rfl, h₁⟩
  · rw [← List.append_assoc]
    refine ⟨hw₁.concat ?_, fun q hq => by cases hq⟩
    exact h₁.allowed rfl (fun hreq => by cases hreq) (fun hrsp => by cases hrsp)
  · rw [← List.append_assoc]
    have hresponded := h₁.responded
    rw [Pair.markRequest_responseHeader, Pair.markRequest_addr, hrsp] at hresponded
    have hno : p.addr ∉ (events ++ p.requestNotes.map Event.notify).filterMap Event.responded :=
      fun hmem => by simpa using hresponded.mp hmem
    have hallowed : Allowed (events ++ p.requestNotes.map Event.notify)
        (.notify (.responseReceived p.markRequest.markResponse)) :=
      h₁.allowed rfl (fun hreq => by cases hreq) (fun _ => ⟨hno, hmem⟩)
    refine ⟨hw₁.concat hallowed, fun q hq => ?_⟩
    obtain rfl := Option.some.inj hq
    obtain ⟨rsp, hrsp', -⟩ := Option.map_eq_some_iff.mp hrsp
    refine ⟨rfl, h₁.request, ?_, ?_, ?_⟩
    · have hrequested := h₁.requested
      rw [List.filterMap_append]
      simpa only [List.filterMap_cons, Event.requested, List.filterMap_nil, List.append_nil,
        Pair.markResponse_addr, Pair.markResponse_requestHeader] using hrequested
    · refine iff_of_true ?_ (by simp [Pair.markResponse, hrsp'])
      rw [List.filterMap_append, List.mem_append]
      exact .inr (by simp [Event.responded])
    · have halive := h₁.alive
      simpa using halive

/-- **The walk over a chain** makes its events in order and leaves every pair that stays
in the chain tracked. -/
theorem walk_tracked {events : List Event} {passed pairs : List Pair} (hw : WellNotified events)
    (hpassed : ∀ p ∈ passed, Tracked events p) (hpairs : ∀ p ∈ pairs, Tracked events p)
    (hnodup : ((passed ++ pairs).map (·.addr)).Nodup) :
    WellNotified (events ++ walkEvents pairs) ∧
      ∀ p ∈ (dataLoop passed pairs).1, Tracked (events ++ walkEvents pairs) p := by
  induction pairs generalizing events passed with
  | nil =>
      rw [walkEvents, List.append_nil]
      exact ⟨hw, hpassed⟩
  | cons pair rest ih =>
      have htracked := hpairs pair (by simp)
      obtain ⟨hw₁, hstays⟩ := htracked.visit hw (!rest.isEmpty)
      -- the events at this pair leave the others tracked
      have hothers : ∀ p ∈ passed ++ rest, Tracked events p →
          Tracked (events ++ pair.events (!rest.isEmpty)) p := by
        intro p hp hp'
        apply hp'.append
        intro e he heq
        have hsame : p.addr = pair.addr :=
          Option.some.inj (heq.symm.trans (Pair.events_pair htracked.request he))
        have hperm : ((pair :: (passed ++ rest)).map (·.addr)).Nodup :=
          (List.perm_middle.map Pair.addr).nodup_iff.mp hnodup
        rw [List.map_cons, List.nodup_cons] at hperm
        exact hperm.1 (hsame ▸ List.mem_map_of_mem (f := Pair.addr) hp)
      have hrest : ∀ p ∈ rest, Tracked (events ++ pair.events (!rest.isEmpty)) p :=
        fun p hp => hothers p (by simp [hp]) (hpairs p (by simp [hp]))
      rw [walkEvents, ← List.append_assoc, dataLoop]
      dsimp only
      cases hvisit : (pair.visit (!rest.isEmpty)).1 with
      | none =>
          have hnodup' : (rest.map (·.addr)).Nodup := by
            rw [List.map_append, List.map_cons] at hnodup
            exact (List.nodup_cons.mp (List.nodup_append.mp hnodup).2.1).2
          exact ih hw₁ (by simp) hrest hnodup'
      | some q =>
          obtain ⟨haddr, hq⟩ := hstays q hvisit
          have hnodup' : ((passed ++ [q] ++ rest).map (·.addr)).Nodup := by
            have hsame : (passed ++ [q] ++ rest).map (·.addr) =
                (passed ++ pair :: rest).map (·.addr) := by simp [haddr]
            rwa [hsame]
          have hpassed' : ∀ p ∈ passed ++ [q],
              Tracked (events ++ pair.events (!rest.isEmpty)) p := by
            intro p hp
            rcases List.mem_append.mp hp with hp | hp
            · exact hothers p (by simp [hp]) (hpassed p hp)
            · exact List.mem_singleton.mp hp ▸ hq
          exact ih hw₁ hpassed' hrest hnodup'

/-- The walk's events are about pairs of the chain. -/
theorem mem_walkEvents {pairs : List Pair} (h : ∀ p ∈ pairs, p.requestHeader.isSome = true)
    {e : Event} (he : e ∈ walkEvents pairs) : ∃ p ∈ pairs, e.pair = some p.addr := by
  induction pairs with
  | nil => cases he
  | cons pair rest ih =>
      rcases List.mem_append.mp he with he | he
      · exact ⟨pair, by simp, Pair.events_pair (h pair (by simp)) he⟩
      · obtain ⟨p, hp, hpair⟩ := ih (fun p hp => h p (by simp [hp])) he
        exact ⟨p, by simp [hp], hpair⟩

/-! ## Every run -/

/-- A flow and its events so far. -/
structure Observed where
  flow : Flow
  events : List Event

/-- A new flow. -/
def Observed.start (mem : Flow) (s : FlowS) : Observed := { flow := Flow.new mem s, events := [] }

/-- What was notified. -/
def Observed.watched (o : Observed) : Watched := ⟨o.flow, o.events.filterMap Event.note⟩

section Runs

variable (flt : FlowFilter) (rspHdlen : Option (List UInt8) → UInt16 → Int)

/-- One call, with its events. -/
def observeStep (o : Observed) : Call → Option Observed
  | .addPacket now packet src =>
      (o.flow.receive now packet src).map fun f => { o with flow := f }
  | .extractPair closed =>
      (extractPair rspHdlen o.flow closed).map fun r => { o with flow := r.1 }
  | .extractData =>
      some ⟨(extractData flt o.flow).1, o.events ++ dataEvents flt o.flow⟩

/-- Without the deletions the events are what the calls notify. -/
theorem observeStep_watched (o : Observed) (c : Call) :
    (observeStep flt rspHdlen o c).map Observed.watched = callStep flt rspHdlen o.watched c := by
  cases c with
  | addPacket now packet src => simp [observeStep, callStep, Observed.watched, Function.comp_def]
  | extractPair closed => simp [observeStep, callStep, Observed.watched, Function.comp_def]
  | extractData => simp [observeStep, callStep, Observed.watched, note_dataEvents]

/-- The pairs of the chain are tracked and numbered below the next pair, and so are the
pairs of all events; an announced flow is processed. -/
structure ObserveInv (o : Observed) : Prop where
  well : WellNotified o.events
  newFlow : o.flow.processed = false → .notify .newFlowReceived ∉ o.events
  tracked : ∀ p ∈ o.flow.pairs, Tracked o.events p
  nodup : (o.flow.pairs.map (·.addr)).Nodup
  pairs_lt : ∀ p ∈ o.flow.pairs, p.addr < o.flow.nextPair
  events_lt : ∀ e ∈ o.events, ∀ a, e.pair = some a → a < o.flow.nextPair

variable {flt rspHdlen} {o : Observed}

/-- A pair that `extractPair` extends stays tracked. -/
theorem Tracked.extends {events : List Event} {p q : Pair} (h : Tracked events p)
    (hext : p.Extends q) : Tracked events q where
  request := hext.request ▸ h.request
  requested := by
    rw [hext.addr, hext.request]
    exact h.requested
  responded := by
    rw [hext.addr, h.responded]
    rcases hext.response with hrsp | ⟨hp, hq⟩
    · rw [hrsp]
    · simp [hp, hq]
  alive := hext.addr ▸ h.alive

theorem ObserveInv.extractPair (h : ObserveInv o) {f : Flow} {closed : Bool} {ret : Int}
    (hcall : extractPair rspHdlen o.flow closed = some (f, ret)) :
    ObserveInv { o with flow := f } := by
  obtain ⟨-, -, -, -, -, -, -, -, hprocessed⟩ := extractPair_spec rspHdlen hcall
  obtain ⟨k, hnext, -⟩ := extractPair_addrs rspHdlen hcall
  exact
    { well := h.well
      newFlow := by
        intro hf
        exact h.newFlow (hprocessed ▸ hf)
      tracked := by
        intro q hq
        rcases extractPair_mem rspHdlen hcall hq with ⟨p, hp, hext⟩ | ⟨hnew, hreq, hrsp⟩
        · exact (h.tracked p hp).extends hext
        · -- no event is about a new pair
          have hnone : NotAbout o.events q.addr := by
            intro e he heq
            have hlt := h.events_lt e he q.addr heq
            omega
          exact
            { request := Pair.isSome_of_unread hreq
              requested := iff_of_false hnone.requested (by simp [hreq])
              responded := iff_of_false hnone.responded hrsp
              alive := hnone.alive }
      nodup := extractPair_nodup rspHdlen hcall h.nodup h.pairs_lt
      pairs_lt := by
        intro q hq
        rcases extractPair_mem rspHdlen hcall hq with ⟨p, hp, hext⟩ | ⟨hnew, -⟩
        · have hlt := h.pairs_lt p hp
          show q.addr < f.nextPair
          rw [hext.addr, hnext]
          omega
        · exact hnew.2
      events_lt := by
        intro e he a ha
        have hlt := h.events_lt e he a ha
        show a < f.nextPair
        omega }

/-- The announcement of the flow and its update come first. -/
theorem ObserveInv.announced (h : ObserveInv o) (hpass : flt.passes o.flow.socket = true) :
    ∃ first, dataEvents flt o.flow = first ++ walkEvents o.flow.pairs ∧
      WellNotified (o.events ++ first) ∧ ∀ a, NotAbout first a := by
  have hupdate : ∀ events, Allowed events (.notify .flowUpdate) := fun events =>
    ⟨by simp, by simp [Event.requested], by simp [Event.responded], by simp [Event.pair]⟩
  unfold dataEvents
  rw [if_pos hpass]
  cases hproc : o.flow.processed with
  | true =>
      exact ⟨[.notify .flowUpdate], rfl, h.well.concat (hupdate _),
        by simp [NotAbout, Event.pair]⟩
  | false =>
      have hnew : Allowed o.events (.notify .newFlowReceived) :=
        ⟨fun _ => h.newFlow hproc, by simp [Event.requested], by simp [Event.responded],
          by simp [Event.pair]⟩
      refine ⟨[.notify .newFlowReceived, .notify .flowUpdate], rfl, ?_,
        by simp [NotAbout, Event.pair]⟩
      have hw := (h.well.concat hnew).concat (hupdate _)
      rwa [List.append_assoc] at hw

theorem ObserveInv.extractData (h : ObserveInv o) :
    ObserveInv ⟨(extractData flt o.flow).1, o.events ++ dataEvents flt o.flow⟩ := by
  by_cases hpass : flt.passes o.flow.socket = true
  · obtain ⟨first, hfirst, hw₁, hnone⟩ := h.announced hpass
    have htracked : ∀ p ∈ o.flow.pairs, Tracked (o.events ++ first) p :=
      fun p hp => (h.tracked p hp).append (hnone p.addr)
    obtain ⟨hw₂, hpairs₂⟩ := walk_tracked hw₁ (List.forall_mem_nil _) htracked h.nodup
    obtain ⟨-, -, hnext⟩ := extractData_frame flt o.flow
    have hflow : (MonitoringTool.Sniffer.extractData flt o.flow).1.processed = true ∧
        (MonitoringTool.Sniffer.extractData flt o.flow).1.pairs = (dataLoop [] o.flow.pairs).1 := by
      unfold MonitoringTool.Sniffer.extractData
      rw [if_pos hpass]
      exact ⟨rfl, rfl⟩
    -- the chain has lost a front part
    obtain ⟨dropped, hsplit, -⟩ := dataLoop_spec [] o.flow.pairs
    have haddrs : o.flow.pairs.map (·.addr) =
        dropped.map (·.addr) ++ (dataLoop [] o.flow.pairs).1.map (·.addr) := by
      rw [← List.map_append, ← hsplit]
      simp [Function.comp_def]
    have hevents : o.events ++ dataEvents flt o.flow =
        o.events ++ first ++ walkEvents o.flow.pairs := by
      rw [hfirst, List.append_assoc]
    rw [hevents]
    exact
      { well := hw₂
        newFlow := by
          intro hproc
          rw [hflow.1] at hproc
          cases hproc
        tracked := by
          rw [hflow.2]
          exact hpairs₂
        nodup := by
          rw [hflow.2]
          have hnodup := h.nodup
          rw [haddrs] at hnodup
          exact (List.nodup_append.mp hnodup).2.1
        pairs_lt := by
          rw [hflow.2, hnext]
          intro q hq
          have hmem : q.addr ∈ o.flow.pairs.map (·.addr) := by
            rw [haddrs]
            exact List.mem_append_right _ (List.mem_map_of_mem hq)
          obtain ⟨p, hp, heq⟩ := List.mem_map.mp hmem
          rw [← heq]
          exact h.pairs_lt p hp
        events_lt := by
          intro e he a ha
          rw [hnext]
          rcases List.mem_append.mp he with he | he
          · rcases List.mem_append.mp he with he | he
            · exact h.events_lt e he a ha
            · exact absurd ha (hnone a e he)
          · obtain ⟨p, hp, hpair⟩ := mem_walkEvents (fun p hp => (h.tracked p hp).request) he
            obtain rfl := Option.some.inj (hpair.symm.trans ha)
            exact h.pairs_lt p hp }
  · have hevents : dataEvents flt o.flow = [] := if_neg hpass
    have hflow : (MonitoringTool.Sniffer.extractData flt o.flow).1 = o.flow := by
      unfold MonitoringTool.Sniffer.extractData
      rw [if_neg hpass]
    rw [hevents, hflow, List.append_nil]
    exact h

theorem ObserveInv.step (h : ObserveInv o) {o' : Observed} {c : Call}
    (hs : observeStep flt rspHdlen o c = some o') : ObserveInv o' := by
  cases c with
  | addPacket now packet src =>
      obtain ⟨f, hf, rfl⟩ := Option.map_eq_some_iff.mp hs
      obtain ⟨-, rfl⟩ := (Flow.receive_eq_some o.flow now packet src).mp hf
      obtain ⟨hpairs, hnext, -, hprocessed⟩ := Flow.addPacket_pairs o.flow now packet src
      obtain ⟨hwell, hnewFlow, htracked, hnodup, hpairs_lt, hevents_lt⟩ := h
      rw [← hpairs] at htracked hnodup hpairs_lt
      rw [← hnext] at hpairs_lt hevents_lt
      rw [← hprocessed] at hnewFlow
      exact ⟨hwell, hnewFlow, htracked, hnodup, hpairs_lt, hevents_lt⟩
  | extractPair closed =>
      obtain ⟨⟨f, ret⟩, hcall, rfl⟩ := Option.map_eq_some_iff.mp hs
      exact h.extractPair hcall
  | extractData =>
      obtain rfl := Option.some.inj hs
      exact h.extractData

variable (flt rspHdlen)

/-- **Notifications are at most once and in order**, in every state that any calls on a
new flow reach.  Without the deletions the events are what `extractData` notifies. -/
theorem notified_in_order (mem : Flow) (s : FlowS) (calls : List Call) :
    EveryState (observeStep flt rspHdlen) (fun o => WellNotified o.events)
        (.start mem s) calls ∧
      (run (observeStep flt rspHdlen) (.start mem s) calls).map Observed.watched =
        run (callStep flt rspHdlen) ⟨Flow.new mem s, []⟩ calls := by
  have hstart : ObserveInv (.start mem s) := by
    constructor <;> simp [Observed.start, Flow.new, wellNotified_nil]
  refine ⟨?_, run_map (observeStep_watched flt rspHdlen) (.start mem s) calls⟩
  intro before _ o hrun
  exact (run_inv (fun _ _ _ h hs => ObserveInv.step h hs) hstart hrun).well

end Runs

end MonitoringTool.Sniffer
