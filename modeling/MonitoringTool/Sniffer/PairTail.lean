import MonitoringTool.Sniffer.PairWalks

/-!
# The pair chain keeps its tail

Runs of `add_packet`, `extractPair` and `extractData` on a flow whose pairs lie in memory.  Every
call that goes through is the call of the lists (`memStep_sim`), so that the chain always holds
the pairs of the flow in `ExtractData`.  The other way round, a call of the lists goes through in
memory as soon as `new` answers addresses that are not in use (`memStep_defined`): no call follows
a pointer to a deleted pair.

`pair_chain_keeps_tail` is what this says about `pair_f` and `pair_e`.
-/

namespace MonitoringTool.Sniffer

open Lib

/-! ## The calls -/

/-- A flow with its pairs in memory.  The other members are those of `flow`, whose `pairs` are not
used. -/
structure MemFlow where
  flow : Flow
  chain : PairChain

namespace MemFlow

/-- The flow as the request walk leaves it. -/
def afterRequests (flow : Flow) (w : ReqWalk) : MemFlow :=
  ⟨{ flow with
    order := flow.order.setDir true (flow.order.src.setNodes w.nodes)
    nextPair := w.nextPair
    lbSec := w.last.1
    lbUsec := w.last.2 }, w.chain⟩

/-- The flow as the response walk leaves it. -/
def afterResponses (flow : Flow) (w : RspWalk) : MemFlow :=
  ⟨{ flow with
    order := flow.order.setDir false (flow.order.dst.setNodes w.nodes)
    lbSec := w.last.1
    lbUsec := w.last.2 }, w.chain⟩

/-- `Protocol::extractPair`, where `new` answers the addresses `news`. -/
def extractPair (rspHdlen : Option (List UInt8) → UInt16 → Int) (fuel : ℕ) (f : MemFlow)
    (closed : Bool) (news : List ℕ) : Option (MemFlow × Int) :=
  let flow := f.flow.setFirstByte
  (ReqWalk.loop flow.finSeq closed
    ⟨[], f.chain, news, flow.nextPair, none, 0, (flow.lbSec, flow.lbUsec)⟩
    flow.order.src.nodes).bind fun w =>
      let f := afterRequests flow w
      if w.reqn = 0 then some (f, 1)
      else
        (RspWalk.loop rspHdlen fuel flow.finSeq
          ⟨[], f.chain, f.chain.pairF, none, false, (f.flow.lbSec, f.flow.lbUsec)⟩
          f.flow.order.dst.nodes).map fun (w, ret) => (afterResponses f.flow w, ret)

/-- `Protocol::extractData`. -/
def extractData (flt : FlowFilter) (fuel : ℕ) (f : MemFlow) :
    Option (MemFlow × List Notification) :=
  if flt.passes f.flow.socket then
    let newFlow := if f.flow.processed then [] else [Notification.newFlowReceived]
    (f.chain.dataWalk fuel f.chain.pairF).map fun (c, notes) =>
      (⟨{ f.flow with processed := true }, c⟩, newFlow ++ .flowUpdate :: notes)
  else some (f, [])

end MemFlow

/-- The flow with other pairs. -/
def Flow.withPairs (f : Flow) (pairs : List Pair) : Flow := { f with pairs := pairs }

@[simp] theorem Flow.withPairs_socket (f : Flow) (pairs : List Pair) :
    (f.withPairs pairs).socket = f.socket := rfl

theorem Flow.setFirstByte_withPairs (f : Flow) (pairs : List Pair) :
    (f.withPairs pairs).setFirstByte = f.setFirstByte.withPairs pairs := by
  unfold Flow.setFirstByte
  cases hinit : f.init with
  | true => simp [Flow.withPairs, hinit]
  | false => cases hfirst : firstByte f.order.src.nodes <;> simp [Flow.withPairs, hinit, hfirst]

theorem Flow.calPacket_withPairs (f : Flow) (pairs : List Pair) (now : Clock) (packet : PacketT)
    (src : Bool) : (f.withPairs pairs).calPacket now packet src =
      (f.calPacket now packet src).withPairs pairs := by
  cases src <;> rfl

/-- `add_packet` does not look at the pairs. -/
theorem Flow.addPacket_withPairs (f : Flow) (pairs : List Pair) (now : Clock) (packet : PacketT)
    (src : Bool) : ((f.withPairs pairs).addPacket now packet src).flow =
      (f.addPacket now packet src).flow.withPairs pairs := by
  unfold Flow.addPacket
  have hcal := fun f : Flow => f.calPacket_withPairs pairs now
  have hhook : (f.withPairs pairs).hookPacket packet src =
      (f.hookPacket packet src).withPairs pairs := by
    cases src <;> rfl
  by_cases hrst : hasFlag packet.tcpFlags TH_RST = true
  · rw [if_pos hrst, if_pos hrst]
    by_cases hn : f.pktsSrc < 4
    · rw [if_pos hn, if_pos (show (f.withPairs pairs).pktsSrc < 4 from hn)]
    · rw [if_neg hn, if_neg (show ¬ (f.withPairs pairs).pktsSrc < 4 from hn), hcal]
      rfl
  · rw [if_neg hrst, if_neg hrst]
    by_cases hfin : hasFlag packet.tcpFlags TH_FIN = true
    · rw [if_pos hfin, if_pos hfin]
      cases src <;> rfl
    · rw [if_neg hfin, if_neg hfin]
      by_cases hsyn : src = true ∧ packet.tcpFlags = TH_SYN
      · rw [if_pos hsyn, if_pos hsyn]
        by_cases hn : f.pktsSrc = 0
        · rw [if_pos hn, if_pos (show (f.withPairs pairs).pktsSrc = 0 from hn)]
          exact hcal (f.setSyn packet) _ src
        · rw [if_neg hn, if_neg (show ¬ (f.withPairs pairs).pktsSrc = 0 from hn)]
          exact hcal (f.reset.setSyn packet) _ src
      · rw [if_neg hsyn, if_neg hsyn]
        by_cases htype : packet.type = 0
        · rw [if_neg (not_not.mpr htype), if_neg (not_not.mpr htype)]
          exact hcal f packet src
        · rw [if_pos htype, if_pos htype, hhook]
          exact hcal (f.hookPacket packet src) packet src

/-! ## The calls are those of the lists -/

/-- The flow of `f`, with the pairs its chain holds. -/
def MemFlow.Holds (f : MemFlow) (g : Flow) : Prop :=
  ∃ l, f.chain.Holds l ∧ g = f.flow.withPairs (l.map Prod.snd)

namespace MemFlow.Holds

variable {f f' : MemFlow} {g : Flow} {rspHdlen : Option (List UInt8) → UInt16 → Int}
  {flt : FlowFilter} {fuel : ℕ} {closed : Bool} {news : List ℕ}

theorem extractPair {ret : Int} (h : f.Holds g)
    (hcall : f.extractPair rspHdlen fuel closed news = some (f', ret)) :
    ∃ g', Sniffer.extractPair rspHdlen g closed = some (g', ret) ∧ f'.Holds g' := by
  obtain ⟨l, hl, rfl⟩ := h
  obtain ⟨w, hw, hcall⟩ := Option.bind_eq_some_iff.mp hcall
  have hstart := ReqWalk.sim_start hl news f.flow.setFirstByte.nextPair
    (f.flow.setFirstByte.lbSec, f.flow.setFirstByte.lbUsec)
  obtain ⟨st, hst, hsim⟩ := hstart.loop hw
  rw [Sniffer.extractPair, Flow.setFirstByte_withPairs, Flow.findPairs]
  have hfind : (f.flow.setFirstByte.withPairs (l.map Prod.snd)).findRequests closed = some st := hst
  rw [hfind, Option.bind_some]
  obtain ⟨l₁, ref, hl₁, -, rfl⟩ := hsim
  dsimp only at hcall ⊢
  by_cases hreqn : w.reqn = 0
  · rw [if_pos hreqn] at hcall ⊢
    obtain ⟨rfl, rfl⟩ := Prod.mk.inj (Option.some.inj hcall)
    exact ⟨_, rfl, l₁, hl₁, rfl⟩
  · rw [if_neg hreqn] at hcall ⊢
    obtain ⟨⟨w', ret'⟩, hw', hres⟩ := Option.map_eq_some_iff.mp hcall
    obtain ⟨rfl, rfl⟩ := Prod.mk.inj hres
    obtain ⟨st', hst', hsim'⟩ := (RspWalk.sim_start hl₁ w.last).loop hw'
    obtain ⟨l₂, tmp, ref', hl₂, -, -, rfl⟩ := hsim'
    refine ⟨_, Option.map_eq_some_iff.mpr ⟨_, hst', rfl⟩, l₂, hl₂, rfl⟩

theorem extractData {notes : List Notification} (h : f.Holds g)
    (hcall : f.extractData flt fuel = some (f', notes)) :
    f'.Holds (Sniffer.extractData flt g).1 ∧ notes = (Sniffer.extractData flt g).2 := by
  obtain ⟨l, hl, rfl⟩ := h
  unfold MemFlow.extractData at hcall
  unfold Sniffer.extractData
  rw [Flow.withPairs_socket]
  by_cases hpass : flt.passes f.flow.socket = true
  · rw [if_pos hpass] at hcall ⊢
    obtain ⟨⟨c, ns⟩, hwalk, hres⟩ := Option.map_eq_some_iff.mp hcall
    obtain ⟨rfl, rfl⟩ := Prod.mk.inj hres
    obtain ⟨c', l', hwalk', hl', hvals⟩ :=
      @PairChain.Holds.dataWalk f.chain [] l (l.length + fuel) hl (Nat.le_add_right _ _)
    rw [← hl.nodes.first] at hwalk'
    have hsame := (PairChain.dataWalk_mono hwalk l.length).symm.trans (Nat.add_comm _ _ ▸ hwalk')
    obtain ⟨rfl, rfl⟩ := Prod.mk.inj (Option.some.inj hsame)
    refine ⟨⟨l', hl', ?_⟩, rfl⟩
    dsimp only
    rw [hvals]
    rfl
  · rw [if_neg hpass] at hcall ⊢
    obtain ⟨rfl, rfl⟩ := Prod.mk.inj (Option.some.inj hcall)
    exact ⟨⟨l, hl, rfl⟩, rfl⟩

theorem receive {now : Clock} {packet : PacketT} {src : Bool} {flow : Flow} (h : f.Holds g)
    (hcall : f.flow.receive now packet src = some flow) :
    ∃ g', g.receive now packet src = some g' ∧ MemFlow.Holds ⟨flow, f.chain⟩ g' := by
  obtain ⟨l, hl, rfl⟩ := h
  obtain ⟨hdrop, rfl⟩ := (Flow.receive_eq_some _ _ _ _).mp hcall
  exact ⟨_, (Flow.receive_eq_some _ _ _ _).mpr ⟨hdrop, rfl⟩, l, hl,
    Flow.addPacket_withPairs _ _ _ _ _⟩

/-- `extractPair` goes through if it does on the lists, given an address for every node. -/
theorem extractPair_defined {r : Flow × Int} (h : f.Holds g) (hunused : f.chain.Unused news)
    (henough : f.flow.order.src.nodes.length ≤ news.length)
    (hcall : Sniffer.extractPair rspHdlen g closed = some r) :
    ∃ k, ∀ fuel, k ≤ fuel → ∃ r', f.extractPair rspHdlen fuel closed news = some r' := by
  obtain ⟨l, hl, rfl⟩ := h
  rw [Sniffer.extractPair, Flow.setFirstByte_withPairs, Flow.findPairs] at hcall
  obtain ⟨st, hst, hcall⟩ := Option.bind_eq_some_iff.mp hcall
  have hstart := ReqWalk.sim_start hl news f.flow.setFirstByte.nextPair
    (f.flow.setFirstByte.lbSec, f.flow.setFirstByte.lbUsec)
  have hnodes : f.flow.setFirstByte.order.src.nodes.length ≤ news.length := by
    rw [f.flow.setFirstByte_frame.1]
    exact henough
  have hlists : reqLoop f.flow.setFirstByte.finSeq closed _ f.flow.setFirstByte.order.src.nodes =
      some st := hst
  obtain ⟨w, hw⟩ := hstart.loop_defined ⟨hunused, hnodes⟩ hlists
  obtain ⟨st', hst', hsim⟩ := hstart.loop hw
  obtain rfl := Option.some.inj (hst'.symm.trans hlists)
  obtain ⟨l₁, ref, hl₁, -, rfl⟩ := hsim
  refine ⟨l₁.length, fun fuel hfuel => ?_⟩
  rw [MemFlow.extractPair, hw, Option.bind_some]
  dsimp only at hcall ⊢
  by_cases hreqn : w.reqn = 0
  · rw [if_pos hreqn]
    exact ⟨_, rfl⟩
  · rw [if_neg hreqn] at hcall ⊢
    obtain ⟨⟨st₂, ret⟩, hst₂, -⟩ := Option.map_eq_some_iff.mp hcall
    have hrel := @RspWalk.Sim.loop_rel _ _ f.flow.setFirstByte.finSeq rspHdlen
      f.flow.setFirstByte.order.dst.nodes fuel (RspWalk.sim_start hl₁ w.last)
      (by simpa using hfuel)
    have hlists₂ : rspLoop rspHdlen f.flow.setFirstByte.finSeq
        ⟨[], l₁.map Prod.snd, 0, none, false, w.last⟩ f.flow.setFirstByte.order.dst.nodes =
          some (st₂, ret) := hst₂
    rw [hlists₂] at hrel
    obtain ⟨r', hr', -⟩ := exists_of_rel_right hrel
    exact ⟨_, Option.map_eq_some_iff.mpr ⟨r', hr', rfl⟩⟩

/-- `extractData` always goes through. -/
theorem extractData_defined (h : f.Holds g) (flt : FlowFilter) :
    ∃ k, ∀ fuel, k ≤ fuel → ∃ r, f.extractData flt fuel = some r := by
  obtain ⟨l, hl, -⟩ := h
  refine ⟨l.length, fun fuel hfuel => ?_⟩
  obtain ⟨c, l', hwalk, -, -⟩ := @PairChain.Holds.dataWalk f.chain [] l fuel hl hfuel
  rw [← hl.nodes.first] at hwalk
  unfold MemFlow.extractData
  split
  · exact ⟨_, Option.map_eq_some_iff.mpr ⟨_, hwalk, rfl⟩⟩
  · exact ⟨_, rfl⟩

end MemFlow.Holds

/-- A flow with its pairs in memory, and everything notified about it so far. -/
structure MemWatched where
  flow : MemFlow
  notes : List Notification

/-- A call, with the addresses `new` answers in it and how many pairs one of its walks may
visit. -/
structure MemCall where
  call : Call
  news : List ℕ
  fuel : ℕ

section Calls

variable (flt : FlowFilter) (rspHdlen : Option (List UInt8) → UInt16 → Int)

/-- One call, as in `callStep`. -/
def memStep (w : MemWatched) (c : MemCall) : Option MemWatched :=
  match c.call with
  | .addPacket now packet src =>
      (w.flow.flow.receive now packet src).map fun f =>
        { w with flow := { w.flow with flow := f } }
  | .extractPair closed =>
      (w.flow.extractPair rspHdlen c.fuel closed c.news).map fun r => { w with flow := r.1 }
  | .extractData =>
      (w.flow.extractData flt c.fuel).map fun r => ⟨r.1, w.notes ++ r.2⟩

/-- The flow as the lists have it. -/
def MemWatched.Holds (w : MemWatched) (v : Watched) : Prop :=
  w.flow.Holds v.flow ∧ w.notes = v.notes

variable {w w' : MemWatched} {v v' : Watched} {c : MemCall}

theorem memStep_sim (h : w.Holds v) (hstep : memStep flt rspHdlen w c = some w') :
    ∃ v', callStep flt rspHdlen v c.call = some v' ∧ w'.Holds v' := by
  obtain ⟨call, news, fuel⟩ := c
  obtain ⟨hflow, hnotes⟩ := h
  cases call with
  | addPacket now packet src =>
      obtain ⟨f, hf, rfl⟩ := Option.map_eq_some_iff.mp hstep
      obtain ⟨g, hg, hholds⟩ := hflow.receive hf
      exact ⟨_, Option.map_eq_some_iff.mpr ⟨g, hg, rfl⟩, hholds, hnotes⟩
  | extractPair closed =>
      obtain ⟨⟨f, ret⟩, hf, rfl⟩ := Option.map_eq_some_iff.mp hstep
      obtain ⟨g, hg, hholds⟩ := hflow.extractPair hf
      exact ⟨_, Option.map_eq_some_iff.mpr ⟨(g, ret), hg, rfl⟩, hholds, hnotes⟩
  | extractData =>
      obtain ⟨⟨f, notes⟩, hf, rfl⟩ := Option.map_eq_some_iff.mp hstep
      obtain ⟨hholds, rfl⟩ := hflow.extractData hf
      refine ⟨_, rfl, hholds, ?_⟩
      dsimp only
      rw [hnotes]

/-- A call of the lists goes through in memory, given an address for every node of the order list
and enough fuel. -/
theorem memStep_defined {call : Call} {news : List ℕ} (h : w.Holds v)
    (hunused : w.flow.chain.Unused news)
    (henough : w.flow.flow.order.src.nodes.length ≤ news.length)
    (hcall : callStep flt rspHdlen v call = some v') :
    ∃ k, ∀ fuel, k ≤ fuel → ∃ w', memStep flt rspHdlen w ⟨call, news, fuel⟩ = some w' := by
  obtain ⟨hflow, -⟩ := h
  cases call with
  | addPacket now packet src =>
      obtain ⟨l, hl, hv⟩ := hflow
      obtain ⟨f, hf, -⟩ := Option.map_eq_some_iff.mp hcall
      rw [hv] at hf
      obtain ⟨hdrop, -⟩ := (Flow.receive_eq_some _ _ _ _).mp hf
      have hreceive := (Flow.receive_eq_some w.flow.flow now packet src).mpr ⟨hdrop, rfl⟩
      exact ⟨0, fun fuel _ => ⟨_, Option.map_eq_some_iff.mpr ⟨_, hreceive, rfl⟩⟩⟩
  | extractPair closed =>
      obtain ⟨r, hr, -⟩ := Option.map_eq_some_iff.mp hcall
      obtain ⟨k, hk⟩ := hflow.extractPair_defined hunused henough hr
      refine ⟨k, fun fuel hfuel => ?_⟩
      obtain ⟨r', hr'⟩ := hk fuel hfuel
      exact ⟨_, Option.map_eq_some_iff.mpr ⟨r', hr', rfl⟩⟩
  | extractData =>
      obtain ⟨k, hk⟩ := hflow.extractData_defined flt
      refine ⟨k, fun fuel hfuel => ?_⟩
      obtain ⟨r', hr'⟩ := hk fuel hfuel
      exact ⟨_, Option.map_eq_some_iff.mpr ⟨r', hr', rfl⟩⟩

/-- A run in memory is a run of the lists. -/
theorem memStep_run {calls : List MemCall} (h : w.Holds v)
    (hrun : run (memStep flt rspHdlen) w calls = some w') :
    ∃ v', run (callStep flt rspHdlen) v (calls.map (·.call)) = some v' ∧ w'.Holds v' := by
  have hsim := @run_sim _ _ _ _ (memStep flt rspHdlen) (fun _ _ => True)
    (callStep flt rspHdlen) MemWatched.Holds (fun c => some c.call)
    (by intro s t e s' _ _ hskip; cases hskip)
    (by
      rintro s t e d s' hst - ⟨⟩ hstep
      exact memStep_sim flt rspHdlen hst hstep)
    w w' v calls h (fun _ _ _ _ _ => trivial) hrun
  rwa [List.filterMap_eq_map'] at hsim

/-! ## The tail -/

/-- `pair_f` is `NULL`, or the chain from it ends in `pair_e`, with no pair behind. -/
def PairChain.TailKept (c : PairChain) : Prop :=
  c.pairF = none ∨ ∃ l e pair, ListSeg c.mem c.pairF (l ++ [(e, pair)]) none ∧ c.pairE = some e ∧
    c.mem e = some ⟨pair, none⟩

theorem PairChain.Holds.tailKept {c : PairChain} {l : List (ℕ × Pair)} (hl : c.Holds l) :
    c.TailKept := by
  rcases List.eq_nil_or_concat' l with rfl | ⟨xs, ⟨e, pair⟩, rfl⟩
  · exact .inl hl.nodes
  · exact .inr ⟨xs, e, pair, hl.nodes, hl.last e (by simp), hl.nodes.node⟩

/-- **The pair chain keeps its tail.**  In every state that calls reach on a new flow, whatever
`pair_e` and the memory held before, `pair_f` is `NULL` or the chain from it ends in `pair_e`.  A
new pair is then appended to this chain, and that stays so; and the calls go on as those of the
lists do. -/
theorem pair_chain_keeps_tail (mem : Flow) (s : FlowS) (pairE : Option ℕ) (heap : NodeMemory Pair)
    (calls : List MemCall)
    (hrun : run (memStep flt rspHdlen) ⟨⟨Flow.new mem s, ⟨none, pairE, heap⟩⟩, []⟩ calls = some w) :
    w.flow.chain.TailKept ∧
      (∀ a pair, w.flow.chain.mem a = none → ∃ l c,
        ListSeg w.flow.chain.mem w.flow.chain.pairF l none ∧
          ((w.flow.chain.newPair a pair).bind fun c => c.addPair a) = some c ∧
          ListSeg c.mem c.pairF (l ++ [(a, pair)]) none ∧ c.TailKept) ∧
      ∃ v, run (callStep flt rspHdlen) ⟨Flow.new mem s, []⟩ (calls.map (·.call)) = some v ∧
        w.Holds v ∧
        ∀ call v' news, callStep flt rspHdlen v call = some v' → w.flow.chain.Unused news →
          w.flow.flow.order.src.nodes.length ≤ news.length →
            ∃ k, ∀ fuel, k ≤ fuel → ∃ w', memStep flt rspHdlen w ⟨call, news, fuel⟩ = some w' := by
  have hnew : MemWatched.Holds ⟨⟨Flow.new mem s, ⟨none, pairE, heap⟩⟩, []⟩ ⟨Flow.new mem s, []⟩ :=
    ⟨⟨[], PairChain.holds_nil pairE heap, rfl⟩, rfl⟩
  obtain ⟨v, hv, hholds⟩ := memStep_run flt rspHdlen hnew hrun
  obtain ⟨⟨l, hl, -⟩, -⟩ := id hholds
  refine ⟨hl.tailKept, ?_, v, hv, hholds, ?_⟩
  · intro a pair ha
    obtain ⟨c, hc, hl'⟩ := hl.append_defined ha pair
    exact ⟨l, c, hl.nodes, hc, hl'.nodes, hl'.tailKept⟩
  · intro call v' news hcall hunused henough
    exact memStep_defined flt rspHdlen hholds hunused henough hcall

end Calls

/-- Of the three pairs at 11, 12 and 13 the second one is deleted, and the chain begins behind
it. -/
theorem pair_chain_keeps_tail_second :
    ∃ w, run (memStep noFilter fun _ _ => 0) ⟨⟨webFlow, ⟨none, some 12, fun _ => none⟩⟩, []⟩
        (secondAnsweredFirst.map (⟨·, [11, 12, 13], 3⟩)) = some w ∧
      w.flow.chain.mem 12 = none ∧ w.flow.chain.pairF = some 13 ∧ w.flow.chain.TailKept := by
  have hend : ((run (memStep noFilter fun _ _ => 0)
      ⟨⟨webFlow, ⟨none, some 12, fun _ => none⟩⟩, []⟩
      (secondAnsweredFirst.map (⟨·, [11, 12, 13], 3⟩))).any fun w =>
        w.flow.chain.mem 12 = none ∧ w.flow.chain.pairF = some 13) = true := by
    decide
  simp only [Option.any_eq_true, decide_eq_true_eq] at hend
  obtain ⟨w, hrun, hdeleted, hfirst⟩ := hend
  exact ⟨w, hrun, hdeleted, hfirst, (pair_chain_keeps_tail noFilter (fun _ _ => 0) Flow.zero
    ⟨1, 2, 4000, 80⟩ (some 12) (fun _ => none) _ hrun).1⟩

end MonitoringTool.Sniffer
