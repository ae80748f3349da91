import MonitoringTool.Lib.ListModify
import MonitoringTool.Sniffer.ExtractPair

/-!
# What `extractPair` does to the pair chain

One call leaves every pair of the chain in its place, at most with a response
more or with a longer one, and appends the pairs it opens
(`extractPair_spec`).
-/

namespace MonitoringTool.Sniffer

open Lib

/-- `q` is `p`, perhaps with a response attached or a longer one: the object and
its request are the same, and no response becomes processed. -/
structure Pair.Extends (p q : Pair) : Prop where
  addr : q.addr = p.addr
  request : q.requestHeader = p.requestHeader
  reqTotalLen : q.reqTotalLen = p.reqTotalLen
  response : q.responseHeader.map (·.processed) = p.responseHeader.map (·.processed) ∨
    (p.responseHeader = none ∧ q.responseHeader.map (·.processed) = some false)

theorem Pair.Extends.refl (p : Pair) : p.Extends p := ⟨rfl, rfl, rfl, .inl rfl⟩

theorem Pair.Extends.trans {p q r : Pair} (hpq : p.Extends q) (hqr : q.Extends r) :
    p.Extends r where
  addr := hqr.addr.trans hpq.addr
  request := hqr.request.trans hpq.request
  reqTotalLen := hqr.reqTotalLen.trans hpq.reqTotalLen
  response := by
    rcases hqr.response with h | ⟨hq, hr⟩
    · rw [h]
      exact hpq.response
    · rcases hpq.response with h' | ⟨-, hq'⟩
      · refine .inr ⟨?_, hr⟩
        simpa [hq] using h'.symm
      · simp [hq] at hq'

/-! ## The request walk -/

theorem Pair.isSome_of_unread {p : Pair} (h : p.requestHeader.map (·.processed) = some false) :
    p.requestHeader.isSome = true := by
  have hsome := congrArg Option.isSome h
  simpa using hsome

/-- The chain `P` with the pairs the request walk has opened since, numbered from
`n` on, each with its request, which is not processed, and without a response. -/
structure OpenedFrom (P : List Pair) (n : Nat) (new : List Pair) (st : ReqState) : Prop where
  pairs : st.pairs = P ++ new
  addrs : new.map (·.addr) = List.range' n new.length
  nextPair : st.nextPair = n + new.length
  reqn : st.reqn = new.length
  newPair : ∀ i first, st.newPair = some (i, first) → P.length ≤ i
  fresh : ∀ p ∈ new, p.requestHeader.map (·.processed) = some false ∧ p.responseHeader = none

section Requests

variable {P new : List Pair} {n : Nat} {st : ReqState}

theorem OpenedFrom.openPair (h : OpenedFrom P n new st) (seq : SeqT) (pkt : PacketT) :
    ∃ new', OpenedFrom P n new' (st.openPair seq pkt) := by
  obtain ⟨pair, hpairs, haddr, hreq, hrsp⟩ : ∃ pair : Pair, (st.openPair seq pkt).pairs =
      st.pairs ++ [pair] ∧ pair.addr = st.nextPair ∧
        pair.requestHeader.map (·.processed) = some false ∧ pair.responseHeader = none :=
    ⟨_, rfl, rfl, rfl, rfl⟩
  refine ⟨new ++ [pair], ?_, ?_, ?_, ?_, ?_, ?_⟩
  · rw [hpairs, h.pairs, List.append_assoc]
  · rw [List.map_append, h.addrs, List.length_append, List.length_singleton, ← List.range'_append_1]
    simp [haddr, h.nextPair]
  · show st.nextPair + 1 = _
    rw [h.nextPair, List.length_append, List.length_singleton, Nat.add_assoc]
  · show st.reqn + 1 = _
    rw [h.reqn, List.length_append, List.length_singleton]
  · intro i first hi
    obtain ⟨rfl, -⟩ : st.pairs.length = i ∧ seq.seq = first := by
      simpa [ReqState.openPair] using hi
    simp [h.pairs]
  · intro p hp
    rcases List.mem_append.mp hp with hp | hp
    · exact h.fresh p hp
    · obtain rfl := List.mem_singleton.mp hp
      exact ⟨hreq, hrsp⟩

theorem OpenedFrom.closePair (h : OpenedFrom P n new st) (seq : SeqT) :
    ∃ new', OpenedFrom P n new' (st.closePair seq) := by
  unfold ReqState.closePair
  cases hnew : st.newPair with
  | none => exact ⟨new, h⟩
  | some place =>
      obtain ⟨i, first⟩ := place
      have hi := h.newPair i first hnew
      by_cases hzero : seq.nxtSeq = 0
      · refine ⟨new, ?_, h.addrs, h.nextPair, h.reqn, ?_, h.fresh⟩
        · simpa [hzero] using h.pairs
        · simpa [hnew] using hi
      · have haddr : ∀ p : Pair, (p.endRequest seq first).addr = p.addr := fun _ => rfl
        have hfresh : ∀ p : Pair,
            (p.requestHeader.map (·.processed) = some false ∧ p.responseHeader = none) →
            (p.endRequest seq first).requestHeader.map (·.processed) = some false ∧
              (p.endRequest seq first).responseHeader = none := fun _ hp => hp
        refine ⟨new.modify (i - P.length) (·.endRequest seq first), ?_, ?_, ?_, ?_, ?_, ?_⟩
        · simp [hzero, h.pairs, modify_append_right hi]
        · rw [map_modify_of_eq haddr, h.addrs, List.length_modify]
        · simpa using h.nextPair
        · simpa using h.reqn
        · simpa [hnew] using hi
        · exact forall_modify hfresh h.fresh _

end Requests

/-- **The request walk** appends the pairs it opens and counts them. -/
theorem findRequests_spec {f : Flow} {closed : Bool} {st : ReqState}
    (h : f.findRequests closed = some st) : ∃ new, OpenedFrom f.pairs f.nextPair new st := by
  have hstart : ∃ new, OpenedFrom f.pairs f.nextPair new
      ⟨[], f.pairs, f.nextPair, none, 0, (f.lbSec, f.lbUsec)⟩ :=
    ⟨[], by simp, rfl, rfl, rfl, by simp, by simp⟩
  have hnodes : ∀ (st : ReqState) (ns : List SeqT),
      (∃ new, OpenedFrom f.pairs f.nextPair new st) →
        ∃ new, OpenedFrom f.pairs f.nextPair new { st with nodes := ns } := by
    rintro st ns ⟨new, h⟩
    exact ⟨new, h.pairs, h.addrs, h.nextPair, h.reqn, h.newPair, h.fresh⟩
  exact reqLoop_inv (fun st => ∃ new, OpenedFrom f.pairs f.nextPair new st) hnodes
    (fun st seq pkt ⟨_, h⟩ => h.openPair seq pkt) (fun st seq ⟨_, h⟩ => h.closePair seq) hstart h

/-! ## The response walk -/

section Responses

variable (rspHdlen : Option (List UInt8) → UInt16 → Int)

theorem Pair.extends_startResponse (p : Pair) (seq : SeqT) (pkt : PacketT) :
    p.Extends (p.startResponse rspHdlen seq pkt) where
  addr := rfl
  request := rfl
  reqTotalLen := rfl
  response := by
    cases hrsp : p.responseHeader with
    | none => exact .inr ⟨rfl, by simp [Pair.startResponse, Pair.addResponse, hrsp, getResponse]⟩
    | some rsp => exact .inl (by simp [Pair.startResponse, Pair.addResponse, hrsp])

theorem Pair.extends_appendSeq (p : Pair) (seq : SeqT) (firstPacket : Bool) :
    p.Extends (p.appendSeq seq firstPacket) where
  addr := rfl
  request := rfl
  reqTotalLen := rfl
  response := by
    left
    cases hrsp : p.responseHeader <;> simp [Pair.appendSeq, hrsp, Response.append]

theorem Pair.extends_endResponse (p : Pair) (seq : SeqT) (first : UInt32) :
    p.Extends (p.endResponse seq first) := by
  unfold Pair.endResponse
  split <;> exact ⟨rfl, rfl, rfl, .inl rfl⟩

/-- A store that extends a pair keeps the chain extended. -/
theorem extends_modify {l l' : List Pair} (h : List.Forall₂ Pair.Extends l l') (i : Nat)
    {g : Pair → Pair} (hg : ∀ p : Pair, p.Extends (g p)) :
    List.Forall₂ Pair.Extends l (l'.modify i g) :=
  forall₂_trans (fun p q r (hpq : p.Extends q) (hqr : q.Extends r) => hpq.trans hqr) h
    (forall₂_modify Pair.Extends.refl hg l' i)

/-- **The response walk** only extends pairs. -/
theorem rspLoop_extends {fin : Option SeqT} {st st' : RspState} {nodes : List SeqT} {ret : Int}
    (h : rspLoop rspHdlen fin st nodes = some (st', ret)) :
    List.Forall₂ Pair.Extends st.pairs st'.pairs := by
  refine rspLoop_inv (fun st' => List.Forall₂ Pair.Extends st.pairs st'.pairs)
    (fun st ns h => h) (fun st tmp h => h) ?_ ?_
    (List.forall₂_same.mpr fun p _ => Pair.Extends.refl p) h
  · intro st i seq pkt h
    exact extends_modify h i fun p => p.extends_startResponse rspHdlen seq pkt
  · intro st seq next h
    unfold RspState.extend
    cases hfound : st.foundPair with
    | none => exact h
    | some place =>
        obtain ⟨i, first⟩ := place
        have happend := extends_modify h i fun p => p.extends_appendSeq seq st.firstPacket
        dsimp only
        split
        · exact extends_modify happend i fun p => p.extends_endResponse seq first
        · exact happend

theorem findResponses_spec {f : Flow} {fin : Option SeqT} {st : RspState} {ret : Int}
    (h : f.findResponses rspHdlen fin = some (st, ret)) :
    List.Forall₂ Pair.Extends f.pairs st.pairs :=
  rspLoop_extends rspHdlen h

/-! ## The call -/

/-- **One call of `extractPair`** extends the pairs of the chain and appends new
ones, numbered on, each with its request, and nothing of them processed. -/
theorem extractPair_spec {f f' : Flow} {closed : Bool} {ret : Int}
    (h : extractPair rspHdlen f closed = some (f', ret)) :
    ∃ old new, f'.pairs = old ++ new ∧ List.Forall₂ Pair.Extends f.pairs old ∧
      new.map (·.addr) = List.range' f.nextPair new.length ∧
      f'.nextPair = f.nextPair + new.length ∧
      (∀ p ∈ new, p.requestHeader.map (·.processed) = some false ∧
        p.responseHeader.map (·.processed) ≠ some true) ∧
      f'.socket = f.socket ∧ f'.processed = f.processed := by
  obtain ⟨-, hpairs, hnext, hsocket, hprocessed⟩ := f.setFirstByte_frame
  obtain ⟨st, hreq, hrest⟩ := Option.bind_eq_some_iff.mp h
  obtain ⟨new, hnew⟩ := findRequests_spec hreq
  rw [hpairs, hnext] at hnew
  by_cases hzero : st.reqn = 0
  · obtain ⟨rfl, -⟩ : f.setFirstByte.afterRequests st = f' ∧ 1 = ret := by simpa [hzero] using hrest
    exact ⟨f.pairs, new, hnew.pairs, List.forall₂_same.mpr fun p _ => Pair.Extends.refl p,
      hnew.addrs,
      hnew.nextPair, fun p hp => ⟨(hnew.fresh p hp).1, by simp [(hnew.fresh p hp).2]⟩, hsocket,
      hprocessed⟩
  · rw [if_neg hzero] at hrest
    obtain ⟨⟨st', ret'⟩, hrsp, hf'⟩ := Option.map_eq_some_iff.mp hrest
    obtain ⟨rfl, -⟩ : (f.setFirstByte.afterRequests st).afterResponses st' = f' ∧ ret' = ret := by
      simpa using hf'
    have hext : List.Forall₂ Pair.Extends (f.pairs ++ new) st'.pairs := by
      rw [← hnew.pairs]
      exact findResponses_spec rspHdlen hrsp
    obtain ⟨old', new', hsplit, hold, hfresh⟩ := forall₂_append_split hext
    have haddrs := map_eq_of_forall₂ (fun (p q : Pair) (hpq : p.Extends q) => hpq.addr) hfresh
    have hlen := hfresh.length_eq
    refine ⟨old', new', hsplit, hold, ?_, ?_, ?_, hsocket, hprocessed⟩
    · rw [haddrs, hnew.addrs, hlen]
    · rw [← hlen]
      exact hnew.nextPair
    · intro q hq
      obtain ⟨p, hp, hpq⟩ := exists_of_mem_forall₂ hfresh hq
      obtain ⟨hp₁, hp₂⟩ := hnew.fresh p hp
      refine ⟨hpq.request ▸ hp₁, ?_⟩
      rcases hpq.response with hr | ⟨-, hr⟩
      · simp [hr, hp₂]
      · simp [hr]

variable {f f' : Flow} {closed : Bool} {ret : Int}

/-- A pair after the call was in the chain, or is a new one. -/
theorem extractPair_mem (h : extractPair rspHdlen f closed = some (f', ret)) {q : Pair}
    (hq : q ∈ f'.pairs) :
    (∃ p ∈ f.pairs, p.Extends q) ∨ (f.nextPair ≤ q.addr ∧ q.addr < f'.nextPair) ∧
      q.requestHeader.map (·.processed) = some false ∧
        q.responseHeader.map (·.processed) ≠ some true := by
  obtain ⟨old, new, hpairs, hold, haddrs, hnext, hnew, -, -⟩ := extractPair_spec rspHdlen h
  rcases List.mem_append.mp (hpairs ▸ hq) with hq | hq
  · exact .inl (exists_of_mem_forall₂ hold hq)
  · have hmem : q.addr ∈ new.map (·.addr) := List.mem_map_of_mem hq
    rw [haddrs, List.mem_range'_1, ← hnext] at hmem
    exact .inr ⟨hmem, hnew q hq⟩

/-- The numbers of the pairs: those from before, and the next ones. -/
theorem extractPair_addrs (h : extractPair rspHdlen f closed = some (f', ret)) :
    ∃ n, f'.nextPair = f.nextPair + n ∧
      f'.pairs.map (·.addr) = f.pairs.map (·.addr) ++ List.range' f.nextPair n := by
  obtain ⟨old, new, hpairs, hold, haddrs, hnext, -, -, -⟩ := extractPair_spec rspHdlen h
  have hmap : old.map (·.addr) = f.pairs.map (·.addr) :=
    map_eq_of_forall₂ (fun (p q : Pair) (hpq : p.Extends q) => hpq.addr) hold
  exact ⟨new.length, hnext, by rw [hpairs, List.map_append, hmap, haddrs]⟩

theorem extractPair_nodup (h : extractPair rspHdlen f closed = some (f', ret))
    (hnodup : (f.pairs.map (·.addr)).Nodup) (hlt : ∀ p ∈ f.pairs, p.addr < f.nextPair) :
    (f'.pairs.map (·.addr)).Nodup := by
  obtain ⟨n, -, haddrs⟩ := extractPair_addrs rspHdlen h
  rw [haddrs]
  refine List.nodup_append.mpr ⟨hnodup, List.nodup_range', ?_⟩
  rintro a hold _ hnew rfl
  obtain ⟨p, hp, rfl⟩ := List.mem_map.mp hold
  have hge := (List.mem_range'_1.mp hnew).1
  have hless := hlt p hp
  omega

end Responses

end MonitoringTool.Sniffer
