import Mathlib.Data.List.TakeWhile
import MonitoringTool.Sniffer.PairChain

/-!
# What `extractPair` takes from the order lists

A walk processes a front part of its list: of these nodes it marks those whose
packet is of its type and was not processed before (`SeqT.process`), and it
touches no other node (`Processed`).

`requestLog` and `responseLog` name what one call makes of the packets: with
the address of a pair, the packet its request or its response is taken from.
`extractPair_nodes` says that these packets are among those marked.

`extractPair_defined` says when a call meets no null pointer.
-/

namespace MonitoringTool.Sniffer

open Lib

/-! ## Processed nodes -/

@[simp] theorem SeqT.process_thFlags (type : UInt8) (seq : SeqT) :
    (seq.process type).thFlags = seq.thFlags := by
  unfold SeqT.process
  split <;> rfl

@[simp] theorem SeqT.process_pkt (type : UInt8) (seq : SeqT) :
    (seq.process type).pkt = seq.pkt := by
  unfold SeqT.process
  split <;> rfl

/-- A processed node is not processed again. -/
@[simp] theorem unprocessed_process (type : UInt8) (seq : SeqT) :
    unprocessed type (seq.process type) = none := by
  cases h : unprocessed type seq with
  | none => rw [SeqT.process_of_none h, h]
  | some pkt =>
      rw [SeqT.process_of_some h]
      unfold unprocessed
      cases seq.pkt <;> simp

/-- The packets of a list that a walk for their type has not processed. -/
def pending (type : UInt8) (nodes : List SeqT) : List PacketT := nodes.filterMap (unprocessed type)

/-- A walk has processed a front part of the list and has taken the packets `taken`
there. -/
def Processed (type : UInt8) (nodes nodes' : List SeqT) (taken : List PacketT) : Prop :=
  ∃ done rest, nodes = done ++ rest ∧ nodes' = done.map (·.process type) ++ rest ∧
    taken.Sublist (pending type done)

namespace Processed

variable {type : UInt8} {nodes nodes' : List SeqT} {taken : List PacketT}

/-- No node was reached. -/
theorem refl (type : UInt8) (nodes : List SeqT) : Processed type nodes nodes [] :=
  ⟨[], nodes, rfl, rfl, List.nil_sublist _⟩

/-- One node more in front. -/
theorem cons (h : Processed type nodes nodes' taken) (seq : SeqT) {more : List PacketT}
    (hmore : more.Sublist (pending type [seq])) :
    Processed type (seq :: nodes) (seq.process type :: nodes') (more ++ taken) := by
  obtain ⟨done, rest, rfl, rfl, htaken⟩ := h
  refine ⟨seq :: done, rest, rfl, rfl, ?_⟩
  have hsplit : pending type (seq :: done) = pending type [seq] ++ pending type done :=
    List.filterMap_append (l := [seq])
  rw [hsplit]
  exact hmore.append htaken

/-- The walk has stopped behind the node. -/
theorem single (type : UInt8) (seq : SeqT) (rest : List SeqT) :
    Processed type (seq :: rest) (seq.process type :: rest) [] :=
  (Processed.refl type rest).cons _ (List.nil_sublist _)

theorem length_eq (h : Processed type nodes nodes' taken) : nodes'.length = nodes.length := by
  obtain ⟨done, rest, rfl, rfl, -⟩ := h
  simp

/-- What is not processed now was not processed before, and was not taken. -/
theorem pending_sublist (h : Processed type nodes nodes' taken) :
    (taken ++ pending type nodes').Sublist (pending type nodes) := by
  obtain ⟨done, rest, rfl, rfl, htaken⟩ := h
  have hdone : pending type (done.map (·.process type)) = [] := by
    simp [pending]
  unfold pending at hdone htaken ⊢
  rw [List.filterMap_append, List.filterMap_append, hdone, List.nil_append]
  exact htaken.append_right _

/-- What is true of every node, whether processed or not, stays true. -/
theorem forall_mem (h : Processed type nodes nodes' taken) {P : SeqT → Prop}
    (hP : ∀ n, P n → P (n.process type)) (hall : ∀ n ∈ nodes, P n) : ∀ n ∈ nodes', P n := by
  obtain ⟨done, rest, rfl, rfl, -⟩ := h
  intro n hn
  rcases List.mem_append.mp hn with hn | hn
  · obtain ⟨m, hm, rfl⟩ := List.mem_map.mp hn
    exact hP m (hall m (by simp [hm]))
  · exact hall n (by simp [hn])

end Processed

/-- The lists written back with as many nodes hold these nodes. -/
theorem SeqList.setNodes_nodes {lst : SeqList} {nodes : List SeqT}
    (h : nodes.length = lst.nodes.length) : (lst.setNodes nodes).nodes = nodes := by
  cases lst with
  | null => exact (List.length_eq_zero_iff.mp h).symm
  | withLast last =>
      have hlt : last.before.length < nodes.length := by
        rw [h]
        simp [SeqList.nodes, Cursor.nodes]
      obtain ⟨node, after, hdrop⟩ : ∃ node after, nodes.drop last.before.length = node :: after :=
        ⟨_, _, List.drop_eq_getElem_cons hlt⟩
      have hsplit := List.take_append_drop last.before.length nodes
      rw [hdrop] at hsplit
      simpa [SeqList.setNodes, hdrop, SeqList.nodes, Cursor.nodes] using hsplit

/-! ## The request walk -/

@[simp] theorem takeWhile_beforeFin_none (nodes : List SeqT) :
    nodes.takeWhile (beforeFin none) = nodes :=
  List.takeWhile_eq_self_iff.mpr fun _ _ => rfl

/-- **The requests found** are those before the FIN, numbered in their order. -/
theorem reqLog_eq (fin : Option SeqT) (addr : ℕ) (nodes : List SeqT) :
    reqLog fin addr nodes =
      (List.range' addr (pending REQ (nodes.takeWhile (beforeFin fin))).length).zip
        (pending REQ (nodes.takeWhile (beforeFin fin))) := by
  induction nodes generalizing addr with
  | nil => rfl
  | cons seq rest ih =>
      unfold reqLog pending
      rw [List.takeWhile_cons]
      split
      · cases hpkt : unprocessed REQ seq with
        | none =>
            rw [List.filterMap_cons_none hpkt]
            exact ih addr
        | some pkt =>
            rw [List.filterMap_cons_some hpkt]
            dsimp only
            rw [ih, List.length_cons, List.range'_succ, List.zip_cons_cons]
            rfl
      · rfl

theorem map_reqLog (fin : Option SeqT) (addr : ℕ) (nodes : List SeqT) :
    (reqLog fin addr nodes).map (·.2) = pending REQ (nodes.takeWhile (beforeFin fin)) := by
  rw [reqLog_eq]
  exact List.map_snd_zip (by simp)

section Requests

variable {fin : Option SeqT} {closed : Bool}

theorem closePair_frame (st : ReqState) (seq : SeqT) :
    (st.closePair seq).nodes = st.nodes ∧ (st.closePair seq).nextPair = st.nextPair := by
  unfold ReqState.closePair
  split <;> exact ⟨rfl, rfl⟩

/-- One node of the request walk. -/
theorem reqBody_frame {st st' : ReqState} {seq : SeqT} {next : Option SeqT}
    (h : reqBody fin closed st seq next = some st') :
    st'.nodes = st.nodes ++ [seq.process REQ] ∧
      st'.nextPair = st.nextPair + (pending REQ [seq]).length := by
  have henter : (st.enter seq).nodes = st.nodes ∧
      (st.enter seq).nextPair = st.nextPair + (pending REQ [seq]).length := by
    unfold ReqState.enter
    cases hpkt : unprocessed REQ seq <;> simp [pending, hpkt, ReqState.openPair]
  obtain ⟨hnodes, hnext⟩ := closePair_frame (st.enter seq) seq
  rcases reqBody_cases h with rfl | rfl
  · exact ⟨congrArg (· ++ _) henter.1, henter.2⟩
  · exact ⟨congrArg (· ++ _) (hnodes.trans henter.1), hnext.trans henter.2⟩

/-- The request walk processes a front part of the list and takes its requests. -/
theorem reqLoop_nodes {st st' : ReqState} {nodes : List SeqT}
    (h : reqLoop fin closed st nodes = some st') :
    ∃ nodes', st'.nodes = st.nodes ++ nodes' ∧
      Processed REQ nodes nodes' ((reqLog fin st.nextPair nodes).map (·.2)) := by
  induction nodes generalizing st with
  | nil =>
      obtain rfl : st = st' := Option.some.inj h
      exact ⟨[], by simp, Processed.refl REQ []⟩
  | cons seq rest ih =>
      unfold reqLoop at h
      unfold reqLog
      split at h
      · next hbefore =>
        rw [if_pos hbefore]
        obtain ⟨st₁, hbody, hrest⟩ := Option.bind_eq_some_iff.mp h
        obtain ⟨hnodes, hnext⟩ := reqBody_frame hbody
        obtain ⟨nodes', hst', hproc⟩ := ih hrest
        rw [hnext] at hproc
        refine ⟨seq.process REQ :: nodes', by simp [hst', hnodes], ?_⟩
        cases hpkt : unprocessed REQ seq with
        | none =>
            have hmore := hproc.cons seq (List.nil_sublist _)
            simpa [pending, hpkt] using hmore
        | some pkt =>
            have hmore := hproc.cons seq (List.Sublist.refl (pending REQ [seq]))
            simpa [pending, hpkt] using hmore
      · next hbefore =>
        rw [if_neg hbefore]
        obtain rfl := Option.some.inj h
        exact ⟨seq :: rest, rfl, Processed.refl REQ _⟩

/-- A closed flow, or one without a FIN node, has no null pointer for the request
walk. -/
theorem reqLoop_defined (h : closed = true ∨ fin = none) (st : ReqState) (nodes : List SeqT) :
    ∃ st', reqLoop fin closed st nodes = some st' := by
  have hend : ∀ (st : ReqState) seq next, ∃ st', st.endAt fin closed seq next = some st' := by
    intro st seq next
    obtain ⟨last, hlast⟩ : ∃ last, lastBit fin closed next = some last := by
      unfold lastBit
      rcases h with rfl | rfl
      · cases next <;> cases fin <;> exact ⟨_, rfl⟩
      · cases next <;> exact ⟨_, rfl⟩
    exact ⟨_, congrArg (Option.map _) hlast⟩
  induction nodes generalizing st with
  | nil => exact ⟨st, rfl⟩
  | cons seq rest ih =>
      obtain ⟨st₁, hbody⟩ : ∃ st₁, reqBody fin closed st seq rest.head? = some st₁ := by
        unfold reqBody
        cases unprocessed REQ seq with
        | some pkt =>
            obtain ⟨st₁, hst₁⟩ := hend (st.openPair seq pkt) seq rest.head?
            exact ⟨_, congrArg (Option.map _) hst₁⟩
        | none =>
            dsimp only
            split
            · exact ⟨_, rfl⟩
            · obtain ⟨st₁, hst₁⟩ := hend st seq rest.head?
              exact ⟨_, congrArg (Option.map _) hst₁⟩
      unfold reqLoop
      split
      · obtain ⟨st', hst'⟩ := ih st₁
        exact ⟨st', by rw [hbody]; exact hst'⟩
      · exact ⟨_, rfl⟩

end Requests

/-! ## The response walk -/

/-- Where every pair has its request, the search meets no null pointer. -/
theorem seekPair_defined {ack : UInt32} {tmp : ℕ} {pairs : List Pair}
    (h : ∀ p ∈ pairs, p.requestHeader.isSome) : ∃ r, seekPair ack tmp pairs = some r := by
  induction pairs generalizing tmp with
  | nil => exact ⟨_, rfl⟩
  | cons pair rest ih =>
      obtain ⟨req, hreq⟩ := Option.isSome_iff_exists.mp (h pair (by simp))
      unfold seekPair
      simp only [hreq]
      split
      · split
        · exact ⟨_, rfl⟩
        · exact ih fun p hp => h p (by simp [hp])
      · exact ⟨_, rfl⟩

section Responses

variable (rspHdlen : Option (List UInt8) → UInt16 → Int) {fin : Option SeqT}

theorem extend_nodes (st : RspState) (fin : Option SeqT) (seq : SeqT) (next : Option SeqT) :
    (st.extend fin seq next).nodes = st.nodes := by
  unfold RspState.extend
  split
  · rfl
  · dsimp only
    split <;> rfl

/-- The response walk processes a front part of the list and takes its responses
there. -/
theorem rspLoop_nodes {st st' : RspState} {ret : Int} {nodes : List SeqT}
    (h : rspLoop rspHdlen fin st nodes = some (st', ret)) :
    ∃ nodes', st'.nodes = st.nodes ++ nodes' ∧
      Processed RSP nodes nodes' ((rspLog rspHdlen fin st nodes).map (·.2)) := by
  induction nodes generalizing st with
  | nil =>
      obtain ⟨rfl, -⟩ : st = st' ∧ _ := by simpa [rspLoop] using h
      exact ⟨[], by simp, Processed.refl RSP []⟩
  | cons seq rest ih =>
      unfold rspLoop at h
      unfold rspLog
      split at h
      · next hbefore =>
        rw [if_pos hbefore]
        cases hpkt : unprocessed RSP seq with
        | some pkt =>
            have hproc : seq.process RSP = { seq with processed := true } :=
              SeqT.process_of_some hpkt
            simp only [hpkt] at h ⊢
            cases hseek : seekPair pkt.tcpAck st.tmp (st.pairs.drop st.tmp) with
            | none => simp [hseek] at h
            | some r =>
                rw [hseek] at h
                cases r with
                | exhausted =>
                    obtain ⟨rfl, -⟩ : _ = st' ∧ _ := by simpa using h
                    exact ⟨_, rfl, hproc ▸ Processed.single RSP seq rest⟩
                | stopped tmp =>
                    obtain ⟨nodes', hst', hrest⟩ := ih h
                    refine ⟨seq.process RSP :: nodes', ?_, hrest.cons _ (List.nil_sublist _)⟩
                    simp [hst', RspState.pass, extend_nodes, hproc]
                | found tmp =>
                    obtain ⟨pair, -, hat, -⟩ := found_at hseek
                    obtain ⟨nodes', hst', hrest⟩ := ih h
                    refine ⟨seq.process RSP :: nodes', ?_, ?_⟩
                    · simp [hst', RspState.pass, extend_nodes, hproc, RspState.attach]
                    · have hmore := hrest.cons seq
                        (List.Sublist.refl (pending RSP [seq]))
                      simpa [pending, hpkt, hat] using hmore
        | none =>
            have hproc : seq.process RSP = seq := SeqT.process_of_none hpkt
            simp only [hpkt] at h ⊢
            split at h
            · next hskip =>
              rw [if_pos hskip]
              obtain ⟨nodes', hst', hrest⟩ := ih h
              refine ⟨seq.process RSP :: nodes', ?_, hrest.cons _ (List.nil_sublist _)⟩
              simp [hst', RspState.pass, hproc]
            · next hskip =>
              rw [if_neg hskip]
              obtain ⟨nodes', hst', hrest⟩ := ih h
              refine ⟨seq.process RSP :: nodes', ?_, hrest.cons _ (List.nil_sublist _)⟩
              simp [hst', RspState.pass, extend_nodes, hproc]
      · next hbefore =>
        rw [if_neg hbefore]
        obtain ⟨rfl, -⟩ : _ = st' ∧ _ := by simpa using h
        exact ⟨seq :: rest, rfl, Processed.refl RSP _⟩

/-- Every pair of the chain has its request. -/
def HaveRequests (pairs : List Pair) : Prop := ∀ p ∈ pairs, p.requestHeader.isSome = true

theorem HaveRequests.modify {pairs : List Pair} (h : HaveRequests pairs) (i : ℕ) {g : Pair → Pair}
    (hg : ∀ p : Pair, (g p).requestHeader = p.requestHeader) : HaveRequests (pairs.modify i g) :=
  forall_modify (fun p hp => by rwa [hg p]) h i

theorem HaveRequests.extend {st : RspState} (h : HaveRequests st.pairs) (fin : Option SeqT)
    (seq : SeqT) (next : Option SeqT) : HaveRequests (st.extend fin seq next).pairs := by
  have hend : ∀ first (p : Pair), (p.endResponse seq first).requestHeader = p.requestHeader := by
    intro first p
    unfold Pair.endResponse
    split <;> rfl
  unfold RspState.extend
  cases hfound : st.foundPair with
  | none => exact h
  | some place =>
      obtain ⟨i, first⟩ := place
      have happend : HaveRequests (st.pairs.modify i (·.appendSeq seq st.firstPacket)) :=
        h.modify i fun _ => rfl
      dsimp only
      split
      · exact happend.modify i (hend first)
      · exact happend

/-- Where every pair has its request, the response walk meets no null pointer. -/
theorem rspLoop_defined {st : RspState} (h : HaveRequests st.pairs) (nodes : List SeqT) :
    ∃ r, rspLoop rspHdlen fin st nodes = some r := by
  induction nodes generalizing st with
  | nil => exact ⟨_, rfl⟩
  | cons seq rest ih =>
      unfold rspLoop
      split
      · cases unprocessed RSP seq with
        | some pkt =>
            obtain ⟨r, hseek⟩ := @seekPair_defined pkt.tcpAck st.tmp (st.pairs.drop st.tmp)
              fun p hp => h p (List.mem_of_mem_drop hp)
            dsimp only
            rw [hseek]
            cases r with
            | exhausted => exact ⟨_, rfl⟩
            | stopped tmp =>
                have hmoved : HaveRequests ({ st with tmp := tmp } : RspState).pairs := h
                exact ih (hmoved.extend fin _ _)
            | found tmp =>
                have hstarted : HaveRequests (st.attach rspHdlen tmp
                    { seq with processed := true } pkt).pairs := h.modify tmp fun _ => rfl
                exact ih (hstarted.extend fin _ _)
        | none =>
            dsimp only
            split
            · exact ih h
            · exact ih (h.extend fin _ _)
      · exact ⟨_, rfl⟩

/-! ## The call -/

/-- The requests that `extractPair` finds, with the addresses of their pairs. -/
def requestLog (flow : Flow) : List (ℕ × PacketT) :=
  reqLog flow.finSeq flow.nextPair flow.order.src.nodes

/-- The responses that `extractPair` attaches, with the addresses of their pairs. -/
def responseLog (flow : Flow) (closed : Bool) : List (ℕ × PacketT) :=
  match flow.findRequests closed with
  | none => []
  | some st =>
      if st.reqn = 0 then []
      else
        rspLog rspHdlen flow.finSeq
          ⟨[], st.pairs, 0, none, false, st.last⟩ flow.order.dst.nodes

/-- The two walks of a call that has a result. -/
theorem extractPair_walks {f f' : Flow} {closed : Bool} {ret : Int}
    (h : extractPair rspHdlen f closed = some (f', ret)) :
    ∃ st, f.setFirstByte.findRequests closed = some st ∧
      ((st.reqn = 0 ∧ f' = f.setFirstByte.afterRequests st ∧
          responseLog rspHdlen f closed = []) ∨
        st.reqn ≠ 0 ∧ ∃ st' ret', rspLoop rspHdlen f.finSeq ⟨[], st.pairs, 0, none, false, st.last⟩
            f.order.dst.nodes = some (st', ret') ∧
          f' = (f.setFirstByte.afterRequests st).afterResponses st' ∧
          responseLog rspHdlen f closed = rspLog rspHdlen f.finSeq
            ⟨[], st.pairs, 0, none, false, st.last⟩ f.order.dst.nodes) := by
  obtain ⟨st, hreq, hrest⟩ := Option.bind_eq_some_iff.mp h
  obtain ⟨horder, -⟩ := f.setFirstByte_frame
  have hreq' : f.findRequests closed = some st := by rwa [setFirstByte_findRequests] at hreq
  refine ⟨st, hreq, ?_⟩
  unfold responseLog
  rw [hreq']
  by_cases hzero : st.reqn = 0
  · obtain ⟨rfl, -⟩ : f.setFirstByte.afterRequests st = f' ∧ 1 = ret := by simpa [hzero] using hrest
    exact .inl ⟨hzero, rfl, if_pos hzero⟩
  · rw [if_neg hzero] at hrest
    obtain ⟨⟨st', ret'⟩, hrsp, hf'⟩ := Option.map_eq_some_iff.mp hrest
    obtain ⟨rfl, -⟩ : (f.setFirstByte.afterRequests st).afterResponses st' = f' ∧ ret' = ret := by
      simpa using hf'
    refine .inr ⟨hzero, st', ret', ?_, rfl, if_neg hzero⟩
    rw [setFirstByte_finSeq] at hrsp
    have hdst : (f.setFirstByte.afterRequests st).order.dst = f.order.dst := by
      rw [← horder]
      rfl
    unfold Flow.findResponses at hrsp
    rw [hdst] at hrsp
    exact hrsp

/-- **What a call does to the order lists**: each direction loses its front part, with
the packets that the call's pairs are made of. -/
theorem extractPair_nodes {f f' : Flow} {closed : Bool} {ret : Int}
    (h : extractPair rspHdlen f closed = some (f', ret)) :
    Processed REQ f.order.src.nodes f'.order.src.nodes ((requestLog f).map (·.2)) ∧
      Processed RSP f.order.dst.nodes f'.order.dst.nodes
        ((responseLog rspHdlen f closed).map (·.2)) := by
  obtain ⟨horder, -, hnext, -⟩ := f.setFirstByte_frame
  obtain ⟨st, hreq, hcases⟩ := extractPair_walks rspHdlen h
  obtain ⟨nodes, hst, hsrc⟩ := reqLoop_nodes hreq
  rw [horder, setFirstByte_finSeq, hnext] at hsrc
  have hsrc' : (f.setFirstByte.afterRequests st).order.src.nodes = nodes := by
    show (f.setFirstByte.order.src.setNodes st.nodes).nodes = nodes
    rw [hst, horder]
    exact SeqList.setNodes_nodes hsrc.length_eq
  have hdst' : (f.setFirstByte.afterRequests st).order.dst = f.order.dst := by
    rw [← horder]
    rfl
  rcases hcases with ⟨-, rfl, hlog⟩ | ⟨-, st', ret', hrsp, rfl, hlog⟩
  · rw [hsrc', hlog, hdst']
    exact ⟨hsrc, Processed.refl RSP _⟩
  · obtain ⟨nodes', hst', hdst⟩ := rspLoop_nodes rspHdlen hrsp
    have hwritten : ((f.setFirstByte.afterRequests st).afterResponses st').order.dst.nodes =
        nodes' := by
      show ((f.setFirstByte.afterRequests st).order.dst.setNodes st'.nodes).nodes = nodes'
      rw [hst', hdst']
      exact SeqList.setNodes_nodes hdst.length_eq
    rw [hwritten, hlog]
    refine ⟨?_, hdst⟩
    show Processed REQ _ (f.setFirstByte.afterRequests st).order.src.nodes _
    rw [hsrc']
    exact hsrc

/-- **A call meets no null pointer** on a flow that is closed or has no FIN node, and
whose pairs have their requests. -/
theorem extractPair_defined {f : Flow} {closed : Bool} (hfin : closed = true ∨ f.finSeq = none)
    (hreq : HaveRequests f.pairs) : ∃ r, extractPair rspHdlen f closed = some r := by
  obtain ⟨-, hpairs, -⟩ := f.setFirstByte_frame
  have hfin' : closed = true ∨ f.setFirstByte.finSeq = none := by rwa [setFirstByte_finSeq]
  obtain ⟨st, hst⟩ : ∃ st, f.setFirstByte.findRequests closed = some st := reqLoop_defined hfin' _ _
  obtain ⟨new, hnew⟩ := findRequests_spec hst
  have hhave : HaveRequests st.pairs := by
    rw [hnew.pairs, hpairs]
    intro p hp
    rcases List.mem_append.mp hp with hp | hp
    · exact hreq p hp
    · exact Pair.isSome_of_unread (hnew.fresh p hp).1
  unfold extractPair Flow.findPairs
  rw [hst, Option.bind_some]
  dsimp only
  split
  · exact ⟨_, rfl⟩
  · obtain ⟨r, hr⟩ := @rspLoop_defined rspHdlen f.setFirstByte.finSeq
      ⟨[], st.pairs, 0, none, false, st.last⟩ hhave
      (f.setFirstByte.afterRequests st).order.dst.nodes
    have hfound : (f.setFirstByte.afterRequests st).findResponses rspHdlen f.setFirstByte.finSeq =
        some r := hr
    rw [hfound]
    exact ⟨_, rfl⟩

/-- A call leaves every pair with its request. -/
theorem extractPair_haveRequests {f f' : Flow} {closed : Bool} {ret : Int}
    (h : extractPair rspHdlen f closed = some (f', ret)) (hreq : HaveRequests f.pairs) :
    HaveRequests f'.pairs := by
  intro q hq
  rcases extractPair_mem rspHdlen h hq with ⟨p, hp, hext⟩ | ⟨-, hnew, -⟩
  · rw [hext.request]
    exact hreq p hp
  · exact Pair.isSome_of_unread hnew

end Responses

end MonitoringTool.Sniffer
