import MonitoringTool.Lib.Acknowledge
import MonitoringTool.Sniffer.ProtocolRun

/-!
# The two branches of `extractPair`

With a FIN node both walks of `extractPair` end at the first node that is not earlier than
it; without one they end with the list.  The lists are sorted by sequence number, so nodes
of the FIN's own time and nodes that stand behind it are left out.

What the response walk attaches depends on the numbers of the chain and of the responses
only: `rspLog_eq_answers` reads it off the searches of `Lib.Acknowledge`.  So the branches can be
compared: `fin_branch_agrees_iff` says exactly when nothing is lost.
-/

namespace MonitoringTool.Sniffer

open Lib

/-! ## Numbers -/

/-- Where the request of a pair ends, and whether it has no response. -/
def Pair.entry (p : Pair) : ℕ × Bool :=
  ((p.requestHeader.map fun req => req.nxtSeq.toNat).getD 0, p.responseHeader.isNone)

/-- The entry of the pair that is made of a request's packet. -/
def PacketT.requestEntry (p : PacketT) : ℕ × Bool := ((getRequest p).nxtSeq.toNat, true)

/-- `tcp_ack`. -/
def PacketT.ackNumber (p : PacketT) : ℕ := p.tcpAck.toNat

/-- The search for a pair is the search in the numbers. -/
theorem seekPair_eq {ack : UInt32} {pairs : List Pair} (h : HaveRequests pairs) (tmp : ℕ) :
    seekPair ack tmp pairs = some
      (match (pairs.map Pair.entry).dropWhile (passes ack.toNat) with
      | [] => .exhausted
      | e :: _ =>
          let place := tmp + ((pairs.map Pair.entry).takeWhile (passes ack.toNat)).length
          if e = (ack.toNat, true) then .found place else .stopped place) := by
  induction pairs generalizing tmp with
  | nil => rfl
  | cons pair rest ih =>
      obtain ⟨req, hreq⟩ := Option.isSome_iff_exists.mp (h pair (by simp))
      have hentry : pair.entry = (req.nxtSeq.toNat, pair.responseHeader.isNone) := by
        simp [Pair.entry, hreq]
      have hrest := ih (fun p hp => h p (by simp [hp])) (tmp + 1)
      have htake : pair.responseHeader = none ∧ req.nxtSeq = ack ↔
          pair.entry = (ack.toNat, true) := by
        rw [hentry, Prod.mk.injEq, UInt32.toNat_inj, Option.isNone_iff_eq_none, and_comm]
      unfold seekPair
      simp only [hreq]
      by_cases hle : req.nxtSeq ≤ ack
      · rw [if_pos hle]
        by_cases hfound : pair.entry = (ack.toNat, true)
        · simp [htake, hfound, passes]
        · have hpass : passes ack.toNat pair.entry = true := by
            have hle' : pair.entry.1 ≤ ack.toNat := by
              rw [hentry]
              exact UInt32.le_iff_toNat_le.mp hle
            exact decide_eq_true ⟨hle', hfound⟩
          rw [if_neg (fun hboth => hfound (htake.mp hboth)), hrest]
          simp only [List.map_cons, List.dropWhile_cons, List.takeWhile_cons, hpass, if_true,
            List.length_cons]
          rw [Nat.add_assoc tmp 1, Nat.add_comm 1]
      · rw [if_neg hle]
        have hgt : ¬ pair.entry.1 ≤ ack.toNat := by
          rw [hentry]
          exact fun hle' => hle (UInt32.le_iff_toNat_le.mpr hle')
        have hstop : passes ack.toNat pair.entry = false := decide_eq_false fun hpass => hgt hpass.1
        have hne : pair.entry ≠ (ack.toNat, true) := by
          intro heq
          exact hgt (by rw [heq])
        simp [hstop, hne]

/-- Where the response walk stands in the numbers. -/
def RspState.progress (st : RspState) : Progress ℕ where
  place := st.tmp
  ahead := (st.pairs.map Pair.entry).drop st.tmp

section Responses

variable (rspHdlen : Option (List UInt8) → UInt16 → Int) {fin : Option SeqT}

/-- A pair that is given a response is no longer open. -/
theorem Pair.startResponse_entry (p : Pair) (seq : SeqT) (pkt : PacketT) :
    (p.startResponse rspHdlen seq pkt).entry = (p.entry.1, false) := by
  cases h : p.responseHeader <;> simp [Pair.entry, Pair.startResponse, Pair.addResponse, h]

/-- One response: the search ends with the chain, stops, or finds a pair. -/
theorem seekPair_cases {st : RspState} (h : HaveRequests st.pairs) (ack : UInt32) :
    (seekPair ack st.tmp (st.pairs.drop st.tmp) = some .exhausted ∧
        st.progress.answer ack.toNat = none) ∨
      (∃ tmp, seekPair ack st.tmp (st.pairs.drop st.tmp) = some (.stopped tmp) ∧
        st.progress.takes ack.toNat = false ∧
        st.progress.answer ack.toNat = some ({ st with tmp := tmp } : RspState).progress) ∨
      ∃ tmp, seekPair ack st.tmp (st.pairs.drop st.tmp) = some (.found tmp) ∧
        st.progress.takes ack.toNat = true ∧ ∀ seq pkt,
          st.progress.answer ack.toNat = some (st.attach rspHdlen tmp seq pkt).progress := by
  have hseek := @seekPair_eq ack (st.pairs.drop st.tmp)
    (fun p hp => h p (List.mem_of_mem_drop hp)) st.tmp
  rw [List.map_drop] at hseek
  have hplace : (st.pairs.map Pair.entry).drop (st.tmp +
      (((st.pairs.map Pair.entry).drop st.tmp).takeWhile (passes ack.toNat)).length) =
        ((st.pairs.map Pair.entry).drop st.tmp).dropWhile (passes ack.toNat) := by
    rw [← List.drop_drop]
    generalize (st.pairs.map Pair.entry).drop st.tmp = ahead
    have hleft : (ahead.takeWhile (passes ack.toNat) ++ ahead.dropWhile (passes ack.toNat)).drop
        (ahead.takeWhile (passes ack.toNat)).length = ahead.dropWhile (passes ack.toNat) :=
      List.drop_left
    rwa [List.takeWhile_append_dropWhile] at hleft
  unfold Progress.answer Progress.takes RspState.progress
  dsimp only
  cases hdrop : ((st.pairs.map Pair.entry).drop st.tmp).dropWhile (passes ack.toNat) with
  | nil =>
      rw [hdrop] at hseek
      exact .inl ⟨hseek, rfl⟩
  | cons e rest =>
      rw [hdrop] at hseek hplace
      right
      by_cases he : e = (ack.toNat, true)
      · refine .inr ⟨_, by rw [hseek]; simp only [if_pos he]; rfl, by simp [he], ?_⟩
        intro seq pkt
        have hentries : (st.attach rspHdlen (st.tmp +
            (((st.pairs.map Pair.entry).drop st.tmp).takeWhile (passes ack.toNat)).length)
              seq pkt).pairs.map Pair.entry = (st.pairs.map Pair.entry).modify _ fun e =>
                (e.1, false) :=
          map_modify_comm (fun p => p.startResponse_entry rspHdlen seq pkt) st.pairs _
        rw [hentries]
        simp only [RspState.attach]
        rw [List.drop_modify_of_ge _ _ _ _ (le_refl _), Nat.sub_self, hplace]
        simp [he]
      · refine .inl ⟨_, by rw [hseek]; simp only [if_neg he]; rfl, by simp [he], ?_⟩
        rw [hplace]
        simp only [if_neg he]

/-- More of a response changes neither the numbers nor the addresses of the pairs. -/
theorem extend_progress (st : RspState) (seq : SeqT) (next : Option SeqT) :
    (st.extend fin seq next).progress = st.progress ∧
      (st.extend fin seq next).pairs.map (·.addr) = st.pairs.map (·.addr) := by
  have happend : ∀ first (p : Pair), (p.appendSeq seq first).entry = p.entry ∧
      (p.appendSeq seq first).addr = p.addr := by
    intro first p
    refine ⟨?_, rfl⟩
    cases h : p.responseHeader <;> simp [Pair.entry, Pair.appendSeq, h]
  have hend : ∀ first (p : Pair), (p.endResponse seq first).entry = p.entry ∧
      (p.endResponse seq first).addr = p.addr := by
    intro first p
    unfold Pair.endResponse
    split <;> exact ⟨rfl, rfl⟩
  unfold RspState.extend
  split
  · exact ⟨rfl, rfl⟩
  · dsimp only
    split
    · constructor
      · unfold RspState.progress
        dsimp only
        rw [map_modify_of_eq fun p => (hend _ p).1, map_modify_of_eq fun p => (happend _ p).1]
      · rw [map_modify_of_eq fun p => (hend _ p).2, map_modify_of_eq fun p => (happend _ p).2]
    · constructor
      · unfold RspState.progress
        dsimp only
        rw [map_modify_of_eq fun p => (happend _ p).1]
      · exact map_modify_of_eq (fun p => (happend _ p).2) st.pairs _

theorem attach_addrs (st : RspState) (i : ℕ) (seq : SeqT) (pkt : PacketT) :
    (st.attach rspHdlen i seq pkt).pairs.map (·.addr) = st.pairs.map (·.addr) :=
  map_modify_of_eq (f := fun p => p.startResponse rspHdlen seq pkt) (fun _ => rfl) st.pairs i

theorem HaveRequests.attach {st : RspState} (h : HaveRequests st.pairs) (i : ℕ) (seq : SeqT)
    (pkt : PacketT) : HaveRequests (st.attach rspHdlen i seq pkt).pairs :=
  h.modify i fun _ => rfl

/-- The pair at a place of the chain, by its address. -/
def atAddress (addrs : List ℕ) (e : ℕ × PacketT) : Option (ℕ × PacketT) :=
  addrs[e.1]?.map fun addr => (addr, e.2)

/-- **What the response walk attaches** depends on the numbers of the pairs, their
addresses, and the responses before the FIN. -/
theorem rspLog_eq_answers {st : RspState} (h : HaveRequests st.pairs) (nodes : List SeqT) :
    rspLog rspHdlen fin st nodes =
      (st.progress.answerLog PacketT.ackNumber
        (pending RSP (nodes.takeWhile (beforeFin fin)))).filterMap
          (atAddress (st.pairs.map (·.addr))) := by
  induction nodes generalizing st with
  | nil => rfl
  | cons seq rest ih =>
      have hextend : ∀ (st : RspState), HaveRequests st.pairs → ∀ seq' next,
          rspLog rspHdlen fin ((st.extend fin seq' next).pass seq') rest =
            (st.progress.answerLog PacketT.ackNumber
              (pending RSP (rest.takeWhile (beforeFin fin)))).filterMap
                (atAddress (st.pairs.map (·.addr))) := by
        intro st hst seq' next
        obtain ⟨hprogress, haddrs⟩ := @extend_progress fin st seq' next
        have hmore := @ih ((st.extend fin seq' next).pass seq') (hst.extend fin seq' next)
        rw [hmore, ← hprogress, ← haddrs]
        rfl
      unfold rspLog pending
      rw [List.takeWhile_cons]
      split
      · cases hpkt : unprocessed RSP seq with
        | none =>
            rw [List.filterMap_cons_none hpkt]
            dsimp only
            split
            · exact @ih (st.pass seq) h
            · exact hextend st h seq rest.head?
        | some pkt =>
            rw [List.filterMap_cons_some hpkt, Progress.answerLog]
            dsimp only
            rcases seekPair_cases rspHdlen h pkt.tcpAck with ⟨hseek, hanswer⟩ |
              ⟨tmp, hseek, htakes, hanswer⟩ | ⟨tmp, hseek, htakes, hanswer⟩
            · rw [hseek, PacketT.ackNumber, hanswer]
              rfl
            · rw [hseek, PacketT.ackNumber, hanswer, htakes]
              exact hextend { st with tmp := tmp } h _ rest.head?
            · have hattach := hanswer { seq with processed := true } pkt
              rw [hseek, PacketT.ackNumber, hattach, htakes]
              dsimp only
              rw [hextend _ (h.attach rspHdlen tmp _ pkt), attach_addrs, if_pos rfl,
                List.filterMap_cons]
              have hat : atAddress (st.pairs.map (·.addr)) ((st.attach rspHdlen tmp
                  { seq with processed := true } pkt).progress.place, pkt) =
                    st.pairs[tmp]?.map fun pair => (pair.addr, pkt) := by
                simp [atAddress, RspState.progress, RspState.attach, Function.comp_def]
              rw [hat]
              cases st.pairs[tmp]? <;> rfl
      · rfl

end Responses

/-! ## The request walk -/

section Requests

variable {fin : Option SeqT} {closed : Bool}

/-- Without a FIN node those before the FIN come first. -/
theorem reqLog_none_eq_append (fin : Option SeqT) (addr : ℕ) (nodes : List SeqT) :
    ∃ more, reqLog none addr nodes = reqLog fin addr nodes ++ more ∧
      more.map (·.2) = pending REQ (nodes.dropWhile (beforeFin fin)) := by
  have hsplit : pending REQ nodes = pending REQ (nodes.takeWhile (beforeFin fin)) ++
      pending REQ (nodes.dropWhile (beforeFin fin)) := by
    unfold pending
    rw [← List.filterMap_append, List.takeWhile_append_dropWhile]
  refine ⟨(List.range' (addr + (pending REQ (nodes.takeWhile (beforeFin fin))).length)
    (pending REQ (nodes.dropWhile (beforeFin fin))).length).zip _, ?_, List.map_snd_zip (by simp)⟩
  rw [reqLog_eq, reqLog_eq, takeWhile_beforeFin_none, hsplit, List.length_append,
    ← List.range'_append_1, List.zip_append (by simp)]

/-- **What the request walk leaves**: the pairs it found, and a new one for each request
that it logs. -/
structure Opened (f : Flow) (log : List (ℕ × PacketT)) (st : ReqState) : Prop where
  entries : st.pairs.map Pair.entry =
    f.pairs.map Pair.entry ++ log.map fun e => e.2.requestEntry
  addrs : st.pairs.map (·.addr) = f.pairs.map (·.addr) ++ log.map (·.1)
  reqn : st.reqn = log.length
  requests : HaveRequests st.pairs

theorem findRequests_opened {f : Flow} (hreq : HaveRequests f.pairs) {st : ReqState}
    (h : f.findRequests closed = some st) : Opened f (requestLog f) st := by
  have hstart : Opened f [] ⟨[], f.pairs, f.nextPair, none, 0, (f.lbSec, f.lbUsec)⟩ :=
    ⟨by simp, by simp, rfl, hreq⟩
  refine reqLoop_log (fun st log => Opened f log st) (fun st log ns hst => ?_)
    (fun st log seq pkt hst => ?_) (fun st log seq hst => ?_) hstart h
  · exact ⟨hst.entries, hst.addrs, hst.reqn, hst.requests⟩
  · exact
      { entries := by
          unfold ReqState.openPair
          dsimp only
          rw [List.map_append, hst.entries, List.map_append, List.append_assoc]
          rfl
        addrs := by
          unfold ReqState.openPair
          dsimp only
          rw [List.map_append, hst.addrs, List.map_append, List.append_assoc]
          rfl
        reqn := by simp [ReqState.openPair, hst.reqn]
        requests := by
          intro p hp
          rcases List.mem_append.mp hp with hp | hp
          · exact hst.requests p hp
          · obtain rfl := List.mem_singleton.mp hp
            rfl }
  · unfold ReqState.closePair
    split
    · exact hst
    · next i first _ =>
      by_cases hlen : seq.nxtSeq ≠ 0
      · simp only [if_pos hlen]
        exact
          { entries := by
              rw [← hst.entries]
              refine map_modify_of_eq (f := fun p => p.endRequest seq first) ?_ st.pairs i
              exact fun p => rfl
            addrs := by
              rw [← hst.addrs]
              refine map_modify_of_eq (f := fun p => p.endRequest seq first) ?_ st.pairs i
              exact fun p => rfl
            reqn := hst.reqn
            requests := hst.requests.modify i fun p => rfl }
      · simp only [if_neg hlen]
        exact ⟨hst.entries, hst.addrs, hst.reqn, hst.requests⟩

end Requests

/-! ## The flow without its FIN -/

/-- The node with its FIN flag cleared. -/
def SeqT.clearFin (n : SeqT) : SeqT := { n with thFlags := n.thFlags &&& ~~~TH_FIN }

/-- The flow with the FIN flags of its nodes cleared. -/
def Flow.clearFin (f : Flow) : Flow :=
  { f with
    order := { f.order with
      src := f.order.src.setNodes (f.order.src.nodes.map SeqT.clearFin)
      dst := f.order.dst.setNodes (f.order.dst.nodes.map SeqT.clearFin) } }

@[simp] theorem clearFin_isFin (n : SeqT) : n.clearFin.isFin = false := by
  have hbits : ∀ flags : UInt8, (flags &&& ~~~TH_FIN) &&& TH_FIN = 0 := by
    intro flags
    rw [UInt8.and_assoc, show (~~~TH_FIN &&& TH_FIN : UInt8) = 0 from by decide, UInt8.and_zero]
  simp [SeqT.isFin, SeqT.clearFin, hbits]

theorem clearFin_nodes (f : Flow) :
    f.clearFin.order.src.nodes = f.order.src.nodes.map SeqT.clearFin ∧
      f.clearFin.order.dst.nodes = f.order.dst.nodes.map SeqT.clearFin :=
  ⟨SeqList.setNodes_nodes (by simp), SeqList.setNodes_nodes (by simp)⟩

theorem clearFin_finSeq (f : Flow) : f.clearFin.finSeq = none := by
  have hnone : ∀ nodes : List SeqT, findFin (nodes.map SeqT.clearFin) = none := by
    intro nodes
    refine List.find?_eq_none.mpr fun n hn => ?_
    obtain ⟨m, -, rfl⟩ := List.mem_map.mp hn
    simp
  unfold Flow.finSeq
  rw [(clearFin_nodes f).1, (clearFin_nodes f).2, hnone, hnone]

theorem pending_clearFin (type : UInt8) (nodes : List SeqT) :
    pending type (nodes.map SeqT.clearFin) = pending type nodes := by
  unfold pending
  rw [List.filterMap_map]
  rfl

theorem reqLog_clearFin (addr : ℕ) (nodes : List SeqT) :
    reqLog none addr (nodes.map SeqT.clearFin) = reqLog none addr nodes := by
  rw [reqLog_eq, reqLog_eq, takeWhile_beforeFin_none, takeWhile_beforeFin_none, pending_clearFin]

/-! ## When the branches agree -/

/-- The nodes of a direction that the FIN branch looks at, and those it leaves out. -/
def Flow.beforeStop (f : Flow) (fin : SeqT) (dir : Bool) : List SeqT :=
  (f.order.dir dir).nodes.takeWhile (beforeFin (some fin))

def Flow.behindStop (f : Flow) (fin : SeqT) (dir : Bool) : List SeqT :=
  (f.order.dir dir).nodes.dropWhile (beforeFin (some fin))

/-- The numbers of the pairs of the flow and of the requests that wait. -/
def Flow.requestChain (f : Flow) : List (ℕ × Bool) :=
  f.pairs.map Pair.entry ++ (pending REQ f.order.src.nodes).map PacketT.requestEntry

/-- The FIN branch leaves out no request, and no response that has one; without a request
the responses are not looked at. -/
structure FinLosesNothing (f : Flow) (fin : SeqT) : Prop where
  requests : pending REQ (f.behindStop fin true) = []
  responses : pending REQ f.order.src.nodes = [] ∨
    NoneAnswers PacketT.ackNumber f.requestChain
      ((pending RSP (f.beforeStop fin false)).map PacketT.ackNumber)
      (pending RSP (f.behindStop fin false))

/-- The two branches make the same pairs of the flow. -/
def BranchesAgree (rspHdlen : Option (List UInt8) → UInt16 → Int) (f : Flow) : Prop :=
  requestLog f = requestLog f.clearFin ∧
    responseLog rspHdlen f true = responseLog rspHdlen f.clearFin true

/-- They find the same requests if the FIN branch leaves out none. -/
theorem requestLog_clearFin_iff {f : Flow} {fin : SeqT} (hfin : f.finSeq = some fin) :
    requestLog f = requestLog f.clearFin ↔ pending REQ (f.behindStop fin true) = [] := by
  obtain ⟨more, hmore, hmap⟩ := reqLog_none_eq_append (some fin) f.nextPair f.order.src.nodes
  have hclear : requestLog f.clearFin = requestLog f ++ more := by
    unfold requestLog
    rw [clearFin_finSeq, (clearFin_nodes f).1, reqLog_clearFin, hfin, ← hmore]
    rfl
  rw [hclear, eq_comm, List.append_right_eq_self, ← List.map_eq_nil_iff (f := Prod.snd), hmap]
  rfl

/-- What is logged behind shows in the addresses. -/
theorem filterMap_atAddress_append_iff {addrs : List ℕ} {xs ys : List (ℕ × PacketT)}
    (h : ∀ e ∈ ys, e.1 < addrs.length) :
    xs.filterMap (atAddress addrs) = (xs ++ ys).filterMap (atAddress addrs) ↔ ys = [] := by
  rw [List.filterMap_append, eq_comm, List.append_right_eq_self, List.filterMap_eq_nil_iff]
  constructor
  · intro hnone
    refine List.eq_nil_iff_forall_not_mem.mpr fun e he => ?_
    have hat := hnone e he
    rw [atAddress, List.getElem?_eq_getElem (h e he)] at hat
    cases hat
  · rintro rfl e he
    exact absurd he List.not_mem_nil

/-- Further responses attach nothing exactly if none of them has a request. -/
theorem attached_append_iff {chain : List (ℕ × Bool)} {addrs : List ℕ}
    (hlen : chain.length = addrs.length) (xs ys : List PacketT) :
    (Progress.answerLog PacketT.ackNumber { place := 0, ahead := chain } xs).filterMap
          (atAddress addrs) =
        (Progress.answerLog PacketT.ackNumber { place := 0, ahead := chain } (xs ++ ys)).filterMap
          (atAddress addrs) ↔
      NoneAnswers PacketT.ackNumber chain (xs.map PacketT.ackNumber) ys := by
  have hlt := Progress.answerLog_lt PacketT.ackNumber { place := 0, ahead := chain } (xs ++ ys)
  rw [← Progress.answerLog_append_iff]
  rw [Progress.answerLog_append] at hlt ⊢
  rw [List.append_right_eq_self]
  refine filterMap_atAddress_append_iff fun e he => ?_
  have hplace := hlt e (List.mem_append_right _ he)
  simpa [hlen] using hplace

section Agreement

variable (rspHdlen : Option (List UInt8) → UInt16 → Int)

/-- The responses attached, given the requests found. -/
theorem responseLog_eq_answers {f : Flow} (hreq : HaveRequests f.pairs) :
    responseLog rspHdlen f true =
      if requestLog f = [] then []
      else
        (Progress.answerLog PacketT.ackNumber
          { place := 0
            ahead := f.pairs.map Pair.entry ++ (requestLog f).map fun e => e.2.requestEntry }
          (pending RSP (f.order.dst.nodes.takeWhile (beforeFin f.finSeq)))).filterMap
            (atAddress (f.pairs.map (·.addr) ++ (requestLog f).map (·.1))) := by
  obtain ⟨st, hst⟩ : ∃ st, f.findRequests true = some st := reqLoop_defined (.inl rfl) _ _
  have hopened := findRequests_opened hreq hst
  have hzero : st.reqn = 0 ↔ requestLog f = [] := by
    rw [hopened.reqn, List.length_eq_zero_iff]
  unfold responseLog
  rw [hst]
  dsimp only
  by_cases hnil : requestLog f = []
  · rw [if_pos hnil, if_pos (hzero.mpr hnil)]
  · rw [if_neg hnil, if_neg (mt hzero.mp hnil), rspLog_eq_answers rspHdlen hopened.requests,
      RspState.progress, ← hopened.entries, ← hopened.addrs]
    rfl

/-- With the same requests they attach the same responses if no response that the FIN branch
leaves out has one of them. -/
theorem responseLog_clearFin_iff {f : Flow} {fin : SeqT} (hreq : HaveRequests f.pairs)
    (hfin : f.finSeq = some fin) (hsame : requestLog f = requestLog f.clearFin)
    (hnone : pending REQ (f.behindStop fin true) = []) :
    responseLog rspHdlen f true = responseLog rspHdlen f.clearFin true ↔
      pending REQ f.order.src.nodes = [] ∨
        NoneAnswers PacketT.ackNumber f.requestChain
          ((pending RSP (f.beforeStop fin false)).map PacketT.ackNumber)
          (pending RSP (f.behindStop fin false)) := by
  have hsplit : ∀ type dir, pending type (f.order.dir dir).nodes =
      pending type (f.beforeStop fin dir) ++ pending type (f.behindStop fin dir) := by
    intro type dir
    unfold pending
    rw [← List.filterMap_append, Flow.beforeStop, Flow.behindStop, List.takeWhile_append_dropWhile]
  have hrequests : (requestLog f).map (·.2) = pending REQ f.order.src.nodes := by
    have hsrc := hsplit REQ true
    rw [hnone, List.append_nil] at hsrc
    rw [requestLog, map_reqLog, hfin]
    exact hsrc.symm
  have hchain : f.pairs.map Pair.entry ++ ((requestLog f).map fun e => e.2.requestEntry) =
      f.requestChain := by
    rw [Flow.requestChain, ← hrequests, List.map_map]
    rfl
  have hpairs : f.clearFin.pairs = f.pairs := rfl
  rw [responseLog_eq_answers rspHdlen hreq,
    responseLog_eq_answers rspHdlen (f := f.clearFin) hreq, ← hsame, hpairs, clearFin_finSeq,
    takeWhile_beforeFin_none, (clearFin_nodes f).2, pending_clearFin, hfin]
  by_cases hnil : requestLog f = []
  · rw [if_pos hnil, if_pos hnil, ← hrequests, hnil]
    exact iff_of_true rfl (.inl rfl)
  · have hsome : pending REQ f.order.src.nodes ≠ [] := by
      rw [← hrequests]
      exact mt List.map_eq_nil_iff.mp hnil
    have hdst : pending RSP f.order.dst.nodes =
        pending RSP (f.beforeStop fin false) ++ pending RSP (f.behindStop fin false) :=
      hsplit RSP false
    rw [if_neg hnil, if_neg hnil, or_iff_right hsome, hdst, hchain]
    refine attached_append_iff ?_ (pending RSP (f.beforeStop fin false)) _
    rw [← hchain]
    simp

/-- Every pair of a flow has its request, whatever is called. -/
theorem run_haveRequests (flt : FlowFilter) {mem : Flow} {s : FlowS} {calls : List Call}
    {w : Watched} (hrun : run (callStep flt rspHdlen) ⟨Flow.new mem s, []⟩ calls = some w) :
    HaveRequests w.flow.pairs := by
  have hnew : HaveRequests (Flow.new mem s).pairs := fun p hp => absurd hp List.not_mem_nil
  have hstep : ∀ w c w', HaveRequests w.flow.pairs → callStep flt rspHdlen w c = some w' →
      HaveRequests w'.flow.pairs := by
    intro w c w' hreq hw'
    cases c with
    | addPacket now packet src =>
        obtain ⟨f, hf, rfl⟩ := Option.map_eq_some_iff.mp hw'
        obtain ⟨-, rfl⟩ := (Flow.receive_eq_some w.flow now packet src).mp hf
        show HaveRequests (w.flow.addPacket now packet src).flow.pairs
        rw [(Flow.addPacket_pairs w.flow now packet src).1]
        exact hreq
    | extractPair closed =>
        obtain ⟨⟨f, ret⟩, hcall, rfl⟩ := Option.map_eq_some_iff.mp hw'
        exact extractPair_haveRequests rspHdlen hcall hreq
    | extractData =>
        obtain rfl := Option.some.inj hw'
        exact extractData_haveRequests flt hreq
  exact run_inv hstep hnew hrun

/-- **When the branches agree.**  On a flow with a FIN node that any calls have made of a
new one, `extractPair(flow, true)` makes the pairs it makes without the FIN flag exactly if
no request waits from the first node on that is not earlier than the FIN, and there no
response waits that has a request. -/
theorem fin_branch_agrees_iff (flt : FlowFilter) {mem : Flow} {s : FlowS} {calls : List Call}
    {w : Watched} (hrun : run (callStep flt rspHdlen) ⟨Flow.new mem s, []⟩ calls = some w)
    {fin : SeqT} (hfin : w.flow.finSeq = some fin) :
    BranchesAgree rspHdlen w.flow ↔ FinLosesNothing w.flow fin := by
  have hreq := run_haveRequests rspHdlen flt hrun
  constructor
  · rintro ⟨hsame, hresponses⟩
    have hnone := (requestLog_clearFin_iff hfin).mp hsame
    exact ⟨hnone, (responseLog_clearFin_iff rspHdlen hreq hfin hsame hnone).mp hresponses⟩
  · rintro ⟨hnone, hresponses⟩
    have hsame := (requestLog_clearFin_iff hfin).mpr hnone
    exact ⟨hsame, (responseLog_clearFin_iff rspHdlen hreq hfin hsame hnone).mpr hresponses⟩

end Agreement

/-! ## A request in the microsecond of the FIN -/

/-- The FIN node is the only one, and no node was captured after it. -/
structure FinLast (f : Flow) (fin : SeqT) : Prop where
  finSeq : f.finSeq = some fin
  only : ∀ dir, ∀ n ∈ (f.order.dir dir).nodes, n.isFin = true → n = fin
  last : ∀ dir, ∀ n ∈ (f.order.dir dir).nodes, compareSequenceTime n fin ≤ 0

/-- A request captured at `usec` microseconds. -/
def requestAt (usec : Int) : PacketT := { webPacket 1 true 100 15 20 REQ with capUsec := usec }

/-- The client's last five bytes, with a FIN. -/
def lastBytes : PacketT := { webPacket 2 true 120 15 5 0 with capUsec := 3, tcpFlags := 0x11 }

/-- The calls that they lead to. -/
def requestAndFin (usec : Int) : List Call :=
  [.addPacket ⟨0, 0⟩ (requestAt usec) true, .addPacket ⟨0, 0⟩ lastBytes true]

/-- The flow after them. -/
def closedFlow (usec : Int) : Flow :=
  ((webFlow.addPacket ⟨0, 0⟩ (requestAt usec) true).flow.addPacket ⟨0, 0⟩ lastBytes true).flow

/-- The node of the FIN. -/
def lastNode : SeqT := { seqPkt lastBytes with pkt := none }

/-- A microsecond before the FIN, the request is found by both branches. -/
theorem fin_branch_agrees_before : BranchesAgree (fun _ _ => 0) (closedFlow 2) :=
  (fin_branch_agrees_iff (fun _ _ => 0) noFilter
    (rfl : run (callStep noFilter fun _ _ => 0) ⟨Flow.new Flow.zero ⟨1, 2, 4000, 80⟩, []⟩
      (requestAndFin 2) = some ⟨closedFlow 2, []⟩)
    (by decide : (closedFlow 2).finSeq = some lastNode)).mpr ⟨by decide, .inr (by decide)⟩

/-- In the microsecond of the FIN it is lost: the FIN branch stops at its node. -/
theorem fin_branch_loses_request :
    ¬ ∀ (rspHdlen : Option (List UInt8) → UInt16 → Int) (flt : FlowFilter) (mem : Flow) (s : FlowS)
        (calls : List Call) (w : Watched) (fin : SeqT),
      run (callStep flt rspHdlen) ⟨Flow.new mem s, []⟩ calls = some w → FinLast w.flow fin →
        BranchesAgree rspHdlen w.flow := by
  intro hall
  have hlast : FinLast (closedFlow 3) lastNode := ⟨by decide, by decide, by decide⟩
  have hagree := hall (fun _ _ => 0) noFilter Flow.zero ⟨1, 2, 4000, 80⟩ (requestAndFin 3)
    ⟨closedFlow 3, []⟩ lastNode rfl hlast
  exact absurd hagree.1 (by decide)

end MonitoringTool.Sniffer
