import MonitoringTool.Sniffer.PairPointers

/-!
# The walks of `extractPair` on a chain in memory

The definitions of `ExtractPair`, with the pairs in memory: a new pair is allocated and handed to
`add_pair`, `new_pair`, `tmp` and `found_pair` are pointers, and what the walks store goes through
them.  The order lists stay what they are there.

Each walk that goes through is the one on the lists (`ReqWalk.Sim.loop`, `RspWalk.Sim.loop`).  The
other way round, a walk of the lists goes through in memory if `new` answers addresses that are
not in use (`ReqWalk.Sim.loop_defined`, `RspWalk.Sim.loop_rel`).
-/

namespace MonitoringTool.Sniffer

open Lib

/-! ## The request walk -/

/-- The variables of the request walk: those of `ReqState`, with the chain in memory, `new_pair` as
a pointer, and the addresses that `new` will answer. -/
structure ReqWalk where
  nodes : List SeqT
  chain : PairChain
  news : List ℕ
  nextPair : ℕ
  newPair : Option (ℕ × UInt32)
  reqn : ℕ
  last : Int × Int

namespace ReqWalk

/-- Continue to the next node. -/
def pass (w : ReqWalk) (seq : SeqT) : ReqWalk := { w with nodes := w.nodes ++ [seq] }

/-- A new pair for the request that starts at `seq`. -/
def openPair (w : ReqWalk) (seq : SeqT) (pkt : PacketT) : Option ReqWalk :=
  match w.news with
  | [] => none
  | a :: news =>
      let newPair :=
        { Pair.new w.nextPair with
          reqFbSec := seq.capSec
          reqFbUsec := seq.capUsec
          reqLbSec := seq.capSec
          reqLbUsec := seq.capUsec }
      (w.chain.newPair a newPair).bind fun c =>
        (c.addPair a).bind fun c =>
          (c.store a (·.addRequest (getRequest pkt))).map fun c =>
            { w with
              chain := c
              news := news
              nextPair := w.nextPair + 1
              newPair := some (a, seq.seq)
              reqn := w.reqn + 1 }

/-- The request of `new_pair` ends at `seq`. -/
def closePair (w : ReqWalk) (seq : SeqT) : Option ReqWalk :=
  match w.newPair with
  | none => some w
  | some (a, first) =>
      (if seq.nxtSeq ≠ 0 then w.chain.store a (·.endRequest seq first) else some w.chain).map
        fun c => { w with chain := c, last := updateLast w.last seq }

/-- Close the pair at a node that is the last of its request. -/
def endAt (w : ReqWalk) (fin : Option SeqT) (closed : Bool) (seq : SeqT)
    (seqNext : Option SeqT) : Option ReqWalk :=
  (lastBit fin closed seqNext).bind fun last => if last then w.closePair seq else some w

/-- The body of the walk. -/
def body (fin : Option SeqT) (closed : Bool) (w : ReqWalk) (seq : SeqT)
    (seqNext : Option SeqT) : Option ReqWalk :=
  match unprocessed REQ seq with
  | some pkt =>
      (w.openPair seq pkt).bind fun w =>
        (w.endAt fin closed seq seqNext).map fun w => w.pass { seq with processed := true }
  | none =>
      if w.newPair.isNone || seq.processed then some (w.pass seq)
      else (w.endAt fin closed seq seqNext).map fun w => w.pass seq

/-- The walk. -/
def loop (fin : Option SeqT) (closed : Bool) (w : ReqWalk) : List SeqT → Option ReqWalk
  | [] => some w
  | seq :: rest =>
      if beforeFin fin seq then
        (body fin closed w seq rest.head?).bind fun w => loop fin closed w rest
      else some { w with nodes := w.nodes ++ seq :: rest }

end ReqWalk

/-! ## The response walk -/

/-- The search for "the first pair without response" from the pointer `tmp` on: `tmp` and `found`
at its end; `none` also when it has not ended after `fuel` pairs. -/
def PairChain.seek (c : PairChain) (ack : UInt32) : ℕ → Option ℕ → Option (Option ℕ × Bool)
  | _, none => some (none, false)
  | 0, some _ => none
  | fuel + 1, some tmp =>
      (c.mem tmp).bind fun n =>
        n.val.requestHeader.bind fun req =>
          if req.nxtSeq ≤ ack then
            if n.val.responseHeader = none ∧ req.nxtSeq = ack then some (some tmp, true)
            else c.seek ack fuel n.next
          else some (some tmp, false)

/-- The variables of the response walk: those of `RspState`, with the chain in memory and pointers
into it. -/
structure RspWalk where
  nodes : List SeqT
  chain : PairChain
  tmp : Option ℕ
  foundPair : Option (ℕ × UInt32)
  firstPacket : Bool
  last : Int × Int

namespace RspWalk

/-- Continue to the next node. -/
def pass (w : RspWalk) (seq : SeqT) : RspWalk := { w with nodes := w.nodes ++ [seq] }

/-- The tail of the body: `seq` belongs to `found_pair`. -/
def extend (w : RspWalk) (fin : Option SeqT) (seq : SeqT) (seqNext : Option SeqT) :
    Option RspWalk :=
  match w.foundPair with
  | none => some w
  | some (a, first) =>
      (w.chain.store a (·.appendSeq seq w.firstPacket)).bind fun c =>
        if lastRsp fin seqNext then
          (c.store a (·.endResponse seq first)).map fun c =>
            { w with chain := c, firstPacket := false, last := updateLast w.last seq }
        else some { w with chain := c, firstPacket := false }

section Response

variable (rspHdlen : Option (List UInt8) → UInt16 → Int)

/-- The response that starts at `seq` goes to the pair at `a`. -/
def attach (w : RspWalk) (a : ℕ) (seq : SeqT) (pkt : PacketT) : Option RspWalk :=
  (w.chain.store a (·.startResponse rspHdlen seq pkt)).map fun c =>
    { w with chain := c, tmp := some a, foundPair := some (a, seq.seq), firstPacket := true }

/-- The walk with its return value. -/
def loop (fuel : ℕ) (fin : Option SeqT) (w : RspWalk) : List SeqT → Option (RspWalk × Int)
  | [] => some (w, 0)
  | seq :: rest =>
      if beforeFin fin seq then
        match unprocessed RSP seq with
        | some pkt =>
            let seq := { seq with processed := true }
            match w.chain.seek pkt.tcpAck fuel w.tmp with
            | none => none
            | some (none, _) => some ({ w with nodes := w.nodes ++ seq :: rest }, 1)
            | some (some tmp, false) =>
                ({ w with tmp := some tmp }.extend fin seq rest.head?).bind fun w =>
                  loop fuel fin (w.pass seq) rest
            | some (some tmp, true) =>
                (w.attach rspHdlen tmp seq pkt).bind fun w =>
                  (w.extend fin seq rest.head?).bind fun w => loop fuel fin (w.pass seq) rest
        | none =>
            if w.foundPair.isNone || seq.processed then loop fuel fin (w.pass seq) rest
            else
              (w.extend fin seq rest.head?).bind fun w => loop fuel fin (w.pass seq) rest
      else some ({ w with nodes := w.nodes ++ seq :: rest }, 0)

end Response

end RspWalk

/-! ## The walks are those of the lists -/

/-- A pointer to a pair with a number, and a position in the chain with the same number. -/
def SamePair (as : List ℕ) (x y : ℕ × UInt32) : Prop := as[y.1]? = some x.1 ∧ x.2 = y.2

theorem rel_isNone {σ τ : Type} {R : σ → τ → Prop} {x : Option σ} {y : Option τ}
    (h : Option.Rel R x y) : x.isNone = y.isNone := by
  cases h <;> rfl

/-- The request walk stands where that of the lists does. -/
def ReqWalk.Sim (w : ReqWalk) (st : ReqState) : Prop :=
  ∃ l ref, w.chain.Holds l ∧ Option.Rel (SamePair (addrs l)) w.newPair ref ∧
    st = ⟨w.nodes, l.map Prod.snd, w.nextPair, ref, w.reqn, w.last⟩

namespace ReqWalk

variable {w w' : ReqWalk} {st st' : ReqState} {fin : Option SeqT} {closed : Bool} {seq : SeqT}
  {seqNext : Option SeqT} {k : ℕ}

/-- Both walks start on the same pairs. -/
theorem sim_start {c : PairChain} {l : List (ℕ × Pair)} (hl : c.Holds l) (news : List ℕ)
    (nextPair : ℕ) (last : Int × Int) :
    ReqWalk.Sim ⟨[], c, news, nextPair, none, 0, last⟩
      ⟨[], l.map Prod.snd, nextPair, none, 0, last⟩ :=
  ⟨l, none, hl, .none, rfl⟩

theorem Sim.pass (h : w.Sim st) (seq : SeqT) : (w.pass seq).Sim (st.pass seq) := by
  obtain ⟨l, ref, hl, href, rfl⟩ := h
  exact ⟨l, ref, hl, href, rfl⟩

/-- `new` can answer `k` more addresses. -/
structure Ready (w : ReqWalk) (k : ℕ) : Prop where
  unused : w.chain.Unused w.news
  enough : k ≤ w.news.length

theorem Ready.pass (h : w.Ready k) (seq : SeqT) : (w.pass seq).Ready k :=
  ⟨h.unused, h.enough⟩

theorem Sim.openPair {pkt : PacketT} (h : w.Sim st) (hopen : w.openPair seq pkt = some w') :
    w'.Sim (st.openPair seq pkt) := by
  obtain ⟨l, ref, hl, href, rfl⟩ := h
  unfold ReqWalk.openPair at hopen
  cases hnews : w.news with
  | nil => simp [hnews] at hopen
  | cons a news =>
      simp only [hnews] at hopen
      obtain ⟨c₁, hc₁, hopen⟩ := Option.bind_eq_some_iff.mp hopen
      obtain ⟨c₂, hc₂, hopen⟩ := Option.bind_eq_some_iff.mp hopen
      obtain ⟨c₃, hc₃, rfl⟩ := Option.map_eq_some_iff.mp hopen
      have hl₂ := hl.append hc₁ hc₂
      have hlen : (addrs l).length = l.length := List.length_map _
      have hcount : (l.map Prod.snd).length = l.length := List.length_map _
      have hpos : ∀ p : Pair, (addrs (l ++ [(a, p)]))[l.length]? = some a := by
        intro p
        rw [addrs, List.map_append, List.getElem?_append_right (Nat.le_of_eq hlen)]
        simp
      obtain ⟨c₄, l₃, hc₄, hl₃, haddrs, hvals⟩ := hl₂.store (hpos _) (·.addRequest (getRequest pkt))
      obtain rfl := Option.some.inj (hc₃.symm.trans hc₄)
      refine ⟨l₃, some (l.length, seq.seq), hl₃, .some ⟨?_, rfl⟩, ?_⟩
      · rw [haddrs]
        exact hpos _
      · rw [hvals, List.map_append, modify_append_right (Nat.le_of_eq hcount), hcount,
          Nat.sub_self, ReqState.openPair, hcount]
        rfl

theorem Sim.closePair (h : w.Sim st) (seq : SeqT) :
    ∃ w', w.closePair seq = some w' ∧ w'.Sim (st.closePair seq) ∧ ∀ k, w.Ready k → w'.Ready k := by
  obtain ⟨l, ref, hl, href, rfl⟩ := h
  obtain ⟨nodes, chain, news, nextPair, newPair, reqn, last⟩ := w
  cases href with
  | none => exact ⟨_, rfl, ⟨l, none, hl, .none, rfl⟩, fun k hready => hready⟩
  | @some x y hsame =>
      obtain ⟨a, first⟩ := x
      obtain ⟨i, first'⟩ := y
      obtain ⟨hi, rfl⟩ : (addrs l)[i]? = some a ∧ first = first' := hsame
      unfold ReqWalk.closePair
      by_cases hseq : seq.nxtSeq ≠ 0
      · obtain ⟨c, l', hc, hl', haddrs, hvals⟩ := hl.store hi (·.endRequest seq first)
        simp only [if_pos hseq, hc]
        refine ⟨_, rfl, ⟨l', some (i, first), hl', .some ⟨haddrs ▸ hi, rfl⟩, ?_⟩,
          fun k hready => ⟨hready.unused.store hc, hready.enough⟩⟩
        simp [ReqState.closePair, hseq, hvals]
      · simp only [if_neg hseq]
        refine ⟨_, rfl, ⟨l, some (i, first), hl, .some ⟨hi, rfl⟩, ?_⟩,
          fun k hready => ⟨hready.unused, hready.enough⟩⟩
        simp only [ReqState.closePair, if_neg hseq]

theorem Sim.endAt (h : w.Sim st) (fin : Option SeqT) (closed : Bool) (seq : SeqT)
    (seqNext : Option SeqT) :
    Option.Rel (fun w' st' => w'.Sim st' ∧ ∀ k, w.Ready k → w'.Ready k)
      (w.endAt fin closed seq seqNext) (st.endAt fin closed seq seqNext) := by
  unfold ReqWalk.endAt ReqState.endAt
  cases lastBit fin closed seqNext with
  | none => exact .none
  | some last =>
      cases last with
      | false => exact .some ⟨h, fun k hready => hready⟩
      | true =>
          obtain ⟨w', hw', h', hready⟩ := h.closePair seq
          rw [Option.bind_some, if_pos rfl, hw']
          exact .some ⟨h', hready⟩

theorem Sim.openPair_defined (h : w.Sim st) (hready : w.Ready (k + 1)) (seq : SeqT)
    (pkt : PacketT) : ∃ w', w.openPair seq pkt = some w' ∧ w'.Ready k := by
  obtain ⟨l, ref, hl, -, -⟩ := h
  unfold ReqWalk.openPair
  cases hnews : w.news with
  | nil =>
      have henough := hready.enough
      rw [hnews] at henough
      cases henough
  | cons a news =>
      have hunused := hready.unused
      rw [hnews] at hunused
      obtain ⟨c₂, hc₂, hl₂⟩ := hl.append_defined (hunused.2 a (by simp))
        { Pair.new w.nextPair with
          reqFbSec := seq.capSec
          reqFbUsec := seq.capUsec
          reqLbSec := seq.capSec
          reqLbUsec := seq.capUsec }
      obtain ⟨c₁, hc₁, hadd⟩ := Option.bind_eq_some_iff.mp hc₂
      obtain ⟨c₃, -, hc₃, -⟩ := @PairChain.Holds.store c₂ _ a l.length hl₂ (by simp)
        (·.addRequest (getRequest pkt))
      have henough := hready.enough
      rw [hnews, List.length_cons] at henough
      dsimp only
      rw [hc₁, Option.bind_some, hadd, Option.bind_some, hc₃]
      exact ⟨_, rfl, ((hunused.newPair hc₁).addPair hadd).store hc₃,
        Nat.le_of_succ_le_succ henough⟩

theorem Sim.body (h : w.Sim st) (hbody : ReqWalk.body fin closed w seq seqNext = some w') :
    ∃ st', reqBody fin closed st seq seqNext = some st' ∧ w'.Sim st' := by
  have hnone : w.newPair.isNone = st.newPair.isNone := by
    obtain ⟨l, ref, hl, href, rfl⟩ := h
    exact rel_isNone href
  unfold ReqWalk.body at hbody
  unfold reqBody
  cases hpkt : unprocessed REQ seq with
  | some pkt =>
      simp only [hpkt] at hbody
      obtain ⟨w₁, hw₁, hbody⟩ := Option.bind_eq_some_iff.mp hbody
      obtain ⟨w₂, hw₂, rfl⟩ := Option.map_eq_some_iff.mp hbody
      have hend := (h.openPair hw₁).endAt fin closed seq seqNext
      rw [hw₂] at hend
      obtain ⟨st₂, hst₂, h₂, -⟩ := exists_of_rel_left hend
      exact ⟨_, Option.map_eq_some_iff.mpr ⟨st₂, hst₂, rfl⟩, h₂.pass _⟩
  | none =>
      simp only [hpkt] at hbody
      rw [← hnone]
      by_cases hskip : (w.newPair.isNone || seq.processed) = true
      · rw [if_pos hskip] at hbody
        obtain rfl := Option.some.inj hbody
        exact ⟨_, if_pos hskip, h.pass seq⟩
      · rw [if_neg hskip] at hbody
        obtain ⟨w₂, hw₂, rfl⟩ := Option.map_eq_some_iff.mp hbody
        have hend := h.endAt fin closed seq seqNext
        rw [hw₂] at hend
        obtain ⟨st₂, hst₂, h₂, -⟩ := exists_of_rel_left hend
        refine ⟨_, ?_, h₂.pass seq⟩
        rw [if_neg hskip, hst₂]
        rfl

/-- The request walk in memory is the one on the lists. -/
theorem Sim.loop {nodes : List SeqT} (h : w.Sim st)
    (hloop : ReqWalk.loop fin closed w nodes = some w') :
    ∃ st', reqLoop fin closed st nodes = some st' ∧ w'.Sim st' := by
  induction nodes generalizing w st with
  | nil =>
      obtain rfl := Option.some.inj hloop
      exact ⟨st, rfl, h⟩
  | cons seq rest ih =>
      unfold ReqWalk.loop at hloop
      unfold reqLoop
      by_cases hbefore : beforeFin fin seq = true
      · rw [if_pos hbefore] at hloop ⊢
        obtain ⟨w₁, hw₁, hloop⟩ := Option.bind_eq_some_iff.mp hloop
        obtain ⟨st₁, hst₁, h₁⟩ := h.body hw₁
        rw [hst₁, Option.bind_some]
        exact ih h₁ hloop
      · rw [if_neg hbefore] at hloop ⊢
        obtain rfl := Option.some.inj hloop
        obtain ⟨l, ref, hl, href, rfl⟩ := h
        exact ⟨_, rfl, l, ref, hl, href, rfl⟩

theorem Sim.body_defined (h : w.Sim st) (hready : w.Ready (k + 1))
    (hbody : reqBody fin closed st seq seqNext = some st') :
    ∃ w', ReqWalk.body fin closed w seq seqNext = some w' ∧ w'.Ready k := by
  have hnone : w.newPair.isNone = st.newPair.isNone := by
    obtain ⟨l, ref, hl, href, rfl⟩ := h
    exact rel_isNone href
  have hready' : w.Ready k := ⟨hready.unused, Nat.le_of_succ_le hready.enough⟩
  unfold reqBody at hbody
  unfold ReqWalk.body
  cases hpkt : unprocessed REQ seq with
  | some pkt =>
      simp only [hpkt] at hbody ⊢
      obtain ⟨st₂, hst₂, -⟩ := Option.map_eq_some_iff.mp hbody
      obtain ⟨w₁, hw₁, hready₁⟩ := h.openPair_defined hready seq pkt
      have hend := (h.openPair hw₁).endAt fin closed seq seqNext
      rw [hst₂] at hend
      obtain ⟨w₂, hw₂, -, hready₂⟩ := exists_of_rel_right hend
      rw [hw₁, Option.bind_some, hw₂]
      exact ⟨_, rfl, (hready₂ k hready₁).pass _⟩
  | none =>
      simp only [hpkt] at hbody ⊢
      rw [hnone]
      by_cases hskip : (st.newPair.isNone || seq.processed) = true
      · rw [if_pos hskip]
        exact ⟨_, rfl, hready'.pass seq⟩
      · rw [if_neg hskip] at hbody ⊢
        obtain ⟨st₂, hst₂, -⟩ := Option.map_eq_some_iff.mp hbody
        have hend := h.endAt fin closed seq seqNext
        rw [hst₂] at hend
        obtain ⟨w₂, hw₂, -, hready₂⟩ := exists_of_rel_right hend
        rw [hw₂]
        exact ⟨_, rfl, (hready₂ k hready').pass _⟩

theorem Sim.loop_defined {nodes : List SeqT} (h : w.Sim st) (hready : w.Ready nodes.length)
    (hloop : reqLoop fin closed st nodes = some st') :
    ∃ w', ReqWalk.loop fin closed w nodes = some w' := by
  induction nodes generalizing w st with
  | nil => exact ⟨w, rfl⟩
  | cons seq rest ih =>
      unfold reqLoop at hloop
      unfold ReqWalk.loop
      by_cases hbefore : beforeFin fin seq = true
      · rw [if_pos hbefore] at hloop ⊢
        obtain ⟨st₁, hst₁, hloop⟩ := Option.bind_eq_some_iff.mp hloop
        obtain ⟨w₁, hw₁, hready₁⟩ := h.body_defined hready hst₁
        obtain ⟨st₂, hst₂, h₁⟩ := h.body hw₁
        obtain rfl := Option.some.inj (hst₁.symm.trans hst₂)
        rw [hw₁, Option.bind_some]
        exact ih h₁ hready₁ hloop
      · rw [if_neg hbefore]
        exact ⟨_, rfl⟩

end ReqWalk

@[simp] theorem PairChain.seek_none (c : PairChain) (ack : UInt32) (fuel : ℕ) :
    c.seek ack fuel none = some (none, false) := by
  cases fuel <;> rfl

/-- More fuel changes nothing. -/
theorem PairChain.seek_mono {c : PairChain} {ack : UInt32} {fuel : ℕ} {p : Option ℕ}
    {r : Option ℕ × Bool} (hseek : c.seek ack fuel p = some r) (k : ℕ) :
    c.seek ack (fuel + k) p = some r := by
  induction fuel generalizing p with
  | zero =>
      cases p with
      | none => rw [PairChain.seek_none, ← hseek, PairChain.seek_none]
      | some a => cases hseek
  | succ fuel ih =>
      cases p with
      | none => rw [PairChain.seek_none, ← hseek, PairChain.seek_none]
      | some a =>
          obtain ⟨n, hn, hseek⟩ := Option.bind_eq_some_iff.mp hseek
          obtain ⟨req, hreq, hseek⟩ := Option.bind_eq_some_iff.mp hseek
          rw [Nat.succ_add, PairChain.seek, hn, Option.bind_some, hreq, Option.bind_some]
          by_cases hack : req.nxtSeq ≤ ack
          · rw [if_pos hack] at hseek ⊢
            by_cases hfree : n.val.responseHeader = none ∧ req.nxtSeq = ack
            · rw [if_pos hfree] at hseek ⊢
              exact hseek
            · rw [if_neg hfree] at hseek ⊢
              exact ih hseek
          · rw [if_neg hack] at hseek ⊢
            exact hseek

/-- The search in memory, given fuel for the whole chain, is the one on the list. -/
theorem PairChain.Holds.seek {c : PairChain} {l : List (ℕ × Pair)} {fuel i : ℕ}
    (hl : c.Holds l) (hfuel : l.length ≤ i + fuel) (ack : UInt32) :
    (seekPair ack i ((l.map Prod.snd).drop i) = none ∧
        c.seek ack fuel (addrs l)[i]? = none) ∨
      (seekPair ack i ((l.map Prod.snd).drop i) = some .exhausted ∧
        c.seek ack fuel (addrs l)[i]? = some (none, false)) ∨
      ∃ j a found, (addrs l)[j]? = some a ∧
        seekPair ack i ((l.map Prod.snd).drop i) =
          some (if found then .found j else .stopped j) ∧
        c.seek ack fuel (addrs l)[i]? = some (some a, found) := by
  induction fuel generalizing i with
  | zero =>
      have hi : (addrs l)[i]? = none := List.getElem?_eq_none (by simpa using hfuel)
      rw [hi, List.drop_eq_nil_of_le (by simpa using hfuel)]
      exact .inr (.inl ⟨rfl, rfl⟩)
  | succ fuel ih =>
      cases hi : l[i]? with
      | none =>
          have hlen : l.length ≤ i := List.getElem?_eq_none_iff.mp hi
          rw [List.getElem?_map, hi, List.drop_eq_nil_of_le (by simpa using hlen)]
          exact .inr (.inl ⟨rfl, rfl⟩)
      | some x =>
          obtain ⟨a, p⟩ := x
          have haddr : (addrs l)[i]? = some a := by rw [List.getElem?_map, hi]; rfl
          have hdrop : (l.map Prod.snd).drop i = p :: (l.map Prod.snd).drop (i + 1) := by
            obtain ⟨hlt, hx⟩ := List.getElem?_eq_some_iff.mp hi
            rw [← List.map_drop, List.drop_eq_getElem_cons hlt, hx, List.map_cons, List.map_drop]
          rw [haddr, hdrop, seekPair, PairChain.seek, hl.nodes.nodeAt hi, Option.bind_some]
          cases hreq : p.requestHeader with
          | none => exact .inl ⟨rfl, rfl⟩
          | some req =>
              simp only [Option.bind_some]
              by_cases hack : req.nxtSeq ≤ ack
              · rw [if_pos hack, if_pos hack]
                by_cases hfree : p.responseHeader = none ∧ req.nxtSeq = ack
                · rw [if_pos hfree, if_pos hfree]
                  exact .inr (.inr ⟨i, a, true, haddr, rfl, rfl⟩)
                · rw [if_neg hfree, if_neg hfree]
                  exact ih (by omega)
              · rw [if_neg hack, if_neg hack]
                exact .inr (.inr ⟨i, a, false, haddr, rfl, rfl⟩)

/-- The response walk stands where that of the lists does. -/
def RspWalk.Sim (w : RspWalk) (st : RspState) : Prop :=
  ∃ l tmp ref, w.chain.Holds l ∧ w.tmp = (addrs l)[tmp]? ∧
    Option.Rel (SamePair (addrs l)) w.foundPair ref ∧
      st = ⟨w.nodes, l.map Prod.snd, tmp, ref, w.firstPacket, w.last⟩

@[simp] theorem RspState.extend_length (st : RspState) (fin : Option SeqT) (seq : SeqT)
    (seqNext : Option SeqT) : (st.extend fin seq seqNext).pairs.length = st.pairs.length := by
  unfold RspState.extend
  split
  · rfl
  · split <;> simp

namespace RspWalk

variable {w w' : RspWalk} {st st' : RspState} {fin : Option SeqT} {seq : SeqT}
  {rspHdlen : Option (List UInt8) → UInt16 → Int}

/-- Both walks start at the first pair. -/
theorem sim_start {c : PairChain} {l : List (ℕ × Pair)} (hl : c.Holds l) (last : Int × Int) :
    RspWalk.Sim ⟨[], c, c.pairF, none, false, last⟩ ⟨[], l.map Prod.snd, 0, none, false, last⟩ := by
  have hpair : c.pairF = (addrs l)[0]? := by
    rw [hl.nodes.first]
    cases l <;> rfl
  exact ⟨l, 0, none, hl, hpair, .none, rfl⟩

theorem Sim.pass (h : w.Sim st) (seq : SeqT) : (w.pass seq).Sim (st.pass seq) := by
  obtain ⟨l, tmp, ref, hl, htmp, href, rfl⟩ := h
  exact ⟨l, tmp, ref, hl, htmp, href, rfl⟩

theorem Sim.extend (h : w.Sim st) (fin : Option SeqT) (seq : SeqT) (seqNext : Option SeqT) :
    ∃ w', w.extend fin seq seqNext = some w' ∧ w'.Sim (st.extend fin seq seqNext) := by
  obtain ⟨l, tmp, ref, hl, htmp, href, rfl⟩ := h
  obtain ⟨nodes, chain, tmpP, foundPair, firstPacket, last⟩ := w
  cases href with
  | none => exact ⟨_, rfl, l, tmp, none, hl, htmp, .none, rfl⟩
  | @some x y hsame =>
      obtain ⟨a, first⟩ := x
      obtain ⟨i, first'⟩ := y
      obtain ⟨hi, rfl⟩ : (addrs l)[i]? = some a ∧ first = first' := hsame
      obtain ⟨c₁, l₁, hc₁, hl₁, haddrs₁, hvals₁⟩ := hl.store hi (·.appendSeq seq firstPacket)
      unfold RspWalk.extend
      dsimp only
      rw [hc₁, Option.bind_some]
      by_cases hlast : lastRsp fin seqNext = true
      · obtain ⟨c₂, l₂, hc₂, hl₂, haddrs₂, hvals₂⟩ :=
          hl₁.store (haddrs₁ ▸ hi) (·.endResponse seq first)
        have haddrs : addrs l₂ = addrs l := haddrs₂.trans haddrs₁
        rw [if_pos hlast, hc₂]
        refine ⟨_, rfl, l₂, tmp, some (i, first), hl₂, haddrs ▸ htmp, .some ⟨haddrs ▸ hi, rfl⟩, ?_⟩
        simp [RspState.extend, hlast, hvals₁, hvals₂]
      · rw [if_neg hlast]
        refine ⟨_, rfl, l₁, tmp, some (i, first), hl₁, haddrs₁ ▸ htmp, .some ⟨haddrs₁ ▸ hi, rfl⟩,
          ?_⟩
        simp [RspState.extend, hlast, hvals₁]

theorem Sim.attach {l : List (ℕ × Pair)} {ref : Option (ℕ × UInt32)} {a i tmp : ℕ}
    (hl : w.chain.Holds l) (hi : (addrs l)[i]? = some a) (seq : SeqT) (pkt : PacketT) :
    ∃ w', w.attach rspHdlen a seq pkt = some w' ∧
      w'.Sim ((⟨w.nodes, l.map Prod.snd, tmp, ref, w.firstPacket, w.last⟩ : RspState).attach
        rspHdlen i seq pkt) := by
  obtain ⟨c, l', hc, hl', haddrs, hvals⟩ := hl.store hi (·.startResponse rspHdlen seq pkt)
  refine ⟨_, Option.map_eq_some_iff.mpr ⟨c, hc, rfl⟩, l', i, some (i, seq.seq), hl',
    (haddrs ▸ hi).symm, .some ⟨haddrs ▸ hi, rfl⟩, ?_⟩
  simp [RspState.attach, hvals]

/-- More fuel changes nothing. -/
theorem loop_mono {nodes : List SeqT} {fuel : ℕ} {r : RspWalk × Int}
    (hloop : RspWalk.loop rspHdlen fuel fin w nodes = some r) (k : ℕ) :
    RspWalk.loop rspHdlen (fuel + k) fin w nodes = some r := by
  induction nodes generalizing w with
  | nil => exact hloop
  | cons seq rest ih =>
      unfold RspWalk.loop at hloop ⊢
      by_cases hbefore : beforeFin fin seq = true
      · rw [if_pos hbefore] at hloop ⊢
        cases hpkt : unprocessed RSP seq with
        | some pkt =>
            simp only [hpkt] at hloop ⊢
            cases hseek : w.chain.seek pkt.tcpAck fuel w.tmp with
            | none => simp [hseek] at hloop
            | some t =>
                simp only [hseek, PairChain.seek_mono hseek k] at hloop ⊢
                obtain ⟨t, found⟩ := t
                cases t with
                | none => exact hloop
                | some a =>
                    cases found with
                    | false =>
                        obtain ⟨w₁, hw₁, hloop⟩ := Option.bind_eq_some_iff.mp hloop
                        exact Option.bind_eq_some_iff.mpr ⟨w₁, hw₁, ih hloop⟩
                    | true =>
                        obtain ⟨w₁, hw₁, hloop⟩ := Option.bind_eq_some_iff.mp hloop
                        obtain ⟨w₂, hw₂, hloop⟩ := Option.bind_eq_some_iff.mp hloop
                        exact Option.bind_eq_some_iff.mpr ⟨w₁, hw₁,
                          Option.bind_eq_some_iff.mpr ⟨w₂, hw₂, ih hloop⟩⟩
        | none =>
            simp only [hpkt] at hloop ⊢
            by_cases hskip : (w.foundPair.isNone || seq.processed) = true
            · rw [if_pos hskip] at hloop ⊢
              exact ih hloop
            · rw [if_neg hskip] at hloop ⊢
              obtain ⟨w₁, hw₁, hloop⟩ := Option.bind_eq_some_iff.mp hloop
              exact Option.bind_eq_some_iff.mpr ⟨w₁, hw₁, ih hloop⟩
      · rw [if_neg hbefore] at hloop ⊢
        exact hloop

/-- The response walk in memory, given fuel for the whole chain, is the one on the lists. -/
theorem Sim.loop_rel {nodes : List SeqT} {fuel : ℕ} (h : w.Sim st)
    (hfuel : st.pairs.length ≤ fuel) :
    Option.Rel (fun r q => r.1.Sim q.1 ∧ r.2 = q.2) (RspWalk.loop rspHdlen fuel fin w nodes)
      (rspLoop rspHdlen fin st nodes) := by
  induction nodes generalizing w st with
  | nil => exact .some ⟨h, rfl⟩
  | cons seq rest ih =>
      have hnone : w.foundPair.isNone = st.foundPair.isNone := by
        obtain ⟨l, tmp, ref, hl, htmp, href, rfl⟩ := h
        exact rel_isNone href
      unfold RspWalk.loop rspLoop
      by_cases hbefore : beforeFin fin seq = true
      · rw [if_pos hbefore, if_pos hbefore]
        cases hpkt : unprocessed RSP seq with
        | some pkt =>
            obtain ⟨l, tmp, ref, hl, htmp, href, rfl⟩ := h
            have hlen : l.length ≤ tmp + fuel := by
              rw [List.length_map] at hfuel
              omega
            have hseek := hl.seek hlen pkt.tcpAck
            rw [← htmp] at hseek
            rcases hseek with ⟨hlist, hmem⟩ | ⟨hlist, hmem⟩ | ⟨j, a, found, hj, hlist, hmem⟩
            · simp only [hlist, hmem]
              exact .none
            · -- the chain has no pair left
              simp only [hlist, hmem]
              exact .some ⟨⟨l, tmp, ref, hl, htmp, href, rfl⟩, rfl⟩
            · simp only [hlist, hmem]
              cases found with
              | false =>
                  have h₁ : RspWalk.Sim { w with tmp := some a }
                      ⟨w.nodes, l.map Prod.snd, j, ref, w.firstPacket, w.last⟩ :=
                    ⟨l, j, ref, hl, hj.symm, href, rfl⟩
                  obtain ⟨w₁, hw₁, h₂⟩ :=
                    h₁.extend fin { seq with processed := true } rest.head?
                  simp only [hw₁, Option.bind_some]
                  exact ih (h₂.pass _) (by simpa [RspState.pass] using hfuel)
              | true =>
                  obtain ⟨w₁, hw₁, h₁⟩ := @Sim.attach w rspHdlen l ref a j tmp hl hj
                    { seq with processed := true } pkt
                  obtain ⟨w₂, hw₂, h₂⟩ :=
                    h₁.extend fin { seq with processed := true } rest.head?
                  simp only [hw₁, hw₂, Option.bind_some]
                  exact ih (h₂.pass _) (by simpa [RspState.pass, RspState.attach] using hfuel)
        | none =>
            dsimp only
            rw [hnone]
            by_cases hskip : (st.foundPair.isNone || seq.processed) = true
            · rw [if_pos hskip, if_pos hskip]
              exact ih (h.pass seq) hfuel
            · rw [if_neg hskip, if_neg hskip]
              obtain ⟨w₁, hw₁, h₁⟩ := h.extend fin seq rest.head?
              rw [hw₁, Option.bind_some]
              exact ih (h₁.pass seq) (by simpa [RspState.pass] using hfuel)
      · rw [if_neg hbefore, if_neg hbefore]
        obtain ⟨l, tmp, ref, hl, htmp, href, rfl⟩ := h
        exact .some ⟨⟨l, tmp, ref, hl, htmp, href, rfl⟩, rfl⟩

/-- A response walk in memory that ends is the one on the lists. -/
theorem Sim.loop {nodes : List SeqT} {fuel : ℕ} {ret : Int} (h : w.Sim st)
    (hloop : RspWalk.loop rspHdlen fuel fin w nodes = some (w', ret)) :
    ∃ st', rspLoop rspHdlen fin st nodes = some (st', ret) ∧ w'.Sim st' := by
  have hrel := @Sim.loop_rel w st fin rspHdlen nodes (fuel + st.pairs.length) h
    (Nat.le_add_left _ _)
  rw [loop_mono hloop] at hrel
  obtain ⟨⟨st', ret'⟩, hst', h', rfl⟩ := exists_of_rel_left hrel
  exact ⟨st', hst', h'⟩

end RspWalk

end MonitoringTool.Sniffer
