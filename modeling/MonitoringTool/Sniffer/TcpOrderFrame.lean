import MonitoringTool.Sniffer.TcpOrderPointers

/-!
# What `tcp_order` does to the memory

The new node is linked behind the node that `placeAt` finds, whichever of the links of the code
does it (`addSeq_linked`); `tcpOrderAt_cases` are the branches of a call.

`tcp_order_frame` is what every call does: it ends, the list gains the new node at one place or
stays as it was, and everything else in memory stays.
-/

namespace MonitoringTool.Sniffer

open Lib

namespace OrderMem

/-! ## What is stored and linked -/

/-- The packets, with that of a node changed. -/
def mapPkt (pkts : ℕ → Option PacketT) (s : SeqNode) (f : PacketT → PacketT) :
    ℕ → Option PacketT :=
  match s.pkt with
  | none => pkts
  | some p => Function.update pkts p ((pkts p).map f)

/-- The node has no packet, or one in memory. -/
def HasPkt (pkts : ℕ → Option PacketT) (s : SeqNode) : Prop :=
  ∀ p, s.pkt = some p → (pkts p).isSome = true

theorem storePkt_eq {o : OrderMem} {s : SeqNode} (f : PacketT → PacketT)
    (h : HasPkt o.pkts s) : o.storePkt s f = some { o with pkts := mapPkt o.pkts s f } := by
  unfold storePkt mapPkt
  cases hp : s.pkt with
  | none => rfl
  | some p =>
      obtain ⟨q, hq⟩ := Option.isSome_iff_exists.mp (h p hp)
      simp [hq]

theorem mapPkt_of_ne {pkts : ℕ → Option PacketT} {s : SeqNode} {f : PacketT → PacketT} {p : ℕ}
    (h : s.pkt ≠ some p) : mapPkt pkts s f p = pkts p := by
  unfold mapPkt
  cases hp : s.pkt with
  | none => rfl
  | some q =>
      have hne : p ≠ q := by
        rintro rfl
        exact h hp
      exact Function.update_of_ne hne _ _

/-- No packet is allocated or freed. -/
@[simp] theorem mapPkt_isSome (pkts : ℕ → Option PacketT) (s : SeqNode) (f : PacketT → PacketT)
    (p : ℕ) : (mapPkt pkts s f p).isSome = (pkts p).isSome := by
  unfold mapPkt
  cases s.pkt with
  | none => rfl
  | some q =>
      by_cases hpq : p = q
      · subst hpq
        simp
      · simp [Function.update_of_ne hpq]

/-- A node with the packet that is changed. -/
theorem read_mapPkt {s s' : SeqNode} (h : s'.pkt = s.pkt) (pkts : ℕ → Option PacketT)
    (f : PacketT → PacketT) :
    read (mapPkt pkts s f) s' = { read pkts s' with pkt := (read pkts s').pkt.map f } := by
  unfold read mapPkt
  rw [h]
  cases s.pkt <;> simp

/-- The node as it is linked before a follower that starts at `aft`. -/
def fitNode (s : SeqNode) (aft : UInt32) : SeqNode :=
  if s.nxtSeq ≤ aft then s else { s with nxtSeq := aft }

/-- The packets, with that of the node cut accordingly. -/
def fitPkts (pkts : ℕ → Option PacketT) (s : SeqNode) (aft : UInt32) : ℕ → Option PacketT :=
  if s.nxtSeq ≤ aft then pkts else mapPkt pkts s (cutBack (s.nxtSeq - aft))

theorem read_fit (pkts : ℕ → Option PacketT) (s a : SeqNode) :
    read (fitPkts pkts s a.seq) (fitNode s a.seq) = (read pkts s).fitBefore (read pkts a) := by
  unfold fitPkts fitNode SeqT.fitBefore
  by_cases hle : s.nxtSeq ≤ a.seq
  · have hle' : (read pkts s).nxtSeq ≤ (read pkts a).seq := hle
    rw [if_pos hle, if_pos hle, if_pos hle']
  · have hle' : ¬ (read pkts s).nxtSeq ≤ (read pkts a).seq := hle
    rw [if_neg hle, if_neg hle, if_neg hle']
    have hsame : ({ s with nxtSeq := a.seq } : SeqNode).pkt = s.pkt := rfl
    rw [read_mapPkt hsame]
    rfl

/-- The node with its front cut at `bk`. -/
def cutNode (s : SeqNode) (bk : UInt32) : SeqNode := { s with seq := bk + 1 }

/-- The packets, with that of the node cut accordingly. -/
def cutPkts (pkts : ℕ → Option PacketT) (s : SeqNode) (bk : UInt32) : ℕ → Option PacketT :=
  mapPkt pkts s (cutFront ((s.nxtSeq - 1) - bk))

theorem read_cut (pkts : ℕ → Option PacketT) (s : SeqNode) (bk : UInt32) :
    read (cutPkts pkts s bk) (cutNode s bk) = (read pkts s).trimFront bk := by
  have hsame : (cutNode s bk).pkt = s.pkt := rfl
  rw [cutPkts, read_mapPkt hsame]
  rfl

/-- `o'` is `o` with the node `s'` linked behind the node `w` at `b`, before `aft`; it stands for
the node `s`, whose packet is the only one changed. -/
structure Linked (o o' : OrderMem) (src : Bool) (new b : ℕ) (w s s' : SeqNode)
    (aft : Option ℕ) : Prop where
  node : o'.seqs new = some ⟨s', aft⟩
  prev : o'.seqs b = some ⟨w, some new⟩
  others : ∀ c, c ≠ b → c ≠ new → o'.seqs c = o.seqs c
  plist : ∀ dir, o'.plist dir = o.plist dir
  lastOther : o'.plistLast (!src) = o.plistLast (!src)
  pkt : s'.pkt = s.pkt
  processed : s'.processed = s.processed
  pkts : ∀ p, s.pkt ≠ some p → o'.pkts p = o.pkts p
  live : ∀ p, (o'.pkts p).isSome = (o.pkts p).isSome

variable {o : OrderMem} {src : Bool} {new aft b : ℕ} {s w a : SeqNode} {r k : Option ℕ}

theorem connect_eq (hnew : o.seqs new = some ⟨s, r⟩) (haft : o.seqs aft = some ⟨a, k⟩)
    (hpkt : HasPkt o.pkts s) :
    o.connect src new aft =
      some (({ o with
        seqs := Function.update o.seqs new (some ⟨fitNode s a.seq, some aft⟩)
        pkts := fitPkts o.pkts s a.seq } : OrderMem).setPlistLast src new).count := by
  unfold connect fitNode fitPkts
  rw [hnew, Option.bind_some, haft, Option.bind_some]
  by_cases hle : s.nxtSeq ≤ a.seq
  · simp [hle, link, NodeMemory.setNext_of_eq hnew]
  · simp [hle, storePkt_eq _ hpkt, storeSeq, NodeMemory.modifyVal_of_eq hnew, link,
      NodeMemory.setNext]

theorem addSeq_retransmission {fr : UInt32} {q : Option ℕ} (hnew : o.seqs new = some ⟨s, r⟩)
    (hb : o.seqs b = some ⟨w, q⟩) (hrun : fr ≤ s.seq ∧ s.seq ≤ w.nxtSeq - 1)
    (hend : s.nxtSeq - 1 ≤ w.nxtSeq - 1) :
    o.addSeq src new fr b = some ({ o with seqs := Function.update o.seqs new none }, 1) := by
  simp [addSeq, hnew, hb, hrun, hend, NodeMemory.free_of_eq hnew]

@[simp] theorem setPlistLast_seqs (o : OrderMem) (src : Bool) (a : ℕ) :
    (o.setPlistLast src a).seqs = o.seqs := by
  cases src <;> rfl

@[simp] theorem setPlistLast_pkts (o : OrderMem) (src : Bool) (a : ℕ) :
    (o.setPlistLast src a).pkts = o.pkts := by
  cases src <;> rfl

@[simp] theorem setPlistLast_num (o : OrderMem) (src : Bool) (a : ℕ) :
    (o.setPlistLast src a).num = o.num := by
  cases src <;> rfl

@[simp] theorem setPlistLast_plist (o : OrderMem) (src dir : Bool) (a : ℕ) :
    (o.setPlistLast src a).plist dir = o.plist dir := by
  cases src <;> rfl

@[simp] theorem setPlistLast_plistLast (o : OrderMem) (src : Bool) (a : ℕ) :
    (o.setPlistLast src a).plistLast src = some a := by
  cases src <;> rfl

@[simp] theorem setPlistLast_plistLast_not (o : OrderMem) (src : Bool) (a : ℕ) :
    (o.setPlistLast src a).plistLast (!src) = o.plistLast (!src) := by
  cases src <;> rfl

theorem link_eq (hb : o.seqs b = some ⟨w, r⟩) (a : ℕ) :
    o.link b a = some { o with seqs := Function.update o.seqs b (some ⟨w, some a⟩) } := by
  simp [link, NodeMemory.setNext_of_eq hb]

theorem storeSeq_eq (hb : o.seqs b = some ⟨w, r⟩) (f : SeqNode → SeqNode) :
    o.storeSeq b f = some { o with seqs := Function.update o.seqs b (some ⟨f w, r⟩) } := by
  simp [storeSeq, NodeMemory.modifyVal_of_eq hb]

/-- The new node is linked behind `b`. -/
theorem link_linked (src : Bool) (hnew : o.seqs new = some ⟨s, r⟩) (hb : o.seqs b = some ⟨w, k⟩)
    (hne : new ≠ b) :
    ∃ o', o.link b new = some o' ∧ Linked o o' src new b w s s r ∧ o'.pkts = o.pkts ∧
      o'.num = o.num ∧ o'.plistLast src = o.plistLast src := by
  refine ⟨_, link_eq hb new, ?_, rfl, rfl, rfl⟩
  exact
    { node := by
        rw [← hnew]
        exact Function.update_of_ne hne _ _
      prev := Function.update_self _ _ _
      others := fun c hc _ => Function.update_of_ne hc _ _
      plist := fun dir => rfl
      lastOther := rfl
      pkt := rfl
      processed := rfl
      pkts := fun p _ => rfl
      live := fun p => rfl }

/-- The new node's front is cut at `bk`, then it is linked behind `b`. -/
theorem cut_linked (src : Bool) (bk : UInt32) (hnew : o.seqs new = some ⟨s, r⟩)
    (hb : o.seqs b = some ⟨w, k⟩) (hne : new ≠ b) (hpkt : HasPkt o.pkts s) :
    ∃ o₁ o₂ o₃, o.storePkt s (cutFront ((s.nxtSeq - 1) - bk)) = some o₁ ∧
      o₁.storeSeq new ({ · with seq := bk + 1 }) = some o₂ ∧ o₂.link b new = some o₃ ∧
      Linked o o₃ src new b w s (cutNode s bk) r ∧ o₃.pkts = cutPkts o.pkts s bk ∧
      o₃.num = o.num := by
  refine ⟨_, _, _, storePkt_eq _ hpkt,
    @storeSeq_eq { o with pkts := cutPkts o.pkts s bk } new s r hnew _,
    @link_eq { o with
      seqs := Function.update o.seqs new (some ⟨cutNode s bk, r⟩)
      pkts := cutPkts o.pkts s bk } b w k ?_ new, ?_, rfl, rfl⟩
  · rw [← hb]
    exact Function.update_of_ne hne.symm _ _
  · exact
      { node := by
          dsimp only
          rw [Function.update_of_ne hne, Function.update_self]
        prev := Function.update_self _ _ _
        others := by
          intro c hc hn
          dsimp only
          rw [Function.update_of_ne hc, Function.update_of_ne hn]
        plist := fun dir => rfl
        lastOther := rfl
        pkt := rfl
        processed := rfl
        pkts := fun p hp => mapPkt_of_ne hp
        live := fun p => mapPkt_isSome _ _ _ p }

/-- The pointer to the node inserted last is another one. -/
theorem Linked.setPlistLast {o' : OrderMem} {s' : SeqNode} (h : Linked o o' src new b w s s' r)
    (a : ℕ) : Linked o (o'.setPlistLast src a) src new b w s s' r where
  node := by rw [setPlistLast_seqs, h.node]
  prev := by rw [setPlistLast_seqs, h.prev]
  others := fun c hc hn => by rw [setPlistLast_seqs, h.others c hc hn]
  plist := fun dir => by rw [setPlistLast_plist, h.plist]
  lastOther := by rw [setPlistLast_plistLast_not, h.lastOther]
  pkt := h.pkt
  processed := h.processed
  pkts := fun p hp => by rw [setPlistLast_pkts, h.pkts p hp]
  live := fun p => by rw [setPlistLast_pkts, h.live p]

/-- The number of segments is another one. -/
theorem Linked.count {o' : OrderMem} {s' : SeqNode} (h : Linked o o' src new b w s s' r) :
    Linked o o'.count src new b w s s' r :=
  ⟨h.node, h.prev, h.others, h.plist, h.lastOther, h.pkt, h.processed, h.pkts,
    h.live⟩

@[simp] theorem fitNode_pkt (s : SeqNode) (aft : UInt32) : (fitNode s aft).pkt = s.pkt := by
  unfold fitNode
  split <;> rfl

@[simp] theorem fitNode_processed (s : SeqNode) (aft : UInt32) :
    (fitNode s aft).processed = s.processed := by
  unfold fitNode
  split <;> rfl

theorem fitPkts_of_ne {pkts : ℕ → Option PacketT} {aft : UInt32} {p : ℕ} (h : s.pkt ≠ some p) :
    fitPkts pkts s aft p = pkts p := by
  unfold fitPkts
  split
  · rfl
  · exact mapPkt_of_ne h

@[simp] theorem fitPkts_isSome (pkts : ℕ → Option PacketT) (s : SeqNode) (aft : UInt32)
    (p : ℕ) : (fitPkts pkts s aft p).isSome = (pkts p).isSome := by
  unfold fitPkts
  split
  · rfl
  · exact mapPkt_isSome _ _ _ p

/-- The linked node's `next` is set. -/
theorem Linked.link {o' : OrderMem} {s' : SeqNode} (h : Linked o o' src new b w s s' r)
    (hne : new ≠ b) (a : ℕ) :
    ∃ o'', o'.link new a = some o'' ∧ Linked o o'' src new b w s s' (some a) ∧
      o''.pkts = o'.pkts ∧ o''.num = o'.num := by
  refine ⟨_, link_eq h.node a, ?_, rfl, rfl⟩
  exact
    { node := Function.update_self _ _ _
      prev := by
        rw [← h.prev]
        exact Function.update_of_ne hne.symm _ _
      others := by
        intro c hc hn
        rw [← h.others c hc hn]
        exact Function.update_of_ne hn _ _
      plist := h.plist
      lastOther := h.lastOther
      pkt := h.pkt
      processed := h.processed
      pkts := h.pkts
      live := h.live }

/-- The linked node is put before its follower. -/
theorem Linked.connect {o' : OrderMem} {s' : SeqNode} (h : Linked o o' src new b w s s' r)
    (haft : o.seqs aft = some ⟨a, k⟩) (hne : new ≠ b) (hnew : aft ≠ new) (hb : aft ≠ b)
    (hpkt : HasPkt o'.pkts s') :
    ∃ o'', o'.connect src new aft = some o'' ∧
      Linked o o'' src new b w s (fitNode s' a.seq) (some aft) ∧ o''.num = o'.num + 1 ∧
      o''.plistLast src = some new ∧
      read o''.pkts (fitNode s' a.seq) = (read o'.pkts s').fitBefore (read o.pkts a) := by
  have haft' : o'.seqs aft = some ⟨a, k⟩ := (h.others aft hb hnew).trans haft
  refine ⟨_, connect_eq h.node haft' hpkt, ?_, ?_, setPlistLast_plistLast _ _ _, ?_⟩
  · exact
      { node := by
          rw [OrderMem.count, setPlistLast_seqs]
          exact Function.update_self _ _ _
        prev := by
          rw [← h.prev, OrderMem.count, setPlistLast_seqs]
          exact Function.update_of_ne hne.symm _ _
        others := by
          intro c hc hn
          rw [← h.others c hc hn, OrderMem.count, setPlistLast_seqs]
          exact Function.update_of_ne hn _ _
        plist := fun dir => (setPlistLast_plist _ _ _ _).trans (h.plist dir)
        lastOther := (setPlistLast_plistLast_not _ _ _).trans h.lastOther
        pkt := by rw [fitNode_pkt, h.pkt]
        processed := by rw [fitNode_processed, h.processed]
        pkts := by
          intro p hp
          rw [← h.pkts p hp, OrderMem.count, setPlistLast_pkts]
          exact fitPkts_of_ne (h.pkt ▸ hp)
        live := by
          intro p
          rw [← h.live p, OrderMem.count, setPlistLast_pkts]
          exact fitPkts_isSome _ _ _ p }
  · rw [OrderMem.count, setPlistLast_num]
  · rw [OrderMem.count, setPlistLast_pkts]
    exact read_fit o'.pkts s' a

/-- The new node is linked as `linkSegment` does it, behind the end `w` of a run that starts at
`fr`, with the nodes `ws` behind. -/
structure LinkedInRun (o o' : OrderMem) (src : Bool) (new : ℕ) (fr : UInt32) (b : ℕ)
    (w s s' : SeqNode) (ws : List (ℕ × SeqNode)) : Prop
    extends Linked o o' src new b w s s' (firstOf ws none) where
  fits : ∀ zs, read o'.pkts s' =
    fitted (read o.pkts s) fr ⟨zs, read o.pkts w, readAll o.pkts ws⟩
  num : o'.num = if ws = [] then o.num else o.num + 1
  last : o'.plistLast src =
    if ws = [] ∧ ¬ (fr ≤ s.seq ∧ s.seq ≤ w.nxtSeq - 1) then o.plistLast src else some new

/-- **"add new seq to the right position"**, behind `b`.  The new node is linked as `linkSegment`
does it, unless it is a retransmission. -/
theorem addSeq_linked {fr : UInt32} {ws : List (ℕ × SeqNode)} (hnew : o.seqs new = some ⟨s, none⟩)
    (hb : o.seqs b = some ⟨w, firstOf ws none⟩) (hne : new ≠ b)
    (haft : ∀ x ∈ ws.head?, (∃ k, o.seqs x.1 = some ⟨x.2, k⟩) ∧ x.1 ≠ new ∧ x.1 ≠ b)
    (hpkt : HasPkt o.pkts s)
    (hre : ¬ ((fr ≤ s.seq ∧ s.seq ≤ w.nxtSeq - 1) ∧ s.nxtSeq - 1 ≤ w.nxtSeq - 1)) :
    ∃ o' s', o.addSeq src new fr b = some (o', 0) ∧
      LinkedInRun o o' src new fr b w s s' ws := by
  unfold addSeq
  rw [hnew, Option.bind_some, hb, Option.bind_some]
  dsimp only
  by_cases hrun : fr ≤ s.seq ∧ s.seq ≤ w.nxtSeq - 1
  · have hgt : ¬ s.nxtSeq - 1 ≤ w.nxtSeq - 1 := fun h => hre ⟨hrun, h⟩
    have hrun' : InRun fr ((read o.pkts w).nxtSeq - 1) (read o.pkts s) := hrun
    obtain ⟨o₁, o₂, o₃, h₁, h₂, h₃, hlinked, hpkts, hnum⟩ :=
      cut_linked src (w.nxtSeq - 1) hnew hb hne hpkt
    have hread : read o₃.pkts (cutNode s (w.nxtSeq - 1)) =
        (read o.pkts s).trimFront ((read o.pkts w).nxtSeq - 1) := by
      rw [hpkts]
      exact read_cut o.pkts s _
    rw [if_pos hrun, if_neg hgt, h₁, Option.bind_some, h₂, Option.bind_some, h₃, Option.bind_some]
    have hlast := hlinked.setPlistLast new
    cases ws with
    | nil =>
        refine ⟨_, _, rfl, hlast, fun zs => ?_, ?_, ?_⟩
        · rw [setPlistLast_pkts, hread]
          simp [fitted, hrun']
        · rw [setPlistLast_num, hnum]
          rfl
        · simp [hrun]
    | cons x ws =>
        obtain ⟨aft, a⟩ := x
        obtain ⟨⟨k, hk⟩, hxnew, hxb⟩ := haft (aft, a) rfl
        obtain ⟨o₄, h₄, hlinked₄, hpkts₄, hnum₄⟩ := hlast.link hne aft
        rw [setPlistLast_pkts] at hpkts₄
        have hpkt₄ : HasPkt o₄.pkts (cutNode s (w.nxtSeq - 1)) := by
          intro p hp
          rw [hlinked₄.live]
          exact hpkt p hp
        obtain ⟨o₅, h₅, hlinked₅, hnum₅, hlast₅, hread₅⟩ :=
          hlinked₄.connect hk hne hxnew hxb hpkt₄
        refine ⟨o₅, _, ?_, hlinked₅, fun zs => ?_, ?_, ?_⟩
        · rw [firstOf_cons]
          dsimp only
          rw [h₄, Option.bind_some, h₅]
          rfl
        · rw [hread₅, hpkts₄, hread]
          simp [fitted, hrun']
        · simp [hnum₅, hnum₄, hnum]
        · simp [hlast₅]
  · have hrun' : ¬ InRun fr ((read o.pkts w).nxtSeq - 1) (read o.pkts s) := hrun
    obtain ⟨o₁, h₁, hlinked, hpkts, hnum, hlast⟩ := link_linked src hnew hb hne
    rw [if_neg hrun, h₁, Option.bind_some]
    cases ws with
    | nil =>
        refine ⟨_, _, rfl, hlinked, fun zs => ?_, ?_, ?_⟩
        · rw [hpkts]
          simp [fitted, hrun']
        · simp [hnum]
        · simp [hrun, hlast]
    | cons x ws =>
        obtain ⟨aft, a⟩ := x
        obtain ⟨⟨k, hk⟩, hxnew, hxb⟩ := haft (aft, a) rfl
        obtain ⟨o₂, h₂, hlinked₂, hnum₂, hlast₂, hread₂⟩ :=
          hlinked.connect hk hne hxnew hxb (by rw [hpkts]; exact hpkt)
        refine ⟨o₂, _, ?_, hlinked₂, fun zs => ?_, ?_, ?_⟩
        · rw [firstOf_cons]
          dsimp only
          rw [h₂]
          rfl
        · rw [hread₂, hpkts]
          simp [fitted, hrun']
        · simp [hnum₂, hnum]
        · simp [hlast₂]

/-! ## What a call does -/

/-- The new node, which is in none of the lists. -/
structure NewNode (o : OrderMem) (new : ℕ) (s : SeqNode) (l : List (ℕ × SeqNode)) : Prop where
  node : o.seqs new = some ⟨s, none⟩
  out : new ∉ addrs l
  pkt : HasPkt o.pkts s

/-- The list `l` of the direction `src`, with the pointer to the node inserted last. -/
structure HoldsDir (o : OrderMem) (src : Bool) (l : List (ℕ × SeqNode)) : Prop where
  nodes : ListSeg o.seqs (o.plist src) l none
  last : l ≠ [] → ∃ a ∈ addrs l, o.plistLast src = some a

variable {fuel : ℕ} {l zs ws : List (ℕ × SeqNode)}

/-- What a call leaves alone: the other direction, the nodes that are neither in the list nor the
new one, and the packets other than that of the new node; none is allocated or freed. -/
structure Frame (o o' : OrderMem) (src : Bool) (new : ℕ) (s : SeqNode)
    (l : List (ℕ × SeqNode)) : Prop where
  plist : o'.plist (!src) = o.plist (!src)
  last : o'.plistLast (!src) = o.plistLast (!src)
  seqs : ∀ c, c ∉ addrs l → c ≠ new → o'.seqs c = o.seqs c
  pkts : ∀ p, s.pkt ≠ some p → o'.pkts p = o.pkts p
  live : ∀ p, (o'.pkts p).isSome = (o.pkts p).isSome

/-- `o` with the new node as its first segment. -/
def first (o : OrderMem) (src : Bool) (new : ℕ) : OrderMem :=
  ((o.setPlist src new).setPlistLast src new).count

theorem first_frame (o : OrderMem) (src : Bool) (new : ℕ) (s : SeqNode)
    (l : List (ℕ × SeqNode)) : Frame o (o.first src new) src new s l where
  plist := by cases src <;> rfl
  last := by cases src <;> rfl
  seqs := fun c _ _ => by cases src <;> rfl
  pkts := fun p _ => by cases src <;> rfl
  live := fun p => by cases src <;> rfl

theorem first_nodes (src : Bool) (hnew : o.seqs new = some ⟨s, none⟩) :
    ListSeg (o.first src new).seqs ((o.first src new).plist src) [(new, s)] none := by
  refine ⟨by cases src <;> rfl, none, ?_, rfl⟩
  rw [← hnew]
  cases src <;> rfl

theorem first_last (o : OrderMem) (src : Bool) (new : ℕ) :
    (o.first src new).plistLast src = some new := by
  cases src <;> rfl

/-- `o` with the new node freed. -/
def dropNew (o : OrderMem) (new : ℕ) : OrderMem :=
  { o with seqs := Function.update o.seqs new none }

theorem dropNew_frame (o : OrderMem) (src : Bool) (new : ℕ) (s : SeqNode)
    (l : List (ℕ × SeqNode)) : Frame o (o.dropNew new) src new s l :=
  ⟨rfl, rfl, fun _ _ hn => Function.update_of_ne hn _ _, fun _ _ => rfl, fun _ => rfl⟩

/-- The freed node is none of the list. -/
theorem dropNew_seqs (hnew : NewNode o new s l) {c : ℕ} (hc : c ∈ addrs l) :
    (o.dropNew new).seqs c = o.seqs c := by
  have hne : c ≠ new := by
    rintro rfl
    exact hnew.out hc
  exact Function.update_of_ne hne _ _

/-- The branches of `tcp_order`: the first segment, one at the list end, a retransmission, and one
that is linked behind the end of a run. -/
theorem tcpOrderAt_cases {last : Cursor} (hl : ListSeg o.seqs (o.plist src) l none)
    (hlast : ∀ head, o.plist src = some head → ∃ xs a v ys, l = xs ++ (a, v) :: ys ∧
      o.plistLast src = some a ∧ last = ⟨readAll o.pkts xs, read o.pkts v, readAll o.pkts ys⟩)
    (hnew : NewNode o new s l) (hfuel : l.length ≤ fuel) :
    (l = [] ∧ o.plist src = none ∧ o.tcpOrderAt fuel new src = some (o.first src new, 0)) ∨
    (∃ zs b w o', l = zs ++ [(b, w)] ∧ placeOf (read o.pkts s) last = .atEnd ∧
      o.tcpOrderAt fuel new src = some (o', 0) ∧ Linked o o' src new b w s s none ∧
      o'.pkts = o.pkts ∧ o'.num = o.num + 1 ∧ o'.plistLast src = some new) ∨
    ∃ fr zs b w ws, l = zs ++ (b, w) :: ws ∧ placeOf (read o.pkts s) last =
        .within fr ⟨readAll o.pkts zs, read o.pkts w, readAll o.pkts ws⟩ ∧
      (((fr ≤ s.seq ∧ s.seq ≤ w.nxtSeq - 1) ∧ s.nxtSeq - 1 ≤ w.nxtSeq - 1) ∧
          o.tcpOrderAt fuel new src = some (o.dropNew new, 1) ∨
        ¬ ((fr ≤ s.seq ∧ s.seq ≤ w.nxtSeq - 1) ∧ s.nxtSeq - 1 ≤ w.nxtSeq - 1) ∧
          ∃ o' s', o.tcpOrderAt fuel new src = some (o', 0) ∧
            LinkedInRun o o' src new fr b w s s' ws) := by
  unfold tcpOrderAt
  cases hhead : o.plist src with
  | none =>
      left
      rw [hhead] at hl
      refine ⟨?_, rfl, rfl⟩
      cases l with
      | nil => rfl
      | cons x xs => cases hl.1
  | some head =>
      right
      obtain ⟨xs, a, v, ys, rfl, hlastPtr, rfl⟩ := hlast head hhead
      rw [hhead] at hl
      obtain ⟨place, hplace, hsame⟩ :=
        @placeAt_spec xs ys a fuel v o src s head o.pkts hl hlastPtr hfuel
      dsimp only
      rw [hnew.node, Option.bind_some, hplace, Option.bind_some]
      generalize placeOf (read o.pkts s) _ = place' at hsame ⊢
      cases hsame with
      | atEnd zs b w hsplit =>
          have hout := hnew.out
          rw [hsplit] at hl hout
          have hne : new ≠ b := by
            rintro rfl
            exact hout (by simp)
          obtain ⟨o', ho', hlinked, hpkts, hnum, -⟩ := link_linked src hnew.node hl.node hne
          refine .inl ⟨zs, b, w, _, hsplit, rfl, ?_, (hlinked.setPlistLast new).count, ?_, ?_, ?_⟩
          · dsimp only
            rw [ho']
            rfl
          · rw [← hpkts]
            exact setPlistLast_pkts o' src new
          · rw [OrderMem.count, setPlistLast_num, hnum]
          · exact setPlistLast_plistLast o' src new
      | within fr zs b w ws hsplit =>
          have hout := hnew.out
          rw [hsplit] at hl hout
          refine .inr ⟨fr, zs, b, w, ws, hsplit, rfl, ?_⟩
          by_cases hre : (fr ≤ s.seq ∧ s.seq ≤ w.nxtSeq - 1) ∧ s.nxtSeq - 1 ≤ w.nxtSeq - 1
          · exact .inl ⟨hre, addSeq_retransmission hnew.node hl.node hre.1 hre.2⟩
          · have hne : new ≠ b := by
              rintro rfl
              exact hout (by simp)
            refine .inr ⟨hre, addSeq_linked hnew.node hl.node hne (fun x hx => ?_) hnew.pkt hre⟩
            cases ws with
            | nil => cases hx
            | cons y ws =>
                obtain rfl := Option.some.inj hx
                have hsplit' : zs ++ (b, w) :: y :: ws = (zs ++ [(b, w)]) ++ y :: ws := by simp
                refine ⟨⟨_, (hsplit' ▸ hl).node⟩, ?_, ?_⟩
                · intro heq
                  exact hout (by simp [← heq])
                · intro heq
                  exact hl.apart (by simp [← heq])

/-- A list with the node inserted last has a cursor there. -/
theorem HoldsDir.cursor (h : o.HoldsDir src l) (s : SeqNode) :
    ∃ last : Cursor, ∀ head, o.plist src = some head → ∃ xs a v ys, l = xs ++ (a, v) :: ys ∧
      o.plistLast src = some a ∧
      last = ⟨readAll o.pkts xs, read o.pkts v, readAll o.pkts ys⟩ := by
  cases l with
  | nil =>
      have hnull : o.plist src = none := h.nodes
      refine ⟨⟨[], read o.pkts s, []⟩, fun head hhead => ?_⟩
      rw [hnull] at hhead
      cases hhead
  | cons x l =>
      obtain ⟨a, ha, hlast⟩ := h.last (List.cons_ne_nil x l)
      obtain ⟨⟨b, v⟩, hmem, rfl⟩ := List.mem_map.mp ha
      obtain ⟨xs, ys, hsplit⟩ := List.append_of_mem hmem
      exact ⟨_, fun _ _ => ⟨xs, b, v, ys, hsplit, hlast, rfl⟩⟩

/-- A linked node is in the list, and the others stay. -/
theorem Linked.nodes {o' : OrderMem} {s' : SeqNode}
    (h : Linked o o' src new b w s s' (firstOf ws none))
    (hl : ListSeg o.seqs (o.plist src) (zs ++ (b, w) :: ws) none)
    (hnew : NewNode o new s (zs ++ (b, w) :: ws)) :
    ListSeg o'.seqs (o'.plist src) (zs ++ (b, w) :: (new, s') :: ws) none := by
  rw [h.plist]
  exact hl.insertAfter hnew.out h.prev h.node h.others

theorem Linked.frame {o' : OrderMem} {s' : SeqNode} (h : Linked o o' src new b w s s' r) :
    Frame o o' src new s (zs ++ (b, w) :: ws) where
  plist := h.plist _
  last := h.lastOther
  seqs := by
    intro c hc hn
    refine h.others c (fun heq => ?_) hn
    exact hc (by simp [heq])
  pkts := h.pkts
  live := h.live

/-- The list of the other direction, if it shares no node with this one. -/
theorem Frame.other {o' : OrderMem} {l' : List (ℕ × SeqNode)} (h : Frame o o' src new s l)
    (hl' : o.HoldsDir (!src) l') (hapart : ∀ c ∈ addrs l', c ∉ addrs l ∧ c ≠ new) :
    o'.HoldsDir (!src) l' where
  nodes := by
    rw [h.plist]
    exact hl'.nodes.congr fun c hc => h.seqs c (hapart c hc).1 (hapart c hc).2
  last := by
    rw [h.last]
    exact hl'.last

/-- **Frame of `tcp_order`.**  On a list of any length, with the pointer to the node inserted last
at any of its nodes, and any new node, the call ends.  It returns 1, with the list as it was and
the new node freed, or 0, with the new node at one place of the list; in both cases the pointer to
the node inserted last is at a node of the list, and nothing else has changed. -/
theorem tcp_order_frame (hl : o.HoldsDir src l) (hnew : NewNode o new s l)
    (hfuel : l.length ≤ fuel) :
    ∃ o' ret, o.tcpOrderAt fuel new src = some (o', ret) ∧
      (ret = 1 ∧ o'.HoldsDir src l ∧ o'.plist src = o.plist src ∧
          o'.plistLast src = o.plistLast src ∧ o'.seqs new = none ∨
        ret = 0 ∧ ∃ xs ys s', l = xs ++ ys ∧ o'.HoldsDir src (xs ++ (new, s') :: ys) ∧
          s'.pkt = s.pkt ∧ s'.processed = s.processed) ∧
      Frame o o' src new s l ∧
      ∀ l', o.HoldsDir (!src) l' → (∀ c ∈ addrs l', c ∉ addrs l ∧ c ≠ new) →
        o'.HoldsDir (!src) l' := by
  obtain ⟨last, hlast⟩ := hl.cursor s
  rcases tcpOrderAt_cases hl.nodes hlast hnew hfuel with ⟨rfl, hhead, hcall⟩ |
    ⟨zs, b, w, o', rfl, -, hcall, hlinked, -, -, hlast'⟩ |
    ⟨fr, zs, b, w, ws, rfl, -, ⟨-, hcall⟩ | ⟨-, o', s', hcall, hlinked⟩⟩
  · -- the first segment
    exact ⟨_, 0, hcall, .inr ⟨rfl, [], [], s, rfl, ⟨first_nodes src hnew.node,
      fun _ => ⟨new, by simp, first_last o src new⟩⟩, rfl, rfl⟩, first_frame o src new s [],
      fun l' => (first_frame o src new s []).other⟩
  · -- at the list end
    have hframe : Frame o o' src new s (zs ++ [(b, w)]) := hlinked.frame
    refine ⟨o', 0, hcall, .inr ⟨rfl, zs ++ [(b, w)], [], s, by simp, ⟨?_, ?_⟩, rfl, rfl⟩, hframe,
      fun l' => hframe.other⟩
    · simpa using hlinked.nodes hl.nodes hnew
    · exact fun _ => ⟨new, by simp, hlast'⟩
  · -- a retransmission
    have hframe := dropNew_frame o src new s (zs ++ (b, w) :: ws)
    exact ⟨_, 1, hcall, .inl ⟨rfl, ⟨hl.nodes.congr fun c hc => dropNew_seqs hnew hc, hl.last⟩, rfl,
      rfl, Function.update_self _ _ _⟩, hframe, fun l' => hframe.other⟩
  · -- linked behind the end of a run
    have hframe : Frame o o' src new s (zs ++ (b, w) :: ws) := hlinked.frame
    refine ⟨o', 0, hcall, .inr ⟨rfl, zs ++ [(b, w)], ws, s', by simp, ⟨?_, ?_⟩, hlinked.pkt,
      hlinked.processed⟩, hframe, fun l' => hframe.other⟩
    · simpa using hlinked.nodes hl.nodes hnew
    · intro _
      have hlast' := hlinked.last
      by_cases hkeep : ws = [] ∧ ¬ (fr ≤ s.seq ∧ s.seq ≤ w.nxtSeq - 1)
      · rw [if_pos hkeep] at hlast'
        obtain ⟨a, ha, hptr⟩ := hl.last (by simp)
        refine ⟨a, ?_, hlast'.trans hptr⟩
        rcases List.mem_map.mp ha with ⟨x, hx, rfl⟩
        refine List.mem_map.mpr ⟨x, ?_, rfl⟩
        simp only [List.mem_append, List.mem_cons] at hx ⊢
        tauto
      · rw [if_neg hkeep] at hlast'
        exact ⟨new, by simp, hlast'⟩

/-! ## A segment between two others -/

/-- A node of a segment with the packet at `pkt`. -/
def segmentAt (pkt : ℕ) (seq nxtSeq : UInt32) : SeqNode :=
  ⟨some pkt, seq, nxtSeq, true, TH_ACK, 0, 0, false, nxtSeq - seq⟩

/-- Two segments of the source at 10 and 11, the first one inserted last, one of the destination
at 20, and a new one at 12 that overlaps both of the source. -/
def twoSegments : OrderMem where
  src := some 10
  dst := some 20
  lastSrc := some 10
  lastDst := some 20
  num := 3
  seqs := fun a =>
    if a = 10 then some ⟨segmentAt 1 1 11, some 11⟩
    else if a = 11 then some ⟨segmentAt 2 31 41, none⟩
    else if a = 12 then some ⟨segmentAt 3 5 35, none⟩
    else if a = 20 then some ⟨segmentAt 4 1 9, none⟩
    else none
  pkts := fun a =>
    if a = 3 then some ⟨3, 0, 0, 84, 1, 2, 4000, 80, 20, 70, 6, 5, 1, TH_ACK, 20, 30, 1, none, none⟩
    else none

/-- It is linked between them. -/
theorem tcp_order_frame_between :
    ∃ o' xs ys s', twoSegments.tcpOrderAt 2 12 true = some (o', 0) ∧
      [(10, segmentAt 1 1 11), (11, segmentAt 2 31 41)] = xs ++ ys ∧
      o'.HoldsDir true (xs ++ (12, s') :: ys) ∧ s'.pkt = some 3 ∧
      o'.HoldsDir false [(20, segmentAt 4 1 9)] := by
  have hl : twoSegments.HoldsDir true [(10, segmentAt 1 1 11), (11, segmentAt 2 31 41)] :=
    ⟨⟨rfl, _, rfl, rfl, _, rfl, rfl⟩, fun _ => ⟨10, by decide, rfl⟩⟩
  have hnew : NewNode twoSegments 12 (segmentAt 3 5 35)
      [(10, segmentAt 1 1 11), (11, segmentAt 2 31 41)] := by
    refine ⟨rfl, by decide, fun p hp => ?_⟩
    obtain rfl := Option.some.inj hp
    rfl
  have hdst : twoSegments.HoldsDir false [(20, segmentAt 4 1 9)] :=
    ⟨⟨rfl, _, rfl, rfl⟩, fun _ => ⟨20, by decide, rfl⟩⟩
  have hret : (twoSegments.tcpOrderAt 2 12 true).map Prod.snd = some 0 := by decide
  obtain ⟨o', ret, hcall, hres, -, hother⟩ := tcp_order_frame hl hnew (Nat.le_refl 2)
  rw [hcall] at hret
  obtain rfl := Option.some.inj hret
  rcases hres with ⟨hone, -⟩ | ⟨-, xs, ys, s', hsplit, hlist, hpkt, -⟩
  · cases hone
  · exact ⟨o', xs, ys, s', hcall, hsplit, hlist, hpkt, hother _ hdst (by decide)⟩

end OrderMem

end MonitoringTool.Sniffer
