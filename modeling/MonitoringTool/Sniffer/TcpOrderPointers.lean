import MonitoringTool.Lib.SinglyLinked
import MonitoringTool.Sniffer.TcpOrder

/-!
# `tcp_order` on lists in memory

`TcpOrder` has the two lists of an `order_t` as lists with a cursor.  Here they are what the code
has: nodes in memory, linked by `next`, with a pointer to the head and one to the node inserted
last for each direction, and the packets in a memory of their own.  A pointer that is null, or to
a node that was freed, cannot be followed.

`placeAt` finds what `placeOf` finds (`placeAt_spec`), so that both loops of the code end.
-/

namespace MonitoringTool.Sniffer

open Lib

/-! ## The code -/

/-- `seq_t`, less its `next` pointer. -/
structure SeqNode where
  pkt : Option ℕ
  seq : UInt32
  nxtSeq : UInt32
  ack : Bool
  thFlags : UInt8
  capSec : Int
  capUsec : Int
  processed : Bool
  size : UInt32
  deriving DecidableEq

/-- `order_t`, less the members nothing reads, with the memory of the nodes and of the packets. -/
structure OrderMem where
  src : Option ℕ
  dst : Option ℕ
  lastSrc : Option ℕ
  lastDst : Option ℕ
  num : UInt32
  seqs : NodeMemory SeqNode
  pkts : ℕ → Option PacketT

namespace OrderMem

/-- `*plist`. -/
def plist (o : OrderMem) (src : Bool) : Option ℕ := if src then o.src else o.dst

/-- `*plist_last`. -/
def plistLast (o : OrderMem) (src : Bool) : Option ℕ := if src then o.lastSrc else o.lastDst

/-- `*plist = a`. -/
def setPlist (o : OrderMem) (src : Bool) (a : ℕ) : OrderMem :=
  if src then { o with src := some a } else { o with dst := some a }

/-- `*plist_last = a`. -/
def setPlistLast (o : OrderMem) (src : Bool) (a : ℕ) : OrderMem :=
  if src then { o with lastSrc := some a } else { o with lastDst := some a }

/-- `ord->num++`. -/
def count (o : OrderMem) : OrderMem := { o with num := o.num + 1 }

/-- `a->next = b`. -/
def link (o : OrderMem) (a b : ℕ) : Option OrderMem :=
  (o.seqs.setNext a (some b)).map fun seqs => { o with seqs := seqs }

/-- A store in the node at `a`. -/
def storeSeq (o : OrderMem) (a : ℕ) (f : SeqNode → SeqNode) : Option OrderMem :=
  (o.seqs.modifyVal a f).map fun seqs => { o with seqs := seqs }

/-- A store in the packet of a node, if it has one. -/
def storePkt (o : OrderMem) (s : SeqNode) (f : PacketT → PacketT) : Option OrderMem :=
  match s.pkt with
  | none => some o
  | some p =>
      (o.pkts p).map fun q => { o with pkts := Function.update o.pkts p (some (f q)) }

/-- `tcp_cont_seq(lst)`; `none` also when it has not ended after `fuel` nodes. -/
def contSeqAt (seqs : NodeMemory SeqNode) : (fuel : ℕ) → (lst : ℕ) → Option ℕ
  | 0, _ => none
  | fuel + 1, lst =>
      (seqs lst).bind fun n =>
        match n.next with
        | none => some lst
        | some next =>
            (seqs next).bind fun m =>
              if n.val.nxtSeq = m.val.seq then contSeqAt seqs fuel next else some lst

/-- "search position": `pre` and `cp` when the loop ends, within `fuel` nodes. -/
def searchAt (seqs : NodeMemory SeqNode) (seq : UInt32) :
    (fuel : ℕ) → (pre : ℕ) → (cp : Option ℕ) → Option (ℕ × Option ℕ)
  | _, pre, none => some (pre, none)
  | 0, _, some _ => none
  | fuel + 1, pre, some cp =>
      (seqs cp).bind fun n =>
        if n.val.nxtSeq ≤ seq then searchAt seqs seq fuel cp n.next else some (pre, some cp)

/-- What `tcp_order` knows before it links the segment: `pre` at the list end, else `fr` and
`cp`. -/
inductive PlaceAt where
  | atEnd (pre : ℕ) : PlaceAt
  | within (fr : UInt32) (cp : ℕ) : PlaceAt

/-- "set some variables to add a new seq to order", for a list that begins at `head`. -/
def placeAt (fuel : ℕ) (o : OrderMem) (src : Bool) (s : SeqNode) (head : ℕ) : Option PlaceAt :=
  (o.plistLast src).bind fun last =>
    (o.seqs last).bind fun l =>
      if l.val.nxtSeq = s.seq then
        (contSeqAt o.seqs fuel last).map fun cp => .within l.val.seq cp
      else
        (searchAt o.seqs s.seq fuel head (some head)).bind fun r =>
          match r.2 with
          | none => some (.atEnd r.1)
          | some _ =>
              (o.seqs r.1).bind fun pre =>
                (contSeqAt o.seqs fuel r.1).map fun cp => .within pre.val.seq cp

/-- The front of a packet is cut: `delta` bytes stay. -/
def cutFront (delta : UInt32) (p : PacketT) : PacketT :=
  { p with
    tcpData := p.tcpData.map fun off => off + (p.tcpDl.toUInt32 - delta).toNat
    tcpDl := delta.toUInt16 }

/-- The last `n` bytes of a packet are cut. -/
def cutBack (n : UInt32) (p : PacketT) : PacketT :=
  { p with tcpDl := (p.tcpDl.toUInt32 - n).toUInt16 }

/-- The new node is put before its follower; partially overlapped, its back is cut. -/
def connect (o : OrderMem) (src : Bool) (new aft : ℕ) : Option OrderMem :=
  (o.seqs new).bind fun s =>
    (o.seqs aft).bind fun a =>
      (if s.val.nxtSeq ≤ a.val.seq then some o
        else
          (o.storePkt s.val (cutBack (s.val.nxtSeq - a.val.seq))).bind fun o =>
            o.storeSeq new ({ · with nxtSeq := a.val.seq })).bind fun o =>
        (o.link new aft).map fun o => (o.setPlistLast src new).count

/-- "add new seq to the right position". -/
def addSeq (o : OrderMem) (src : Bool) (new : ℕ) (fr : UInt32) (cp : ℕ) :
    Option (OrderMem × Int) :=
  (o.seqs new).bind fun s =>
    (o.seqs cp).bind fun c =>
      let aft := c.next
      let bk := c.val.nxtSeq - 1
      if fr ≤ s.val.seq ∧ s.val.seq ≤ bk then
        if s.val.nxtSeq - 1 ≤ bk then
          -- retransmission
          (o.seqs.free new).map fun seqs => ({ o with seqs := seqs }, 1)
        else
          let delta := (s.val.nxtSeq - 1) - bk
          (o.storePkt s.val (cutFront delta)).bind fun o =>
            (o.storeSeq new ({ · with seq := bk + 1 })).bind fun o =>
              (o.link cp new).bind fun o =>
                let o := o.setPlistLast src new
                match aft with
                | none => some (o, 0)
                | some aft =>
                    (o.link new aft).bind fun o =>
                      (o.connect src new aft).map fun o => (o, 0)
      else
        (o.link cp new).bind fun o =>
          match aft with
          | none => some (o, 0)
          | some aft => (o.connect src new aft).map fun o => (o, 0)

/-- `tcp_order`, with the new node at `new`; `none` also when one of its loops has not ended after
`fuel` nodes. -/
def tcpOrderAt (fuel : ℕ) (o : OrderMem) (new : ℕ) (src : Bool) : Option (OrderMem × Int) :=
  match o.plist src with
  | none => some (((o.setPlist src new).setPlistLast src new).count, 0)      -- first packet
  | some head =>
      (o.seqs new).bind fun s =>
        (o.placeAt fuel src s.val head).bind fun place =>
          match place with
          | .atEnd pre => (o.link pre new).map fun o => ((o.setPlistLast src new).count, 0)
          | .within fr cp => o.addSeq src new fr cp

/-! ## Where the new node belongs -/

/-- A node as the lists have it, with its packet in place of the pointer to it. -/
def read (pkts : ℕ → Option PacketT) (s : SeqNode) : SeqT :=
  ⟨s.pkt.bind pkts, s.seq, s.nxtSeq, s.ack, s.thFlags, s.capSec, s.capUsec, s.processed, s.size⟩

/-- The nodes of a list. -/
def readAll (pkts : ℕ → Option PacketT) (l : List (ℕ × SeqNode)) : List SeqT :=
  l.map fun x => read pkts x.2

@[simp] theorem readAll_nil (pkts : ℕ → Option PacketT) : readAll pkts [] = [] := rfl

@[simp] theorem readAll_cons (pkts : ℕ → Option PacketT) (x : ℕ × SeqNode)
    (l : List (ℕ × SeqNode)) : readAll pkts (x :: l) = read pkts x.2 :: readAll pkts l := rfl

@[simp] theorem readAll_append (pkts : ℕ → Option PacketT) (xs ys : List (ℕ × SeqNode)) :
    readAll pkts (xs ++ ys) = readAll pkts xs ++ readAll pkts ys :=
  List.map_append

section Place

variable {m : NodeMemory SeqNode} {pkts : ℕ → Option PacketT} {p : Option ℕ}
  {l xs ys : List (ℕ × SeqNode)} {a fuel : ℕ} {v : SeqNode}

/-- `tcp_cont_seq` ends at the node where the scan of the list ends. -/
theorem contSeqAt_spec (pkts : ℕ → Option PacketT) (h : ListSeg m p (xs ++ (a, v) :: ys) none)
    (hfuel : ys.length < fuel) :
    ∃ zs b w ws, contSeqAt m fuel a = some b ∧ xs ++ (a, v) :: ys = zs ++ (b, w) :: ws ∧
      tcpContSeq (readAll pkts xs) (read pkts v) (readAll pkts ys) =
        ⟨readAll pkts zs, read pkts w, readAll pkts ws⟩ := by
  induction ys generalizing xs a v fuel with
  | nil =>
      obtain ⟨fuel, rfl⟩ := Nat.exists_eq_succ_of_ne_zero (Nat.ne_of_gt hfuel)
      refine ⟨xs, a, v, [], ?_, rfl, rfl⟩
      rw [contSeqAt, h.node]
      rfl
  | cons y ys ih =>
      obtain ⟨b, w⟩ := y
      obtain ⟨fuel, rfl⟩ := Nat.exists_eq_succ_of_ne_zero (Nat.ne_of_gt (Nat.zero_lt_of_lt hfuel))
      have hsplit : xs ++ (a, v) :: (b, w) :: ys = (xs ++ [(a, v)]) ++ (b, w) :: ys := by simp
      have hnext : m b = some ⟨w, firstOf ys none⟩ := (hsplit ▸ h).node
      have hcont : contSeqAt m (fuel + 1) a =
          if v.nxtSeq = w.seq then contSeqAt m fuel b else some a := by
        rw [contSeqAt, h.node]
        simp [hnext]
      by_cases hseq : v.nxtSeq = w.seq
      · obtain ⟨zs, c, u, ws, hc, hl, hscan⟩ :=
          @ih (xs ++ [(a, v)]) b fuel w (hsplit ▸ h) (Nat.lt_of_succ_lt_succ hfuel)
        refine ⟨zs, c, u, ws, ?_, hsplit.trans hl, ?_⟩
        · rw [hcont, if_pos hseq, hc]
        · have hseq' : (read pkts v).nxtSeq = (read pkts w).seq := hseq
          rw [← hscan, readAll_cons, tcpContSeq, if_pos hseq', readAll_append]
          rfl
      · refine ⟨xs, a, v, (b, w) :: ys, ?_, rfl, ?_⟩
        · rw [hcont, if_neg hseq]
        · have hseq' : ¬ (read pkts v).nxtSeq = (read pkts w).seq := hseq
          rw [readAll_cons, tcpContSeq, if_neg hseq']

/-- A pointer `cp` or `pre` and the cursor that points to the same node. -/
inductive SamePlace (pkts : ℕ → Option PacketT) (l : List (ℕ × SeqNode)) : PlaceAt → Place → Prop
  | atEnd (zs : List (ℕ × SeqNode)) (b : ℕ) (w : SeqNode) :
      l = zs ++ [(b, w)] → SamePlace pkts l (.atEnd b) .atEnd
  | within (fr : UInt32) (zs : List (ℕ × SeqNode)) (b : ℕ) (w : SeqNode)
      (ws : List (ℕ × SeqNode)) :
      l = zs ++ (b, w) :: ws → SamePlace pkts l (.within fr b)
        (.within fr ⟨readAll pkts zs, read pkts w, readAll pkts ws⟩)

/-- The search loop, entered with `pre` at `a`. -/
theorem searchAt_spec {s : SeqT} (h : ListSeg m p (xs ++ (a, v) :: ys) none)
    (hfuel : ys.length ≤ fuel) :
    (∃ zs b w, searchAt m s.seq fuel a (firstOf ys none) = some (b, none) ∧
      xs ++ (a, v) :: ys = zs ++ [(b, w)] ∧
      searchFrom s (readAll pkts xs) (read pkts v) (readAll pkts ys) = none) ∨
    ∃ zs b w ws c, searchAt m s.seq fuel a (firstOf ys none) = some (b, some c) ∧
      xs ++ (a, v) :: ys = zs ++ (b, w) :: ws ∧
      searchFrom s (readAll pkts xs) (read pkts v) (readAll pkts ys) =
        some ⟨readAll pkts zs, read pkts w, readAll pkts ws⟩ := by
  induction ys generalizing xs a v fuel with
  | nil =>
      refine .inl ⟨xs, a, v, ?_, rfl, rfl⟩
      cases fuel <;> rfl
  | cons y ys ih =>
      obtain ⟨b, w⟩ := y
      obtain ⟨fuel, rfl⟩ := Nat.exists_eq_succ_of_ne_zero (Nat.ne_of_gt (Nat.zero_lt_of_lt hfuel))
      have hsplit : xs ++ (a, v) :: (b, w) :: ys = (xs ++ [(a, v)]) ++ (b, w) :: ys := by simp
      have hnext : m b = some ⟨w, firstOf ys none⟩ := (hsplit ▸ h).node
      have hloop : searchAt m s.seq (fuel + 1) a (firstOf ((b, w) :: ys) none) =
          if w.nxtSeq ≤ s.seq then searchAt m s.seq fuel b (firstOf ys none)
          else some (a, some b) := by
        rw [firstOf_cons, searchAt, hnext]
        rfl
      rw [hloop, readAll_cons, searchFrom]
      by_cases hle : w.nxtSeq ≤ s.seq
      · have hle' : (read pkts w).nxtSeq ≤ s.seq := hle
        rw [if_pos hle, if_pos hle', hsplit]
        have hxs : readAll pkts xs ++ [read pkts v] = readAll pkts (xs ++ [(a, v)]) := by simp
        rw [hxs]
        exact ih (hsplit ▸ h) (Nat.le_of_succ_le_succ hfuel)
      · have hle' : ¬ (read pkts w).nxtSeq ≤ s.seq := hle
        rw [if_neg hle, if_neg hle']
        exact .inr ⟨xs, a, v, (b, w) :: ys, b, rfl, rfl, rfl⟩

/-- The search, entered with `pre` and `cp` at the head. -/
theorem searchAt_head {s : SeqT} (h : ListSeg m p ((a, v) :: ys) none)
    (hfuel : ys.length < fuel) :
    (∃ zs b w, searchAt m s.seq fuel a (some a) = some (b, none) ∧
      (a, v) :: ys = zs ++ [(b, w)] ∧ search s (read pkts v) (readAll pkts ys) = none) ∨
    ∃ zs b w ws c, searchAt m s.seq fuel a (some a) = some (b, some c) ∧
      (a, v) :: ys = zs ++ (b, w) :: ws ∧
      search s (read pkts v) (readAll pkts ys) =
        some ⟨readAll pkts zs, read pkts w, readAll pkts ws⟩ := by
  obtain ⟨fuel, rfl⟩ := Nat.exists_eq_succ_of_ne_zero (Nat.ne_of_gt (Nat.zero_lt_of_lt hfuel))
  have hnode : m a = some ⟨v, firstOf ys none⟩ := @ListSeg.node _ m p none [] ys a v h
  have hloop : searchAt m s.seq (fuel + 1) a (some a) =
      if v.nxtSeq ≤ s.seq then searchAt m s.seq fuel a (firstOf ys none)
      else some (a, some a) := by
    rw [searchAt, hnode]
    rfl
  rw [hloop, search]
  by_cases hle : v.nxtSeq ≤ s.seq
  · have hle' : (read pkts v).nxtSeq ≤ s.seq := hle
    rw [if_pos hle, if_pos hle']
    exact @searchAt_spec m pkts p [] ys a fuel v s h (Nat.le_of_lt_succ hfuel)
  · have hle' : ¬ (read pkts v).nxtSeq ≤ s.seq := hle
    rw [if_neg hle, if_neg hle']
    exact .inr ⟨[], a, v, ys, a, rfl, rfl, rfl⟩

/-- **`placeAt`** finds the place that `placeOf` finds. -/
theorem placeAt_spec {o : OrderMem} {src : Bool} {s : SeqNode} {head : ℕ}
    (pkts : ℕ → Option PacketT) (h : ListSeg o.seqs (some head) (xs ++ (a, v) :: ys) none)
    (hlast : o.plistLast src = some a) (hfuel : (xs ++ (a, v) :: ys).length ≤ fuel) :
    ∃ place, o.placeAt fuel src s head = some place ∧
      SamePlace pkts (xs ++ (a, v) :: ys) place
        (placeOf (read pkts s) ⟨readAll pkts xs, read pkts v, readAll pkts ys⟩) := by
  have hys : ys.length < fuel := by
    simp only [List.length_append, List.length_cons] at hfuel
    omega
  rw [placeAt, hlast, Option.bind_some, h.node, Option.bind_some, placeOf_eq]
  by_cases hseq : v.nxtSeq = s.seq
  · have hseq' : (read pkts v).nxtSeq = (read pkts s).seq := hseq
    obtain ⟨zs, b, w, ws, hb, hl, hscan⟩ := contSeqAt_spec pkts h hys
    rw [if_pos hseq, hb, if_pos hseq', hscan]
    exact ⟨_, rfl, .within _ zs b w ws hl⟩
  · have hseq' : ¬ (read pkts v).nxtSeq = (read pkts s).seq := hseq
    rw [if_neg hseq, if_neg hseq']
    have hnodes : Cursor.nodes ⟨readAll pkts xs, read pkts v, readAll pkts ys⟩ =
        readAll pkts (xs ++ (a, v) :: ys) := by simp [Cursor.nodes]
    rw [hnodes]
    -- from here on the list is taken from its head
    generalize xs ++ (a, v) :: ys = l at h hfuel ⊢
    cases l with
    | nil => cases (h : some head = none)
    | cons x tail =>
        obtain ⟨b, w⟩ := x
        obtain rfl := Option.some.inj h.1
        rw [readAll_cons, placeFromHead]
        have htail : tail.length < fuel := hfuel
        rcases @searchAt_head o.seqs pkts _ tail head fuel w (read pkts s) h htail with
          ⟨zs, c, u, hsearch, hl, hscan⟩ | ⟨zs, c, u, ws, d, hsearch, hl, hscan⟩
        · rw [hscan]
          have hsearch' : searchAt o.seqs s.seq fuel head (some head) = some (c, none) := hsearch
          rw [hsearch']
          exact ⟨_, rfl, .atEnd zs c u hl⟩
        · rw [hscan]
          have hsearch' : searchAt o.seqs s.seq fuel head (some head) = some (c, some d) := hsearch
          rw [hl] at h hfuel
          have hws : ws.length < fuel := by
            simp only [List.length_append, List.length_cons] at hfuel
            omega
          obtain ⟨zs', b', w', ws', hb', hl', hscan'⟩ := contSeqAt_spec pkts h hws
          rw [hsearch', Option.bind_some]
          dsimp only
          rw [h.node, Option.bind_some, hb', hscan']
          exact ⟨_, rfl, .within _ zs' b' w' ws' (hl.trans hl')⟩

end Place

end OrderMem

end MonitoringTool.Sniffer
