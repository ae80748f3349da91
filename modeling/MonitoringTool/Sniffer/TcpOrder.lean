import MonitoringTool.Sniffer.Packet

/-!
# `tcp_order`: inserting a segment into an order list

One direction of an `order_t` is a singly linked list together with a pointer
to the node inserted last.  A pointer into a list is a `Cursor`: the nodes
before it, the node it points to, and the nodes after it.  A `SeqList` is then
`null` or a cursor at the last-inserted node, so that pointer cannot dangle.

`tcpOrder` follows the source: find where the segment belongs (`placeOf`),
then link it behind the end of the continuous run found there (`linkSegment`).
Unsigned arithmetic is that of `UInt32` and `UInt16`.
-/

namespace MonitoringTool.Sniffer

/-! ## Lists and pointers into them -/

/-- A pointer into a list of nodes. -/
structure Cursor where
  before : List SeqT
  node : SeqT
  after : List SeqT
  deriving DecidableEq

/-- The whole list a cursor points into. -/
def Cursor.nodes (c : Cursor) : List SeqT := c.before ++ c.node :: c.after

/-- Link `s` behind the node the cursor points to, and point to `s`. -/
def Cursor.insert (c : Cursor) (s : SeqT) : Cursor := ⟨c.before ++ [c.node], s, c.after⟩

/-- One direction of an `order_t`: its list (`src` or `dst`) with the pointer
`last_src` or `last_dst` into it. -/
inductive SeqList where
  | null : SeqList
  | withLast (last : Cursor) : SeqList
  deriving DecidableEq

/-- The nodes of the list, in order. -/
def SeqList.nodes : SeqList → List SeqT
  | .null => []
  | .withLast last => last.nodes

/-- The list with other contents in its nodes; the last-inserted node keeps its
position. -/
def SeqList.setNodes (nodes : List SeqT) : SeqList → SeqList
  | .null => .null
  | .withLast last =>
      match nodes.drop last.before.length with
      | node :: after => .withLast ⟨nodes.take last.before.length, node, after⟩
      | [] => .withLast last

/-- `order_t`, less the members nothing reads. -/
structure OrderT where
  src : SeqList
  dst : SeqList
  num : UInt32
  deriving DecidableEq

/-- `order_new`. -/
def OrderT.new : OrderT := ⟨.null, .null, 0⟩

/-- The list of one direction: `src == true` names the source list. -/
def OrderT.dir (ord : OrderT) (src : Bool) : SeqList := if src then ord.src else ord.dst

/-- Replace the list of one direction. -/
def OrderT.setDir (ord : OrderT) (src : Bool) (lst : SeqList) : OrderT :=
  if src then { ord with src := lst } else { ord with dst := lst }

/-! ## Where the segment belongs -/

/-- `tcp_cont_seq`: follow the list while each node ends where the next begins. -/
def tcpContSeq (before : List SeqT) (lst : SeqT) : List SeqT → Cursor
  | [] => ⟨before, lst, []⟩
  | next :: rest =>
      if lst.nxtSeq = next.seq then tcpContSeq (before ++ [lst]) next rest
      else ⟨before, lst, next :: rest⟩

/-- The search loop, entered with `pre` known to end at or before the segment:
`none` at the list end, otherwise the last node that ends at or before it. -/
def searchFrom (newSeq : SeqT) (before : List SeqT) (pre : SeqT) : List SeqT → Option Cursor
  | [] => none
  | cp :: rest =>
      if cp.nxtSeq ≤ newSeq.seq then searchFrom newSeq (before ++ [pre]) cp rest
      else some ⟨before, pre, cp :: rest⟩

/-- The search from the head of the list.  When the loop body never runs, `pre`
stays on the head. -/
def search (newSeq : SeqT) (head : SeqT) (tail : List SeqT) : Option Cursor :=
  if head.nxtSeq ≤ newSeq.seq then searchFrom newSeq [] head tail else some ⟨[], head, tail⟩

/-- What `tcp_order` knows before it links the segment. -/
inductive Place where
  /-- Behind every listed node. -/
  | atEnd : Place
  /-- `fr` is the start of the continuous run found, `cp` points to its end. -/
  | within (fr : UInt32) (cp : Cursor) : Place
  deriving DecidableEq

/-- `fr`, `cp` (and with it `aft` and `bk`) for a list with last-inserted node
`last`: the shortcut through that node, else the search from the head. -/
def placeOf (newSeq : SeqT) (last : Cursor) : Place :=
  if last.node.nxtSeq = newSeq.seq then
    .within last.node.seq (tcpContSeq last.before last.node last.after)
  else
    let pre :=
      match last.before with
      | [] => search newSeq last.node last.after
      | head :: tail => search newSeq head (tail ++ last.node :: last.after)
    match pre with
    | none => .atEnd
    | some pre => .within pre.node.seq (tcpContSeq pre.before pre.node pre.after)

/-! ## Trimming and linking -/

/-- Cut the front of the segment: only `delta` bytes behind `bk` stay. -/
def SeqT.trimFront (s : SeqT) (bk : UInt32) : SeqT :=
  let delta := (s.nxtSeq - 1) - bk
  { s with
    pkt := s.pkt.map fun p =>
      { p with
        tcpData := p.tcpData.map fun off => off + (p.tcpDl.toUInt32 - delta).toNat
        tcpDl := delta.toUInt16 }
    seq := bk + 1 }

/-- Cut the back of the segment at the start of the node that follows it. -/
def SeqT.trimBack (s : SeqT) (aftSeq : UInt32) : SeqT :=
  { s with
    pkt := s.pkt.map fun p =>
      { p with tcpDl := (p.tcpDl.toUInt32 - (s.nxtSeq - aftSeq)).toUInt16 }
    nxtSeq := aftSeq }

/-- The segment as it is linked before `aft`: partially overlapped, its back is
cut. -/
def SeqT.fitBefore (s : SeqT) (aft : SeqT) : SeqT :=
  if s.nxtSeq ≤ aft.seq then s else s.trimBack aft.seq

/-- Result of `tcp_order` on one direction: the list, `ord->num` and the return
value. -/
structure OrderResult where
  list : SeqList
  num : UInt32
  ret : Int
  deriving DecidableEq

/-- The segment starts inside the continuous run `[fr, bk]`. -/
def InRun (fr bk : UInt32) (newSeq : SeqT) : Prop := fr ≤ newSeq.seq ∧ newSeq.seq ≤ bk

instance (fr bk : UInt32) (newSeq : SeqT) : Decidable (InRun fr bk newSeq) := by
  unfold InRun
  infer_instance

/-- "add new seq to the right position".  Behind the end of the list `num` is not
counted, and without a front trim the last-inserted pointer stays where it is. -/
def linkSegment (last : Cursor) (num : UInt32) (newSeq : SeqT) (fr : UInt32) (cp : Cursor) :
    OrderResult :=
  let bk := cp.node.nxtSeq - 1
  if InRun fr bk newSeq then
    if newSeq.nxtSeq - 1 ≤ bk then
      ⟨.withLast last, num, 1⟩      -- retransmission
    else
      let newSeq := newSeq.trimFront bk
      match cp.after with
      | [] => ⟨.withLast (cp.insert newSeq), num, 0⟩
      | aft :: _ => ⟨.withLast (cp.insert (newSeq.fitBefore aft)), num + 1, 0⟩
  else
    match cp.after with
    | [] => ⟨.withLast { last with after := last.after ++ [newSeq] }, num, 0⟩
    | aft :: _ => ⟨.withLast (cp.insert (newSeq.fitBefore aft)), num + 1, 0⟩

/-- `tcp_order` on one direction. -/
def tcpOrderDir (lst : SeqList) (num : UInt32) (newSeq : SeqT) : OrderResult :=
  match lst with
  | .null => ⟨.withLast ⟨[], newSeq, []⟩, num + 1, 0⟩      -- first packet
  | .withLast last =>
      match placeOf newSeq last with
      | .atEnd => ⟨.withLast ⟨last.nodes, newSeq, []⟩, num + 1, 0⟩
      | .within fr cp => linkSegment last num newSeq fr cp

/-- `tcp_order`: the order after the call and the return value. -/
def tcpOrder (ord : OrderT) (newSeq : SeqT) (src : Bool) : OrderT × Int :=
  let r := tcpOrderDir (ord.dir src) ord.num newSeq
  ({ ord.setDir src r.list with num := r.num }, r.ret)

/-! ## What the pieces find

From here on `tcp_order` is used through these lemmas only.
-/

@[simp] theorem OrderT.setDir_dir_self (ord : OrderT) (src : Bool) (lst : SeqList) :
    (ord.setDir src lst).dir src = lst := by
  cases src <;> rfl

@[simp] theorem OrderT.setDir_dir_not (ord : OrderT) (src : Bool) (lst : SeqList) :
    (ord.setDir src lst).dir (!src) = ord.dir (!src) := by
  cases src <;> rfl

/-- `tcp_order` works on one direction and leaves the other alone. -/
theorem tcpOrder_dir (ord : OrderT) (newSeq : SeqT) (src dir : Bool) :
    (tcpOrder ord newSeq src).1.dir dir =
      if dir = src then (tcpOrderDir (ord.dir src) ord.num newSeq).list else ord.dir dir := by
  cases src <;> cases dir <;> rfl

theorem tcpContSeq_nodes (before : List SeqT) (lst : SeqT) (after : List SeqT) :
    (tcpContSeq before lst after).nodes = before ++ lst :: after := by
  induction after generalizing before lst with
  | nil => rfl
  | cons next rest ih =>
      unfold tcpContSeq
      split
      · rw [ih]
        simp
      · rfl

/-- The run found starts where the scan started. -/
theorem mem_tcpContSeq (before : List SeqT) (lst : SeqT) (after : List SeqT) :
    ∃ run, (tcpContSeq before lst after).before ++ [(tcpContSeq before lst after).node] =
      before ++ lst :: run := by
  induction after generalizing before lst with
  | nil => exact ⟨[], rfl⟩
  | cons next rest ih =>
      unfold tcpContSeq
      split
      · obtain ⟨run, hrun⟩ := ih (before ++ [lst]) next
        exact ⟨next :: run, by simpa using hrun⟩
      · exact ⟨[], rfl⟩

private theorem searchFrom_cases (newSeq : SeqT) (before : List SeqT) (pre : SeqT)
    (rest : List SeqT) (hbefore : ∀ n ∈ before, n.nxtSeq ≤ newSeq.seq)
    (hpre : pre.nxtSeq ≤ newSeq.seq) :
    (searchFrom newSeq before pre rest = none ∧ ∀ n ∈ rest, n.nxtSeq ≤ newSeq.seq) ∨
      ∃ b p cp r, searchFrom newSeq before pre rest = some ⟨b, p, cp :: r⟩ ∧
        before ++ pre :: rest = b ++ p :: cp :: r ∧ (∀ n ∈ b, n.nxtSeq ≤ newSeq.seq) ∧
        p.nxtSeq ≤ newSeq.seq ∧ newSeq.seq < cp.nxtSeq := by
  induction rest generalizing before pre with
  | nil => exact .inl ⟨rfl, by simp⟩
  | cons cp rest ih =>
      unfold searchFrom
      split
      · next hcp =>
        have hbefore' : ∀ n ∈ before ++ [pre], n.nxtSeq ≤ newSeq.seq := by
          intro n hn
          rcases List.mem_append.mp hn with hn | hn
          · exact hbefore n hn
          · exact List.mem_singleton.mp hn ▸ hpre
        rcases ih (before ++ [pre]) cp hbefore' hcp with
          ⟨hnone, hrest⟩ | ⟨b, p, c, r, hsome, heq, h⟩
        · exact .inl ⟨hnone, by simpa [hcp] using hrest⟩
        · exact .inr ⟨b, p, c, r, hsome, by simpa using heq, h⟩
      · next hcp =>
        exact .inr ⟨before, pre, cp, rest, rfl, rfl, hbefore, hpre, by grind⟩

/-- The place that the search from the head finds, whatever was inserted last. -/
def placeFromHead (newSeq : SeqT) : List SeqT → Place
  | [] => .atEnd
  | head :: tail =>
      match search newSeq head tail with
      | none => .atEnd
      | some pre => .within pre.node.seq (tcpContSeq pre.before pre.node pre.after)

/-- The shortcut is taken when the segment continues the last-inserted node. -/
theorem placeOf_eq (newSeq : SeqT) (last : Cursor) :
    placeOf newSeq last =
      if last.node.nxtSeq = newSeq.seq then
        .within last.node.seq (tcpContSeq last.before last.node last.after)
      else placeFromHead newSeq last.nodes := by
  obtain ⟨before, node, after⟩ := last
  cases before <;> rfl

/-- **Where the search puts a segment.**  At the list end when every node ends at or before
it; otherwise at the run of the head when already the head ends behind its start; otherwise
at the run of the last node `pre` that ends at or before it. -/
theorem placeFromHead_cases (newSeq : SeqT) (nodes : List SeqT) :
    (placeFromHead newSeq nodes = .atEnd ∧ ∀ n ∈ nodes, n.nxtSeq ≤ newSeq.seq) ∨
    (∃ head tail, nodes = head :: tail ∧ newSeq.seq < head.nxtSeq ∧
      placeFromHead newSeq nodes = .within head.seq (tcpContSeq [] head tail)) ∨
    (∃ before pre cp rest, nodes = before ++ pre :: cp :: rest ∧
      (∀ n ∈ before, n.nxtSeq ≤ newSeq.seq) ∧ pre.nxtSeq ≤ newSeq.seq ∧
      newSeq.seq < cp.nxtSeq ∧
      placeFromHead newSeq nodes = .within pre.seq (tcpContSeq before pre (cp :: rest))) := by
  cases nodes with
  | nil => exact .inl ⟨rfl, by simp⟩
  | cons head tail =>
      by_cases hhead : head.nxtSeq ≤ newSeq.seq
      · have hsearch : search newSeq head tail = searchFrom newSeq [] head tail := by
          simp [search, hhead]
        rcases searchFrom_cases newSeq [] head tail (by simp) hhead with
          ⟨hnone, htail⟩ | ⟨b, p, cp, r, hsome, heq, hb, hp, hcp⟩
        · refine .inl ⟨?_, by simpa [hhead] using htail⟩
          simp only [placeFromHead, hsearch, hnone]
        · refine .inr (.inr ⟨b, p, cp, r, by simpa using heq, hb, hp, hcp, ?_⟩)
          simp only [placeFromHead, hsearch, hsome]
      · have hsearch : search newSeq head tail = some ⟨[], head, tail⟩ := by
          simp [search, hhead]
        refine .inr (.inl ⟨head, tail, rfl, by grind, ?_⟩)
        simp only [placeFromHead, hsearch]

/-- **Where `tcp_order` puts a segment.**  Through the last-inserted node when
the segment continues it; otherwise at the list end when every node ends at or
before it; otherwise at the run of the head when already the head ends behind
its start; otherwise at the run of the last node `pre` that ends at or before
it. -/
theorem placeOf_cases (newSeq : SeqT) (last : Cursor) :
    (last.node.nxtSeq = newSeq.seq ∧ placeOf newSeq last =
        .within last.node.seq (tcpContSeq last.before last.node last.after)) ∨
    (placeOf newSeq last = .atEnd ∧ ∀ n ∈ last.nodes, n.nxtSeq ≤ newSeq.seq) ∨
    (∃ head tail, last.nodes = head :: tail ∧ newSeq.seq < head.nxtSeq ∧
      placeOf newSeq last = .within head.seq (tcpContSeq [] head tail)) ∨
    (∃ before pre cp rest, last.nodes = before ++ pre :: cp :: rest ∧
      (∀ n ∈ before, n.nxtSeq ≤ newSeq.seq) ∧ pre.nxtSeq ≤ newSeq.seq ∧
      newSeq.seq < cp.nxtSeq ∧
      placeOf newSeq last = .within pre.seq (tcpContSeq before pre (cp :: rest))) := by
  rw [placeOf_eq]
  by_cases hshort : last.node.nxtSeq = newSeq.seq
  · exact .inl ⟨hshort, if_pos hshort⟩
  · rw [if_neg hshort]
    exact .inr (placeFromHead_cases newSeq last.nodes)

/-- The cursor found points into the list. -/
theorem placeOf_nodes {newSeq : SeqT} {last cp : Cursor} {fr : UInt32}
    (h : placeOf newSeq last = .within fr cp) : cp.nodes = last.nodes := by
  rcases placeOf_cases newSeq last with ⟨-, hp⟩ | ⟨hp, -⟩ | ⟨head, tail, hn, -, hp⟩ |
    ⟨b, p, c, r, hn, -, -, -, hp⟩ <;> rw [hp] at h
  · simp only [Place.within.injEq] at h
    rw [← h.2, tcpContSeq_nodes]
    rfl
  · cases h
  · simp only [Place.within.injEq] at h
    rw [← h.2, tcpContSeq_nodes, hn]
    rfl
  · simp only [Place.within.injEq] at h
    rw [← h.2, tcpContSeq_nodes, hn]

/-- The segment as it is linked, front and back trims applied. -/
def fitted (newSeq : SeqT) (fr : UInt32) (cp : Cursor) : SeqT :=
  let bk := cp.node.nxtSeq - 1
  let s := if InRun fr bk newSeq then newSeq.trimFront bk else newSeq
  match cp.after with
  | [] => s
  | aft :: _ => s.fitBefore aft

/-- The branch that drops the segment. -/
def IsRetransmission (newSeq : SeqT) (fr : UInt32) (cp : Cursor) : Prop :=
  InRun fr (cp.node.nxtSeq - 1) newSeq ∧ newSeq.nxtSeq - 1 ≤ cp.node.nxtSeq - 1

instance (newSeq : SeqT) (fr : UInt32) (cp : Cursor) :
    Decidable (IsRetransmission newSeq fr cp) := by
  unfold IsRetransmission
  infer_instance

theorem linkSegment_retransmission {last cp : Cursor} {num fr : UInt32} {newSeq : SeqT}
    (h : IsRetransmission newSeq fr cp) :
    linkSegment last num newSeq fr cp = ⟨.withLast last, num, 1⟩ := by
  obtain ⟨hin, hle⟩ := h
  simp [linkSegment, hin, hle]

/-- In every other branch the fitted segment is linked behind `cp`. -/
theorem linkSegment_nodes {last cp : Cursor} {num fr : UInt32} {newSeq : SeqT}
    (hcp : cp.nodes = last.nodes) (h : ¬ IsRetransmission newSeq fr cp) :
    (linkSegment last num newSeq fr cp).list.nodes =
        cp.before ++ cp.node :: fitted newSeq fr cp :: cp.after ∧
      (linkSegment last num newSeq fr cp).ret = 0 := by
  unfold linkSegment fitted
  by_cases hin : InRun fr (cp.node.nxtSeq - 1) newSeq
  · have hgt : ¬ newSeq.nxtSeq - 1 ≤ cp.node.nxtSeq - 1 := fun hle => h ⟨hin, hle⟩
    cases hafter : cp.after with
    | nil => simp [hin, hgt, SeqList.nodes, Cursor.nodes, Cursor.insert, hafter]
    | cons aft rest => simp [hin, hgt, SeqList.nodes, Cursor.nodes, Cursor.insert, hafter]
  · cases hafter : cp.after with
    | nil =>
        have hlast : last.before ++ last.node :: last.after = cp.before ++ [cp.node] := by
          simpa [Cursor.nodes, hafter] using hcp.symm
        have happend : last.before ++ last.node :: (last.after ++ [newSeq]) =
            cp.before ++ cp.node :: [newSeq] := by
          rw [← List.cons_append, ← List.append_assoc, hlast]
          simp
        simp [hin, SeqList.nodes, Cursor.nodes, happend]
    | cons aft rest => simp [hin, SeqList.nodes, Cursor.nodes, Cursor.insert, hafter]

/-- **What one insertion does to the list.**  It drops the segment and changes
nothing, or puts it behind all nodes as it is, or links it, fitted, behind the
end `cp` of the run found. -/
theorem tcpOrderDir_cases (lst : SeqList) (num : UInt32) (newSeq : SeqT) :
    (∃ last fr cp, lst = .withLast last ∧ placeOf newSeq last = .within fr cp ∧
      IsRetransmission newSeq fr cp ∧ tcpOrderDir lst num newSeq = ⟨lst, num, 1⟩) ∨
    ((lst = .null ∨ ∃ last, lst = .withLast last ∧ placeOf newSeq last = .atEnd) ∧
      (tcpOrderDir lst num newSeq).list.nodes = lst.nodes ++ [newSeq] ∧
      (tcpOrderDir lst num newSeq).ret = 0) ∨
    (∃ last fr cp, lst = .withLast last ∧ placeOf newSeq last = .within fr cp ∧
      ¬ IsRetransmission newSeq fr cp ∧ lst.nodes = cp.before ++ cp.node :: cp.after ∧
      (tcpOrderDir lst num newSeq).list.nodes =
        cp.before ++ cp.node :: fitted newSeq fr cp :: cp.after ∧
      (tcpOrderDir lst num newSeq).ret = 0) := by
  cases lst with
  | null => exact .inr (.inl ⟨.inl rfl, rfl, rfl⟩)
  | withLast last =>
      cases hp : placeOf newSeq last with
      | atEnd =>
          refine .inr (.inl ⟨.inr ⟨last, rfl, hp⟩, ?_, ?_⟩)
          · simp [tcpOrderDir, hp, SeqList.nodes, Cursor.nodes]
          · simp [tcpOrderDir, hp]
      | within fr cp =>
          by_cases hre : IsRetransmission newSeq fr cp
          · refine .inl ⟨last, fr, cp, rfl, hp, hre, ?_⟩
            simp [tcpOrderDir, hp, linkSegment_retransmission hre]
          · have hcp := placeOf_nodes hp
            obtain ⟨hnodes, hret⟩ := @linkSegment_nodes last cp num fr newSeq hcp hre
            refine .inr (.inr ⟨last, fr, cp, rfl, hp, hre, hcp.symm, ?_, ?_⟩)
            · simpa [tcpOrderDir, hp] using hnodes
            · simpa [tcpOrderDir, hp] using hret

/-- `n` is the segment `newSeq`, up to trims. -/
structure TrimmedFrom (newSeq n : SeqT) : Prop where
  type : n.pkt.map (·.type) = newSeq.pkt.map (·.type)
  thFlags : n.thFlags = newSeq.thFlags
  processed : n.processed = newSeq.processed

theorem TrimmedFrom.fitBefore {newSeq n : SeqT} (h : TrimmedFrom newSeq n) (aft : SeqT) :
    TrimmedFrom newSeq (n.fitBefore aft) := by
  unfold SeqT.fitBefore
  split
  · exact h
  · refine ⟨?_, h.thFlags, h.processed⟩
    rw [← h.type]
    simp [SeqT.trimBack, Function.comp_def]

theorem trimmedFrom_fitted (newSeq : SeqT) (fr : UInt32) (cp : Cursor) :
    TrimmedFrom newSeq (fitted newSeq fr cp) := by
  have hfront : TrimmedFrom newSeq
      (if InRun fr (cp.node.nxtSeq - 1) newSeq then newSeq.trimFront (cp.node.nxtSeq - 1)
        else newSeq) := by
    split
    · exact ⟨by simp [SeqT.trimFront, Function.comp_def], rfl, rfl⟩
    · exact ⟨rfl, rfl, rfl⟩
  unfold fitted
  cases cp.after with
  | nil => exact hfront
  | cons aft rest => exact hfront.fitBefore aft

/-- `p` is `q`, perhaps cut. -/
def PacketT.CutFrom (p q : PacketT) : Prop :=
  ∃ dl data, p = { q with tcpDl := dl, tcpData := data }

/-- The linked segment keeps its packet, perhaps cut. -/
theorem fitted_cutFrom {newSeq : SeqT} {fr : UInt32} {cp : Cursor} {p : PacketT}
    (h : (fitted newSeq fr cp).pkt = some p) : ∃ q, newSeq.pkt = some q ∧ p.CutFrom q := by
  have hback : ∀ (s : SeqT) aft p, (s.fitBefore aft).pkt = some p →
      ∃ q, s.pkt = some q ∧ p.CutFrom q := by
    intro s aft p h
    unfold SeqT.fitBefore at h
    split at h
    · exact ⟨p, h, p.tcpDl, p.tcpData, rfl⟩
    · obtain ⟨q, hq, rfl⟩ := Option.map_eq_some_iff.mp h
      exact ⟨q, hq, _, q.tcpData, rfl⟩
  have hfront : ∀ p, (if InRun fr (cp.node.nxtSeq - 1) newSeq then
      newSeq.trimFront (cp.node.nxtSeq - 1) else newSeq).pkt = some p →
        ∃ q, newSeq.pkt = some q ∧ p.CutFrom q := by
    intro p h
    split at h
    · obtain ⟨q, hq, rfl⟩ := Option.map_eq_some_iff.mp h
      exact ⟨q, hq, _, _, rfl⟩
    · exact ⟨p, h, p.tcpDl, p.tcpData, rfl⟩
  unfold fitted at h
  cases hafter : cp.after with
  | nil =>
      simp only [hafter] at h
      exact hfront p h
  | cons aft rest =>
      simp only [hafter] at h
      obtain ⟨p', hp', dl, data, rfl⟩ := hback _ _ _ h
      obtain ⟨q, hq, dl', data', rfl⟩ := hfront p' hp'
      exact ⟨q, hq, dl, data, rfl⟩

/-- An insertion lists the segment, perhaps cut, with the nodes listed before, or
changes nothing. -/
theorem tcpOrderDir_perm (lst : SeqList) (num : UInt32) (newSeq : SeqT) :
    (tcpOrderDir lst num newSeq).list.nodes = lst.nodes ∨
      ∃ n, TrimmedFrom newSeq n ∧
        (∀ p, n.pkt = some p → ∃ q, newSeq.pkt = some q ∧ p.CutFrom q) ∧
        (tcpOrderDir lst num newSeq).list.nodes.Perm (n :: lst.nodes) := by
  rcases tcpOrderDir_cases lst num newSeq with ⟨_, _, _, -, -, -, hres⟩ | ⟨-, hres, -⟩ |
    ⟨_, fr, cp, -, -, -, hnodes, hres, -⟩
  · exact .inl (by rw [hres])
  · refine .inr ⟨newSeq, ⟨rfl, rfl, rfl⟩, fun p hp => ⟨p, hp, p.tcpDl, p.tcpData, rfl⟩, ?_⟩
    rw [hres]
    exact List.perm_append_singleton newSeq lst.nodes
  · refine .inr ⟨fitted newSeq fr cp, trimmedFrom_fitted newSeq fr cp, fun p => fitted_cutFrom, ?_⟩
    rw [hres, hnodes, List.append_cons, List.append_cons cp.before cp.node cp.after]
    exact List.perm_middle

/-- Every node after an insertion was listed before or is the new segment. -/
theorem mem_tcpOrderDir {lst : SeqList} {num : UInt32} {newSeq n : SeqT}
    (hn : n ∈ (tcpOrderDir lst num newSeq).list.nodes) : n ∈ lst.nodes ∨ TrimmedFrom newSeq n := by
  rcases tcpOrderDir_perm lst num newSeq with hsame | ⟨m, hm, -, hperm⟩
  · exact .inl (hsame ▸ hn)
  · rcases List.mem_cons.mp (hperm.mem_iff.mp hn) with rfl | hn
    · exact .inr hm
    · exact .inl hn

/-- The lists written back as they were read. -/
theorem SeqList.setNodes_self (lst : SeqList) : lst.setNodes lst.nodes = lst := by
  cases lst with
  | null => rfl
  | withLast last =>
      obtain ⟨before, node, after⟩ := last
      simp [SeqList.setNodes, SeqList.nodes, Cursor.nodes]

end MonitoringTool.Sniffer
