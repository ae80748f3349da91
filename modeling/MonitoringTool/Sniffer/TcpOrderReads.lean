import MonitoringTool.Lib.Run
import MonitoringTool.Sniffer.Flow
import MonitoringTool.Sniffer.TcpOrderFrame

/-!
# `tcp_order` in memory is that of the lists

Read through its pointers, an `order_t` in memory is an `OrderT`: a list for each direction, with
a cursor at the node inserted last, and in each node its packet.  A call of `tcp_order` in memory
is the `tcpOrder` of what is read (`tcpOrderAt_reads`), as long as the packet of the new node is
not that of another; and so are all calls of a run (`arrive_run`).

This is what ties the two models of `tcp_order` together: `Flow::add_packet` and everything about
the order, the windows and the coverage of the segments is stated over the lists, and holds of
the memory through `arrive_run`.
-/

namespace MonitoringTool.Sniffer

open Lib

namespace OrderMem

/-- The list `l` of the direction `src`, read as `lst`. -/
structure ReadsDir (o : OrderMem) (src : Bool) (l : List (ℕ × SeqNode)) (lst : SeqList) :
    Prop where
  nodes : ListSeg o.seqs (o.plist src) l none
  list : l = [] ∧ lst = .null ∨ ∃ xs a v ys, l = xs ++ (a, v) :: ys ∧ o.plistLast src = some a ∧
    lst = .withLast ⟨readAll o.pkts xs, read o.pkts v, readAll o.pkts ys⟩

variable {o o' : OrderMem} {src : Bool} {new b fuel : ℕ} {s w s' : SeqNode}
  {l zs ws : List (ℕ × SeqNode)} {lst : SeqList}

theorem readAll_congr {pkts pkts' : ℕ → Option PacketT}
    (h : ∀ x ∈ l, ∀ p, x.2.pkt = some p → pkts' p = pkts p) :
    readAll pkts' l = readAll pkts l := by
  apply List.map_congr_left
  intro x hx
  have hpkt : x.2.pkt.bind pkts' = x.2.pkt.bind pkts := by
    cases hp : x.2.pkt with
    | none => rfl
    | some p => exact h x hx p hp
  simp [read, hpkt]

/-- The list of a direction whose nodes, packets and pointers are as they were. -/
theorem ReadsDir.congr (h : o.ReadsDir src l lst) (hplist : o'.plist src = o.plist src)
    (hlast : o'.plistLast src = o.plistLast src) (hseqs : ∀ c ∈ addrs l, o'.seqs c = o.seqs c)
    (hpkts : ∀ x ∈ l, ∀ p, x.2.pkt = some p → o'.pkts p = o.pkts p) : o'.ReadsDir src l lst where
  nodes := by
    rw [hplist]
    exact h.nodes.congr hseqs
  list := by
    rcases h.list with hnil | ⟨xs, a, v, ys, rfl, hptr, rfl⟩
    · exact .inl hnil
    · have hread := readAll_congr hpkts
      simp only [readAll_append, readAll_cons] at hread
      obtain ⟨hxs, hrest⟩ := List.append_inj hread (by simp [readAll])
      obtain ⟨hv, hys⟩ := List.cons_eq_cons.mp hrest
      exact .inr ⟨xs, a, v, ys, rfl, hlast.trans hptr, by rw [hxs, hv, hys]⟩

/-- `linkSegment` in one equation, away from a retransmission. -/
theorem linkSegment_eq {last cp : Cursor} {num fr : UInt32} {newSeq : SeqT}
    (h : ¬ IsRetransmission newSeq fr cp) :
    linkSegment last num newSeq fr cp =
      if cp.after = [] ∧ ¬ InRun fr (cp.node.nxtSeq - 1) newSeq then
        ⟨.withLast { last with after := last.after ++ [newSeq] }, num, 0⟩
      else
        ⟨.withLast (cp.insert (fitted newSeq fr cp)),
          if cp.after = [] then num else num + 1, 0⟩ := by
  unfold linkSegment fitted
  by_cases hin : InRun fr (cp.node.nxtSeq - 1) newSeq
  · have hgt : ¬ newSeq.nxtSeq - 1 ≤ cp.node.nxtSeq - 1 := fun hle => h ⟨hin, hle⟩
    cases cp.after <;> simp [hin, hgt]
  · cases cp.after <;> simp [hin]

/-- The linked node was inserted last. -/
theorem Linked.reads_insert (h : Linked o o' src new b w s s' (firstOf ws none))
    (hl : ListSeg o.seqs (o.plist src) (zs ++ (b, w) :: ws) none)
    (hnew : NewNode o new s (zs ++ (b, w) :: ws))
    (hown : ∀ x ∈ zs ++ (b, w) :: ws, ∀ p, x.2.pkt = some p → s.pkt ≠ some p)
    (hlast : o'.plistLast src = some new) :
    o'.ReadsDir src (zs ++ (b, w) :: (new, s') :: ws) (.withLast (Cursor.insert
      ⟨readAll o.pkts zs, read o.pkts w, readAll o.pkts ws⟩ (read o'.pkts s'))) where
  nodes := h.nodes hl hnew
  list := by
    have hold := readAll_congr fun x hx p hp => h.pkts p (hown x hx p hp)
    simp only [readAll_append, readAll_cons] at hold
    obtain ⟨hzs, hrest⟩ := List.append_inj hold (by simp [readAll])
    obtain ⟨hw, hws⟩ := List.cons_eq_cons.mp hrest
    refine .inr ⟨zs ++ [(b, w)], new, s', ws, by simp, hlast, ?_⟩
    rw [← hzs, ← hw, ← hws]
    simp [Cursor.insert]

/-- The linked node is at the list end, and another one was inserted last. -/
theorem Linked.reads_append {xs ys : List (ℕ × SeqNode)} {a : ℕ} {v : SeqNode}
    (h : Linked o o' src new b w s s' none)
    (hl : ListSeg o.seqs (o.plist src) (zs ++ [(b, w)]) none)
    (hnew : NewNode o new s (zs ++ [(b, w)]))
    (hown : ∀ x ∈ zs ++ [(b, w)], ∀ p, x.2.pkt = some p → s.pkt ≠ some p)
    (hsplit : zs ++ [(b, w)] = xs ++ (a, v) :: ys) (hlast : o'.plistLast src = some a) :
    o'.ReadsDir src (zs ++ (b, w) :: [(new, s')]) (.withLast
      ⟨readAll o.pkts xs, read o.pkts v, readAll o.pkts ys ++ [read o'.pkts s']⟩) where
  nodes := h.nodes hl hnew
  list := by
    have hold := readAll_congr fun x hx p hp => h.pkts p (hown x hx p hp)
    rw [hsplit] at hold
    simp only [readAll_append, readAll_cons] at hold
    obtain ⟨hxs, hrest⟩ := List.append_inj hold (by simp [readAll])
    obtain ⟨hv, hys⟩ := List.cons_eq_cons.mp hrest
    refine .inr ⟨xs, a, v, ys ++ [(new, s')], ?_, hlast, ?_⟩
    · rw [List.append_cons, hsplit]
      simp
    · rw [← hxs, ← hv, ← hys]
      simp

theorem mem_insert {x y z : ℕ × SeqNode} (hx : x ∈ zs ++ y :: z :: ws) :
    x ∈ zs ++ y :: ws ∨ x = z := by
  simp only [List.mem_append, List.mem_cons] at hx ⊢
  tauto

/-- What a call in memory leaves, against the result `r` of `tcpOrderDir`: the list `l'` in place
of `l`, with at most the new node in it besides. -/
structure CallReads (o o' : OrderMem) (src : Bool) (new : ℕ) (s : SeqNode)
    (l l' : List (ℕ × SeqNode)) (r : OrderResult) : Prop where
  list : o'.ReadsDir src l' r.list
  num : o'.num = r.num
  frame : Frame o o' src new s l
  listed : ∀ x ∈ l', x ∈ l ∨ x.1 = new ∧ x.2.pkt = s.pkt

/-- The first segment. -/
theorem first_reads (hnew : NewNode o new s []) :
    CallReads o (o.first src new) src new s [] [(new, s)]
      (tcpOrderDir .null o.num (read o.pkts s)) where
  list :=
    { nodes := first_nodes src hnew.node
      list := by
        refine .inr ⟨[], new, s, [], rfl, first_last o src new, ?_⟩
        cases src <;> rfl }
  num := by cases src <;> rfl
  frame := first_frame o src new s []
  listed := by
    intro x hx
    obtain rfl := List.mem_singleton.mp hx
    exact .inr ⟨rfl, rfl⟩

/-- A segment at the list end. -/
theorem Linked.reads_atEnd {last : Cursor} (h : Linked o o' src new b w s s none)
    (hl : ListSeg o.seqs (o.plist src) (zs ++ [(b, w)]) none)
    (hnew : NewNode o new s (zs ++ [(b, w)]))
    (hown : ∀ x ∈ zs ++ [(b, w)], ∀ p, x.2.pkt = some p → s.pkt ≠ some p)
    (hnodes : last.nodes = readAll o.pkts (zs ++ [(b, w)]))
    (hplace : placeOf (read o.pkts s) last = .atEnd) (hpkts : o'.pkts = o.pkts)
    (hnum : o'.num = o.num + 1) (hlast : o'.plistLast src = some new) :
    CallReads o o' src new s (zs ++ [(b, w)]) (zs ++ (b, w) :: [(new, s)])
      (tcpOrderDir (.withLast last) o.num (read o.pkts s)) := by
  have hres : tcpOrderDir (.withLast last) o.num (read o.pkts s) =
      ⟨.withLast ⟨readAll o.pkts (zs ++ [(b, w)]), read o.pkts s, []⟩, o.num + 1, 0⟩ := by
    rw [tcpOrderDir, hplace, hnodes]
  rw [hres]
  have hreads := h.reads_insert hl hnew hown hlast
  rw [hpkts] at hreads
  exact
    { list := by simpa [Cursor.insert] using hreads
      num := hnum
      frame := h.frame
      listed := by
        intro x hx
        rcases mem_insert hx with hx | rfl
        · exact .inl hx
        · exact .inr ⟨rfl, rfl⟩ }

/-- A retransmission. -/
theorem dropNew_reads {last cp : Cursor} {fr : UInt32} (h : o.ReadsDir src l (.withLast last))
    (hnew : NewNode o new s l) (hplace : placeOf (read o.pkts s) last = .within fr cp)
    (hre : IsRetransmission (read o.pkts s) fr cp) :
    CallReads o (o.dropNew new) src new s l l
      (tcpOrderDir (.withLast last) o.num (read o.pkts s)) := by
  have hres : tcpOrderDir (.withLast last) o.num (read o.pkts s) =
      ⟨.withLast last, o.num, 1⟩ := by
    rw [tcpOrderDir, hplace]
    exact linkSegment_retransmission hre
  rw [hres]
  exact
    { list := h.congr rfl rfl (fun c hc => dropNew_seqs hnew hc) fun _ _ _ _ => rfl
      num := rfl
      frame := dropNew_frame o src new s l
      listed := fun _ hx => .inl hx }

/-- A segment linked behind the end of a run. -/
theorem LinkedInRun.reads {xs ys : List (ℕ × SeqNode)} {a : ℕ} {v : SeqNode} {fr : UInt32}
    (h : LinkedInRun o o' src new fr b w s s' ws)
    (hl : ListSeg o.seqs (o.plist src) (zs ++ (b, w) :: ws) none)
    (hnew : NewNode o new s (zs ++ (b, w) :: ws))
    (hown : ∀ x ∈ zs ++ (b, w) :: ws, ∀ p, x.2.pkt = some p → s.pkt ≠ some p)
    (hsplit : zs ++ (b, w) :: ws = xs ++ (a, v) :: ys) (hptr : o.plistLast src = some a)
    (hre : ¬ IsRetransmission (read o.pkts s) fr
      ⟨readAll o.pkts zs, read o.pkts w, readAll o.pkts ws⟩) :
    CallReads o o' src new s (zs ++ (b, w) :: ws) (zs ++ (b, w) :: (new, s') :: ws)
      (linkSegment ⟨readAll o.pkts xs, read o.pkts v, readAll o.pkts ys⟩ o.num (read o.pkts s) fr
        ⟨readAll o.pkts zs, read o.pkts w, readAll o.pkts ws⟩) := by
  have hlisted : ∀ x ∈ zs ++ (b, w) :: (new, s') :: ws, x ∈ zs ++ (b, w) :: ws ∨
      x.1 = new ∧ x.2.pkt = s.pkt := by
    intro x hx
    rcases mem_insert hx with hx | rfl
    · exact .inl hx
    · exact .inr ⟨rfl, h.pkt⟩
  rw [linkSegment_eq hre]
  have hlast := h.last
  by_cases hkeep : ws = [] ∧ ¬ (fr ≤ s.seq ∧ s.seq ≤ w.nxtSeq - 1)
  · -- the pointer to the node inserted last stays
    rw [if_pos hkeep] at hlast
    obtain ⟨rfl, hrun⟩ := hkeep
    have hrun' : ¬ InRun fr ((read o.pkts w).nxtSeq - 1) (read o.pkts s) := hrun
    have hsame : read o'.pkts s' = read o.pkts s := by
      rw [h.fits []]
      simp [fitted, hrun']
    have hreads := h.toLinked.reads_append hl hnew hown hsplit (hlast.trans hptr)
    rw [hsame] at hreads
    rw [if_pos ⟨rfl, hrun'⟩]
    exact { list := hreads, num := h.num, frame := h.frame, listed := hlisted }
  · rw [if_neg hkeep] at hlast
    have hreads := h.toLinked.reads_insert hl hnew hown hlast
    rw [h.fits (readAll o.pkts zs)] at hreads
    have hkeep' : ¬ (readAll o.pkts ws = [] ∧
        ¬ InRun fr ((read o.pkts w).nxtSeq - 1) (read o.pkts s)) := by
      rw [readAll, List.map_eq_nil_iff]
      exact hkeep
    have hnum : o'.num = if readAll o.pkts ws = [] then o.num else o.num + 1 := by
      rw [h.num]
      simp [readAll]
    rw [if_neg hkeep']
    exact { list := hreads, num := hnum, frame := h.frame, listed := hlisted }

/-- **One call.**  It is `tcpOrderDir` on the list read, if no node of the list has the packet of
the new one. -/
theorem tcpOrderAt_reads (h : o.ReadsDir src l lst) (hnew : NewNode o new s l)
    (hown : ∀ x ∈ l, ∀ p, x.2.pkt = some p → s.pkt ≠ some p) (hfuel : l.length ≤ fuel) :
    ∃ o' l', o.tcpOrderAt fuel new src =
        some (o', (tcpOrderDir lst o.num (read o.pkts s)).ret) ∧
      CallReads o o' src new s l l' (tcpOrderDir lst o.num (read o.pkts s)) := by
  rcases h.list with ⟨rfl, rfl⟩ | ⟨xs, a, v, ys, hsplit, hptr, rfl⟩
  · have hhead : o.plist src = none := h.nodes
    refine ⟨_, _, ?_, first_reads hnew⟩
    rw [tcpOrderAt, hhead]
    rfl
  · rcases tcpOrderAt_cases h.nodes (fun head _ => ⟨xs, a, v, ys, hsplit, hptr, rfl⟩) hnew
      hfuel with
      ⟨rfl, -, -⟩ | ⟨zs, b, w, o', rfl, hplace, hcall, hlinked, hpkts, hnum, hlast⟩ |
      ⟨fr, zs, b, w, ws, rfl, hplace, ⟨hre, hcall⟩ | ⟨hre, o', s', hcall, hlinked⟩⟩
    · simp at hsplit
    · have hnodes : Cursor.nodes ⟨readAll o.pkts xs, read o.pkts v, readAll o.pkts ys⟩ =
          readAll o.pkts (zs ++ [(b, w)]) := by simp [Cursor.nodes, hsplit]
      refine ⟨o', _, ?_, hlinked.reads_atEnd h.nodes hnew hown hnodes hplace hpkts hnum hlast⟩
      rw [tcpOrderDir, hplace]
      exact hcall
    · have hre' : IsRetransmission (read o.pkts s) fr
          ⟨readAll o.pkts zs, read o.pkts w, readAll o.pkts ws⟩ := hre
      refine ⟨_, _, ?_, dropNew_reads h hnew hplace hre'⟩
      rw [tcpOrderDir, hplace]
      dsimp only
      rw [linkSegment_retransmission hre']
      exact hcall
    · have hre' : ¬ IsRetransmission (read o.pkts s) fr
          ⟨readAll o.pkts zs, read o.pkts w, readAll o.pkts ws⟩ := hre
      have hreads := hlinked.reads h.nodes hnew hown hsplit hptr hre'
      rw [tcpOrderDir, hplace]
      refine ⟨o', _, ?_, hreads⟩
      dsimp only
      rw [linkSegment_eq hre']
      split <;> exact hcall

/-! ## Runs -/

/-- The node `seq_pkt` makes of the packet at `p`; it has no packet if that is not stored. -/
def nodeOf (p : ℕ) (packet : PacketT) : SeqNode :=
  let s := seqOf packet
  ⟨s.pkt.map fun _ => p, s.seq, s.nxtSeq, s.ack, s.thFlags, s.capSec, s.capUsec, s.processed,
    s.size⟩

theorem nodeOf_pkt {p q : ℕ} {packet : PacketT} (h : (nodeOf p packet).pkt = some q) : q = p := by
  obtain ⟨-, -, rfl⟩ := Option.map_eq_some_iff.mp h
  rfl

theorem read_nodeOf {pkts : ℕ → Option PacketT} {p : ℕ} {packet : PacketT}
    (h : pkts p = some packet) : read pkts (nodeOf p packet) = seqOf packet := by
  have hpkt : ((seqOf packet).pkt.map fun _ => p).bind pkts = (seqOf packet).pkt := by
    unfold seqOf
    by_cases htype : packet.type = 0 <;> simp [htype, h]
  unfold read nodeOf
  dsimp only
  rw [hpkt]

/-- A packet, at the address `pkt`, whose node is allocated at `new`. -/
structure Arrival where
  packet : PacketT
  src : Bool
  pkt : ℕ
  new : ℕ
  fuel : ℕ

/-- The memory with the packet and its node. -/
def allocNode (o : OrderMem) (e : Arrival) : OrderMem :=
  { o with
    seqs := Function.update o.seqs e.new (some ⟨nodeOf e.pkt e.packet, none⟩)
    pkts := Function.update o.pkts e.pkt (some e.packet) }

/-- `seq_pkt`, then `tcp_order`. -/
def arrive (o : OrderMem) (e : Arrival) : Option OrderMem :=
  if (o.seqs e.new).isNone ∧ (o.pkts e.pkt).isNone then
    ((o.allocNode e).tcpOrderAt e.fuel e.new e.src).map Prod.fst
  else none

/-- Both lists, which share no node, with every packet of a node in memory. -/
structure Reads (o : OrderMem) (ls : Bool → List (ℕ × SeqNode)) (ord : OrderT) : Prop where
  dir : ∀ d, o.ReadsDir d (ls d) (ord.dir d)
  apart : ∀ d, ∀ c ∈ addrs (ls d), c ∉ addrs (ls (!d))
  pkts : ∀ d, ∀ x ∈ ls d, HasPkt o.pkts x.2
  num : o.num = ord.num

/-- `order_new`. -/
theorem reads_new (lastSrc lastDst : Option ℕ) (seqs : NodeMemory SeqNode)
    (pkts : ℕ → Option PacketT) :
    Reads ⟨none, none, lastSrc, lastDst, 0, seqs, pkts⟩ (fun _ => []) OrderT.new where
  dir := fun d => by cases d <;> exact ⟨rfl, .inl ⟨rfl, rfl⟩⟩
  apart := fun _ _ hc => by cases hc
  pkts := fun _ _ hx => by cases hx
  num := rfl

/-- The addresses are not in use, and the list of the packet's direction has at most `fuel`
nodes. -/
def Fresh (o : OrderMem) (e : Arrival) : Prop :=
  o.seqs e.new = none ∧ o.pkts e.pkt = none ∧
    ∀ l, ListSeg o.seqs (o.plist e.src) l none → l.length ≤ e.fuel

variable {ls : Bool → List (ℕ × SeqNode)} {ord : OrderT} {e : Arrival}

section Arrive

variable (h : o.Reads ls ord) (hfresh : o.Fresh e)
include h hfresh

/-- The new node is none of those listed. -/
theorem Reads.new_out (d : Bool) : e.new ∉ addrs (ls d) := by
  intro hmem
  have hsome := (h.dir d).nodes.isSome hmem
  rw [hfresh.1] at hsome
  cases hsome

/-- The new packet is that of none of the nodes listed. -/
theorem Reads.pkt_ne {d : Bool} {x : ℕ × SeqNode} (hx : x ∈ ls d) {p : ℕ}
    (hp : x.2.pkt = some p) : p ≠ e.pkt := by
  rintro rfl
  have hsome := h.pkts d x hx _ hp
  rw [hfresh.2.1] at hsome
  cases hsome

theorem Reads.allocNode (d : Bool) : (o.allocNode e).ReadsDir d (ls d) (ord.dir d) := by
  refine (h.dir d).congr rfl rfl (fun c hc => ?_) fun x hx p hp => ?_
  · have hne : c ≠ e.new := by
      rintro rfl
      exact h.new_out hfresh d hc
    exact Function.update_of_ne hne _ _
  · exact Function.update_of_ne (h.pkt_ne hfresh hx hp) _ _

theorem Reads.newNode :
    NewNode (o.allocNode e) e.new (nodeOf e.pkt e.packet) (ls e.src) where
  node := Function.update_self _ _ _
  out := h.new_out hfresh e.src
  pkt := by
    intro p hp
    have hstored : (o.allocNode e).pkts e.pkt = some e.packet := Function.update_self _ _ _
    rw [nodeOf_pkt hp, hstored]
    rfl

variable {l' : List (ℕ × SeqNode)} {r : OrderResult} (hcall : CallReads (o.allocNode e) o' e.src
  e.new (nodeOf e.pkt e.packet) (ls e.src) l' r)
include hcall

/-- The list of the other direction is not touched. -/
theorem CallReads.other : o'.ReadsDir (!e.src) (ls (!e.src)) (ord.dir (!e.src)) := by
  refine (h.allocNode hfresh _).congr hcall.frame.plist hcall.frame.last (fun c hc => ?_)
    fun x hx p hp => hcall.frame.pkts p fun heq => ?_
  · refine hcall.frame.seqs c (fun hmem => h.apart e.src c hmem hc) fun heq => ?_
    exact h.new_out hfresh _ (heq ▸ hc)
  · exact h.pkt_ne hfresh hx hp (nodeOf_pkt heq)

/-- The lists still share no node. -/
theorem CallReads.apart : ∀ c ∈ addrs l', c ∉ addrs (ls (!e.src)) := by
  intro c hc
  obtain ⟨x, hx, rfl⟩ := List.mem_map.mp hc
  rcases hcall.listed x hx with hold | ⟨hnew, -⟩
  · exact h.apart e.src _ (List.mem_map_of_mem hold)
  · rw [hnew]
    exact h.new_out hfresh _

/-- The packets that were stored still are. -/
theorem CallReads.stored {d : Bool} : ∀ x ∈ ls d, HasPkt o'.pkts x.2 := by
  intro x hx p hp
  have hkeep : (o.allocNode e).pkts p = o.pkts p :=
    Function.update_of_ne (h.pkt_ne hfresh hx hp) _ _
  rw [hcall.frame.live, hkeep]
  exact h.pkts d x hx p hp

/-- And so is the new one. -/
theorem CallReads.stored_new : ∀ x ∈ l', HasPkt o'.pkts x.2 := by
  intro x hx
  rcases hcall.listed x hx with hold | ⟨-, hpkt⟩
  · exact hcall.stored h hfresh x hold
  · intro p hp
    rw [hcall.frame.live]
    exact (h.newNode hfresh).pkt p (hpkt ▸ hp)

end Arrive

/-- **One packet** in memory is one of the lists. -/
theorem arrive_step (h : o.Reads ls ord) (hfresh : o.Fresh e) :
    ∃ o' ls', o.arrive e = some o' ∧ o'.Reads ls' (tcpOrder ord (seqOf e.packet) e.src).1 := by
  have hown : ∀ x ∈ ls e.src, ∀ p, x.2.pkt = some p → (nodeOf e.pkt e.packet).pkt ≠ some p :=
    fun x hx p hp heq => h.pkt_ne hfresh hx hp (nodeOf_pkt heq)
  obtain ⟨o', l', hsome, hcall⟩ := tcpOrderAt_reads (h.allocNode hfresh e.src) (h.newNode hfresh)
    hown (hfresh.2.2 _ (h.dir e.src).nodes)
  have hread : read (o.allocNode e).pkts (nodeOf e.pkt e.packet) = seqOf e.packet :=
    read_nodeOf (Function.update_self _ _ _)
  have hnum : (o.allocNode e).num = ord.num := h.num
  rw [hread, hnum] at hsome hcall
  have hne : (!e.src) ≠ e.src := by simp
  refine ⟨o', Function.update ls e.src l', ?_, ?_⟩
  · rw [arrive, if_pos (by simp [hfresh.1, hfresh.2.1]), hsome]
    rfl
  · exact
      { dir := by
          rw [Bool.forall_bool' e.src]
          refine ⟨?_, ?_⟩
          · rw [tcpOrder_dir, if_pos rfl, Function.update_self]
            exact hcall.list
          · rw [tcpOrder_dir, if_neg hne, Function.update_of_ne hne]
            exact hcall.other h hfresh
        apart := by
          rw [Bool.forall_bool' e.src, Bool.not_not, Function.update_self,
            Function.update_of_ne hne]
          have hapart := hcall.apart h hfresh
          exact ⟨hapart, fun c hc hc' => hapart c hc' hc⟩
        pkts := by
          rw [Bool.forall_bool' e.src, Function.update_self, Function.update_of_ne hne]
          exact ⟨hcall.stored_new h hfresh, hcall.stored h hfresh⟩
        num := hcall.num }

/-- **Every run of packets** in memory is the run of the lists. -/
theorem arrive_run (arrivals : List Arrival) (h : o.Reads ls ord)
    (hfresh : EveryStep arrive Fresh o arrivals) :
    ∃ o' ls', run arrive o arrivals = some o' ∧
      o'.Reads ls' (arrivals.foldl (fun ord e => (tcpOrder ord (seqOf e.packet) e.src).1) ord) := by
  have hstep : ∀ (o : OrderMem) ord e, (∃ ls, o.Reads ls ord) → o.Fresh e → True →
      ∃ o', o.arrive e = some o' ∧
        ∃ ls, o'.Reads ls (tcpOrder ord (seqOf e.packet) e.src).1 := by
    rintro o ord e ⟨ls, h⟩ hfresh -
    obtain ⟨o', ls', ho', h'⟩ := arrive_step h hfresh
    exact ⟨o', ho', ls', h'⟩
  obtain ⟨o', hrun, ls', h'⟩ :=
    run_refine_guarded hstep ⟨ls, h⟩ hfresh (fun _ _ _ _ _ => trivial)
  exact ⟨o', ls', hrun, h'⟩

end OrderMem

end MonitoringTool.Sniffer
