import MonitoringTool.Sniffer.TcpOrder
import MonitoringTool.Lib.OrderedRanges
import MonitoringTool.Lib.Run

/-!
# When `tcp_order` keeps its lists ordered and disjoint

A segment is linked behind the end of a continuous run, and its back is cut at
the start of the node that follows.  Two kinds of segments break the order.

* A segment that starts before the first node is linked behind the run of that
  node: nothing is ever linked at the head of a list.
* A segment that starts strictly inside a node with a gap before it is linked in
  the gap: the search stops at the node before the gap, and the back cut then
  puts `nxt_seq` below `seq`.

`StartsInPlace` excludes both.  `tcpOrderDir_ordered_iff` shows it exact for one
insertion, `tcp_order_ordered_iff` for every sequence of insertions.
-/

namespace MonitoringTool.Sniffer

open Lib

/-! ## The order and the guard -/

/-- First sequence number of a node. -/
def SeqT.start (s : SeqT) : Nat := s.seq.toNat

/-- The sequence number behind a node. -/
def SeqT.stop (s : SeqT) : Nat := s.nxtSeq.toNat

/-- Every node has `seq <= nxt_seq`, and every node's `nxt_seq` is at most the
`seq` of its successor. -/
def OrderedDisjoint (nodes : List SeqT) : Prop := Ordered SeqT.start SeqT.stop nodes

/-- The segment starts strictly inside a node that does not continue the node
before it. -/
def StartsBehindGap (newSeq : SeqT) (nodes : List SeqT) : Prop :=
  ∃ before pre cp rest, nodes = before ++ pre :: cp :: rest ∧
    pre.nxtSeq ≠ cp.seq ∧ cp.seq < newSeq.seq ∧ newSeq.seq < cp.nxtSeq

/-- The segments `tcp_order` has a place for. -/
def StartsInPlace (newSeq : SeqT) (nodes : List SeqT) : Prop :=
  (∀ head ∈ nodes.head?, head.seq ≤ newSeq.seq) ∧ ¬ StartsBehindGap newSeq nodes

/-- What every list holds while it is ordered: no node ends at zero, so
`nxt_seq - 1` does not wrap. -/
structure OrderInv (nodes : List SeqT) : Prop where
  ordered : OrderedDisjoint nodes
  stop_pos : ∀ n ∈ nodes, 0 < n.stop

/-! ## The run found -/

/-- The run that starts at `lst` ends at or behind the end of `lst`. -/
theorem stop_le_tcpContSeq {before after : List SeqT} {lst : SeqT}
    (h : OrderedDisjoint (before ++ lst :: after)) :
    lst.stop ≤ (tcpContSeq before lst after).node.stop := by
  obtain ⟨run, hrun⟩ := mem_tcpContSeq before lst after
  rw [← tcpContSeq_nodes before lst after] at h
  generalize tcpContSeq before lst after = cp at *
  have hmem : lst ∈ cp.before ++ [cp.node] := by
    rw [hrun]
    simp
  rcases List.mem_append.mp hmem with hmem | hmem
  · exact (Ordered.le_of_mem_left h hmem).trans (Ordered.mem_range h)
  · rw [List.mem_singleton.mp hmem]

/-- The node behind the run begins at or behind its end. -/
theorem OrderInv.stop_le_head {cp : Cursor} (h : OrderInv cp.nodes) :
    ∀ aft ∈ cp.after.head?, cp.node.stop ≤ aft.start := by
  intro aft haft
  exact Ordered.le_of_mem_right h.ordered (List.mem_of_mem_head? haft)

theorem toNat_sub_one {x : UInt32} (h : 0 < x.toNat) : (x - 1).toNat = x.toNat - 1 := by
  have hone : (1 : UInt32) ≤ x := UInt32.le_iff_toNat_le.mpr h
  rw [UInt32.toNat_sub_of_le _ _ hone]
  rfl

/-- `bk` is the last sequence number of the run. -/
theorem inRun_iff {fr : UInt32} {node newSeq : SeqT} (hpos : 0 < node.stop) :
    InRun fr (node.nxtSeq - 1) newSeq ↔ fr ≤ newSeq.seq ∧ newSeq.start < node.stop := by
  have hbk : (node.nxtSeq - 1).toNat = node.stop - 1 := toNat_sub_one hpos
  unfold InRun
  refine and_congr_right fun _ => ?_
  rw [UInt32.le_iff_toNat_le, hbk]
  show newSeq.start ≤ node.stop - 1 ↔ _
  omega

/-! ## One insertion -/

@[simp] theorem SeqT.trimFront_stop (s : SeqT) (bk : UInt32) :
    (s.trimFront bk).stop = s.stop := rfl

@[simp] theorem SeqT.trimFront_start (s node : SeqT) :
    (s.trimFront (node.nxtSeq - 1)).start = node.stop := by
  have hbk : node.nxtSeq - 1 + 1 = node.nxtSeq := UInt32.sub_add_cancel _ _
  simp [SeqT.start, SeqT.stop, SeqT.trimFront, hbk]

@[simp] theorem SeqT.fitBefore_start (s aft : SeqT) : (s.fitBefore aft).start = s.start := by
  unfold SeqT.fitBefore
  split <;> rfl

@[simp] theorem SeqT.fitBefore_stop (s aft : SeqT) :
    (s.fitBefore aft).stop = min s.stop aft.start := by
  unfold SeqT.fitBefore
  split
  · next hle => exact (min_eq_left (UInt32.le_iff_toNat_le.mp hle)).symm
  · next hgt =>
    rw [UInt32.le_iff_toNat_le] at hgt
    exact (min_eq_right (Nat.le_of_not_le hgt)).symm

/-- A segment linked inside a run begins at the end of the run. -/
theorem fitted_start (newSeq : SeqT) (fr : UInt32) (cp : Cursor) :
    (fitted newSeq fr cp).start =
      if InRun fr (cp.node.nxtSeq - 1) newSeq then cp.node.stop else newSeq.start := by
  unfold fitted
  by_cases hin : InRun fr (cp.node.nxtSeq - 1) newSeq <;> cases cp.after <;> simp [hin]

/-- A segment linked before a node ends at or before its beginning. -/
theorem fitted_stop (newSeq : SeqT) (fr : UInt32) (cp : Cursor) :
    (fitted newSeq fr cp).stop =
      match cp.after with
      | [] => newSeq.stop
      | aft :: _ => min newSeq.stop aft.start := by
  unfold fitted
  by_cases hin : InRun fr (cp.node.nxtSeq - 1) newSeq <;> cases cp.after <;> simp [hin]

/-- A segment that starts in the run and is linked has bytes behind the run. -/
private theorem stop_lt_of_not_retransmission {newSeq : SeqT} {fr : UInt32} {cp : Cursor}
    (hlt : newSeq.start < newSeq.stop) (hpos : 0 < cp.node.stop)
    (hnot : ¬ IsRetransmission newSeq fr cp) (hin : InRun fr (cp.node.nxtSeq - 1) newSeq) :
    cp.node.stop < newSeq.stop := by
  have hbk : ¬ newSeq.nxtSeq - 1 ≤ cp.node.nxtSeq - 1 := fun h => hnot ⟨hin, h⟩
  have hnew : 0 < newSeq.nxtSeq.toNat := by
    unfold SeqT.stop at hlt
    omega
  rw [UInt32.le_iff_toNat_le, toNat_sub_one hnew, toNat_sub_one hpos] at hbk
  unfold SeqT.stop at *
  omega

/-- The segment starts inside the run `[fr, bk]` that ends at `cp`, or in the gap
behind it. -/
def FitsRun (newSeq : SeqT) (fr : UInt32) (cp : Cursor) : Prop :=
  InRun fr (cp.node.nxtSeq - 1) newSeq ∨
    (cp.node.stop ≤ newSeq.start ∧ ∀ aft ∈ cp.after.head?, newSeq.start ≤ aft.start)

/-- **Linking behind a run.**  Where the segment is linked at all, the list
stays ordered exactly when the segment starts inside the run or in the gap
behind it. -/
theorem fitted_ordered_iff {newSeq : SeqT} {fr : UInt32} {cp : Cursor}
    (hinv : OrderInv cp.nodes) (hlt : newSeq.start < newSeq.stop)
    (hnot : ¬ IsRetransmission newSeq fr cp) :
    OrderedDisjoint (cp.before ++ cp.node :: fitted newSeq fr cp :: cp.after) ↔
      FitsRun newSeq fr cp := by
  have hpos : 0 < cp.node.stop := hinv.stop_pos cp.node (by simp [Cursor.nodes])
  have hgap := hinv.stop_le_head
  unfold OrderedDisjoint FitsRun
  rw [ordered_insert_iff hinv.ordered, fitted_start, fitted_stop]
  by_cases hin : InRun fr (cp.node.nxtSeq - 1) newSeq
  · -- it begins at the end of the run, which is not behind the next node
    have hbehind := stop_lt_of_not_retransmission hlt hpos hnot hin
    cases hafter : cp.after with
    | nil =>
        simp [hin]
        omega
    | cons aft rest =>
        have haft := hgap aft (by simp [hafter])
        simp [hin]
        omega
  · cases hafter : cp.after with
    | nil =>
        simp [hin]
        omega
    | cons aft rest =>
        have haft := hgap aft (by simp [hafter])
        simp [hin]
        omega

/-- A linked segment never ends at zero while the list is ordered. -/
private theorem stop_pos_insert {L R : List SeqT} {x n : SeqT} (hinv : OrderInv (L ++ x :: R))
    (hord : OrderedDisjoint (L ++ x :: n :: R)) : OrderInv (L ++ x :: n :: R) := by
  refine ⟨hord, ?_⟩
  have hx : 0 < x.stop := hinv.stop_pos x (by simp)
  obtain ⟨hn, hxn, -⟩ := (ordered_insert_iff hinv.ordered).mp hord
  intro m hm
  simp only [List.mem_append, List.mem_cons] at hm
  rcases hm with hm | rfl | rfl | hm
  · exact hinv.stop_pos m (by simp [hm])
  · exact hx
  · omega
  · exact hinv.stop_pos m (by simp [hm])

theorem linkSegment_ordered_iff {last cp : Cursor} {num fr : UInt32} {newSeq : SeqT}
    (hinv : OrderInv last.nodes) (hcp : cp.nodes = last.nodes)
    (hlt : newSeq.start < newSeq.stop) :
    OrderedDisjoint (linkSegment last num newSeq fr cp).list.nodes ↔ FitsRun newSeq fr cp := by
  by_cases hre : IsRetransmission newSeq fr cp
  · rw [linkSegment_retransmission hre]
    exact ⟨fun _ => .inl hre.1, fun _ => hinv.ordered⟩
  · rw [(linkSegment_nodes hcp hre).1]
    exact fitted_ordered_iff (hcp ▸ hinv) hlt hre

/-! ## The guard, place by place -/

section Guard

variable {newSeq : SeqT} {nodes : List SeqT}

/-- A segment behind the end of some node is behind the start of the first. -/
private theorem le_head_of_stop_le {x : SeqT} (hord : OrderedDisjoint nodes) (hx : x ∈ nodes)
    (hle : x.stop ≤ newSeq.start) : ∀ head ∈ nodes.head?, head.seq ≤ newSeq.seq := by
  cases nodes with
  | nil => simp
  | cons head tail =>
      have hhead : head.start ≤ head.stop := hord.1 head (by simp)
      have hxr : x.start ≤ x.stop := hord.1 x hx
      have hstart : head.start ≤ newSeq.start := by
        rcases List.mem_cons.mp hx with rfl | hx
        · omega
        · have hbefore : head.stop ≤ x.start := Ordered.le_of_mem_right (L := []) hord hx
          omega
      simpa using UInt32.le_iff_toNat_le.mpr hstart

/-- A segment that begins where a node ends starts inside no node. -/
private theorem startsInPlace_of_continues {L R : List SeqT} {last : SeqT}
    (hord : OrderedDisjoint (L ++ last :: R)) (heq : last.nxtSeq = newSeq.seq) :
    StartsInPlace newSeq (L ++ last :: R) := by
  have hstart : last.stop = newSeq.start := congrArg UInt32.toNat heq
  have hrange : last.start ≤ last.stop := Ordered.mem_range hord
  refine ⟨le_head_of_stop_le hord (by simp) hstart.le, ?_⟩
  rintro ⟨before, pre, cp, rest, hnodes, -, hlo, hhi⟩
  have hlo' : cp.start < newSeq.start := UInt32.lt_iff_toNat_lt.mp hlo
  have hhi' : newSeq.start < cp.stop := UInt32.lt_iff_toNat_lt.mp hhi
  have hmem : cp ∈ L ++ last :: R := by
    rw [hnodes]
    simp
  rcases Ordered.apart hord hmem with h | rfl | h <;> omega

private theorem startsInPlace_of_behind (hord : OrderedDisjoint nodes)
    (hall : ∀ n ∈ nodes, n.nxtSeq ≤ newSeq.seq) : StartsInPlace newSeq nodes := by
  constructor
  · intro head hhead
    have hmem := List.mem_of_mem_head? hhead
    exact le_head_of_stop_le hord hmem (UInt32.le_iff_toNat_le.mp (hall head hmem)) head hhead
  · rintro ⟨before, pre, cp, rest, rfl, -, -, hhi⟩
    have hle := hall cp (by simp)
    grind

/-- Before the end of the first node only the start of that node matters. -/
private theorem startsInPlace_head_iff {head : SeqT} {tail : List SeqT}
    (hord : OrderedDisjoint (head :: tail)) (hlt : newSeq.seq < head.nxtSeq) :
    StartsInPlace newSeq (head :: tail) ↔ head.seq ≤ newSeq.seq := by
  unfold StartsInPlace
  constructor
  · rintro ⟨hhead, -⟩
    exact hhead head (by simp)
  · intro hle
    refine ⟨by simpa using hle, ?_⟩
    rintro ⟨before, pre, cp, rest, hnodes, -, hlo, -⟩
    have hmem : cp ∈ tail := by
      cases before with
      | nil =>
          obtain ⟨-, rfl⟩ := List.cons_eq_cons.mp hnodes
          simp
      | cons b before =>
          obtain ⟨-, rfl⟩ := List.cons_eq_cons.mp hnodes
          simp
    have hbehind : head.stop ≤ cp.start := Ordered.le_of_mem_right (L := []) hord hmem
    have hlt' : newSeq.start < head.stop := UInt32.lt_iff_toNat_lt.mp hlt
    have hlo' : cp.start < newSeq.start := UInt32.lt_iff_toNat_lt.mp hlo
    omega

/-- Where all nodes up to `pre` end at or before the segment and `cp` ends
behind its start, `cp` alone can hold that start. -/
private theorem startsInPlace_between_iff {before rest : List SeqT} {pre cp : SeqT}
    (hord : OrderedDisjoint (before ++ pre :: cp :: rest))
    (hbefore : ∀ n ∈ before ++ [pre], n.nxtSeq ≤ newSeq.seq) (hcp : newSeq.seq < cp.nxtSeq) :
    StartsInPlace newSeq (before ++ pre :: cp :: rest) ↔
      (pre.nxtSeq = cp.seq ∨ newSeq.start ≤ cp.start) := by
  have hpre : pre.stop ≤ newSeq.start := UInt32.le_iff_toNat_le.mp (hbefore pre (by simp))
  have hcp' : newSeq.start < cp.stop := UInt32.lt_iff_toNat_lt.mp hcp
  constructor
  · rintro ⟨-, hgap⟩
    by_contra hnot
    obtain ⟨hne, hlt⟩ := not_or.mp hnot
    exact hgap ⟨before, pre, cp, rest, rfl, hne, UInt32.lt_iff_toNat_lt.mpr (by
      show cp.start < newSeq.start
      omega), hcp⟩
  · intro hfit
    refine ⟨le_head_of_stop_le hord (by simp) hpre, ?_⟩
    rintro ⟨b, p, c, r, hnodes, hne, hlo, hhi⟩
    have hlo' : c.start < newSeq.start := UInt32.lt_iff_toNat_lt.mp hlo
    have hhi' : newSeq.start < c.stop := UInt32.lt_iff_toNat_lt.mp hhi
    -- the node that holds the start is `cp`, so its predecessor is `pre`
    have hsplit : (before ++ [pre]) ++ cp :: rest = (b ++ [p]) ++ c :: r := by simpa using hnodes
    have hord' : OrderedDisjoint ((b ++ [p]) ++ c :: r) := by
      rw [← hsplit]
      simpa using hord
    have hfirst : ∀ n ∈ b ++ [p], n.stop ≤ newSeq.start := fun n hn =>
      (Ordered.le_of_mem_left hord' hn).trans hlo'.le
    obtain ⟨hleft, rfl, -⟩ := eq_of_first hsplit
      (fun n hn => UInt32.le_iff_toNat_le.mp (hbefore n hn)) (not_le.mpr hcp') hfirst
      (not_le.mpr hhi')
    obtain ⟨-, rfl⟩ : before = b ∧ pre = p := by simpa using hleft
    rcases hfit with heq | hle
    · exact hne heq
    · omega

end Guard

/-! ## The run found, place by place -/

section Places

variable {newSeq : SeqT}

private theorem OrderInv.contSeq {before after : List SeqT} {lst : SeqT}
    (hinv : OrderInv (before ++ lst :: after)) : OrderInv (tcpContSeq before lst after).nodes := by
  rw [tcpContSeq_nodes]
  exact hinv

/-- What `FitsRun` says of the run that starts at `lst`, in natural numbers. -/
private theorem fitsRun_contSeq_iff {before after : List SeqT} {lst : SeqT}
    (hinv : OrderInv (before ++ lst :: after)) :
    FitsRun newSeq lst.seq (tcpContSeq before lst after) ↔
      (lst.start ≤ newSeq.start ∧ newSeq.start < (tcpContSeq before lst after).node.stop) ∨
        ((tcpContSeq before lst after).node.stop ≤ newSeq.start ∧
          ∀ aft ∈ (tcpContSeq before lst after).after.head?, newSeq.start ≤ aft.start) := by
  have hpos : 0 < (tcpContSeq before lst after).node.stop :=
    hinv.contSeq.stop_pos _ (by simp [Cursor.nodes])
  unfold FitsRun
  rw [inRun_iff hpos, UInt32.le_iff_toNat_le]
  rfl

private theorem fitsRun_of_continues {L R : List SeqT} {last : SeqT}
    (hinv : OrderInv (L ++ last :: R)) (heq : last.nxtSeq = newSeq.seq) :
    FitsRun newSeq last.seq (tcpContSeq L last R) := by
  have hend := stop_le_tcpContSeq hinv.ordered
  have hrange : last.start ≤ last.stop := Ordered.mem_range hinv.ordered
  have hstart : last.stop = newSeq.start := congrArg UInt32.toNat heq
  rw [fitsRun_contSeq_iff hinv]
  by_cases hin : newSeq.start < (tcpContSeq L last R).node.stop
  · exact .inl ⟨by omega, hin⟩
  · refine .inr ⟨by omega, ?_⟩
    intro aft haft
    have hgap := hinv.contSeq.stop_le_head aft haft
    omega

private theorem fitsRun_head_iff {head : SeqT} {tail : List SeqT}
    (hinv : OrderInv (head :: tail)) (hlt : newSeq.seq < head.nxtSeq) :
    FitsRun newSeq head.seq (tcpContSeq [] head tail) ↔ head.seq ≤ newSeq.seq := by
  have hend : head.stop ≤ (tcpContSeq [] head tail).node.stop :=
    stop_le_tcpContSeq hinv.ordered
  have hlt' : newSeq.start < head.stop := UInt32.lt_iff_toNat_lt.mp hlt
  have hfits := @fitsRun_contSeq_iff newSeq [] tail head hinv
  rw [hfits, UInt32.le_iff_toNat_le]
  constructor
  · rintro (⟨hle, -⟩ | ⟨hle, -⟩)
    · exact hle
    · omega
  · intro hle
    exact .inl ⟨hle, by omega⟩

/-- Between `pre` and the end of `cp`: fine where `cp` continues `pre`, otherwise
fine up to the start of `cp`. -/
private theorem fitsRun_between_iff {before rest : List SeqT} {pre cp : SeqT}
    (hinv : OrderInv (before ++ pre :: cp :: rest)) (hpre : pre.nxtSeq ≤ newSeq.seq)
    (hcp : newSeq.seq < cp.nxtSeq) :
    FitsRun newSeq pre.seq (tcpContSeq before pre (cp :: rest)) ↔
      (pre.nxtSeq = cp.seq ∨ newSeq.start ≤ cp.start) := by
  have hpre' : pre.stop ≤ newSeq.start := UInt32.le_iff_toNat_le.mp hpre
  have hcp' : newSeq.start < cp.stop := UInt32.lt_iff_toNat_lt.mp hcp
  have hprer : pre.start ≤ pre.stop := Ordered.mem_range hinv.ordered
  rw [fitsRun_contSeq_iff hinv]
  by_cases hcont : pre.nxtSeq = cp.seq
  · have hrun : tcpContSeq before pre (cp :: rest) = tcpContSeq (before ++ [pre]) cp rest := by
      simp [tcpContSeq, hcont]
    have hord : OrderedDisjoint ((before ++ [pre]) ++ cp :: rest) := by
      simpa using hinv.ordered
    have hend := stop_le_tcpContSeq hord
    rw [hrun]
    exact iff_of_true (.inl ⟨by omega, by omega⟩) (.inl hcont)
  · have hrun : tcpContSeq before pre (cp :: rest) = ⟨before, pre, cp :: rest⟩ := by
      simp [tcpContSeq, hcont]
    simp only [hrun, hcont, false_or, List.head?_cons, Option.mem_some_iff, forall_eq']
    omega

end Places

/-- **One insertion.**  The list stays ordered exactly when the segment starts
in place. -/
theorem tcpOrderDir_ordered_iff {lst : SeqList} {num : UInt32} {newSeq : SeqT}
    (hinv : OrderInv lst.nodes) (hlt : newSeq.seq < newSeq.nxtSeq) :
    OrderedDisjoint (tcpOrderDir lst num newSeq).list.nodes ↔ StartsInPlace newSeq lst.nodes := by
  have hlt' : newSeq.start < newSeq.stop := UInt32.lt_iff_toNat_lt.mp hlt
  cases lst with
  | null =>
      have hnone : ¬ StartsBehindGap newSeq [] := by simp [StartsBehindGap]
      simp [tcpOrderDir, SeqList.nodes, Cursor.nodes, OrderedDisjoint, StartsInPlace, hnone,
        hlt'.le]
  | withLast last =>
      have hnodes : ∀ fr cp, placeOf newSeq last = .within fr cp →
          (OrderedDisjoint (tcpOrderDir (.withLast last) num newSeq).list.nodes ↔
            FitsRun newSeq fr cp) := by
        intro fr cp hp
        simp only [tcpOrderDir, hp]
        exact linkSegment_ordered_iff hinv (placeOf_nodes hp) hlt'
      rcases placeOf_cases newSeq last with ⟨heq, hp⟩ | ⟨hp, hall⟩ | ⟨head, tail, hn, hhead, hp⟩ |
        ⟨before, pre, cp, rest, hn, hbefore, hpre, hcp, hp⟩
      · exact (hnodes _ _ hp).trans
          (iff_of_true (fitsRun_of_continues hinv heq)
            (startsInPlace_of_continues hinv.ordered heq))
      · simp only [tcpOrderDir, hp]
        exact iff_of_true
          (Ordered.concat hinv.ordered hlt'.le fun n hn => UInt32.le_iff_toNat_le.mp (hall n hn))
          (startsInPlace_of_behind hinv.ordered hall)
      · have hinv' : OrderInv (head :: tail) := hn ▸ hinv
        rw [hnodes _ _ hp, fitsRun_head_iff hinv' hhead,
          ← startsInPlace_head_iff hinv'.ordered hhead,
          ← hn]
        rfl
      · have hinv' : OrderInv (before ++ pre :: cp :: rest) := hn ▸ hinv
        have hall : ∀ n ∈ before ++ [pre], n.nxtSeq ≤ newSeq.seq := by
          simpa [or_imp, forall_and] using ⟨hbefore, hpre⟩
        rw [hnodes _ _ hp, fitsRun_between_iff hinv' hpre hcp,
          ← startsInPlace_between_iff hinv'.ordered hall hcp, ← hn]
        rfl

/-- An insertion that keeps the order keeps the invariant. -/
theorem tcpOrderDir_inv {lst : SeqList} {num : UInt32} {newSeq : SeqT}
    (hinv : OrderInv lst.nodes) (hlt : newSeq.seq < newSeq.nxtSeq)
    (hord : OrderedDisjoint (tcpOrderDir lst num newSeq).list.nodes) :
    OrderInv (tcpOrderDir lst num newSeq).list.nodes := by
  have hpos : 0 < newSeq.stop := Nat.zero_lt_of_lt (UInt32.lt_iff_toNat_lt.mp hlt)
  rcases tcpOrderDir_cases lst num newSeq with ⟨_, _, _, -, -, -, hres⟩ | ⟨-, hres, -⟩ |
    ⟨_, _, cp, -, -, -, hnodes, hres, -⟩
  · rw [hres]
    exact hinv
  · rw [hres] at hord ⊢
    refine ⟨hord, ?_⟩
    intro n hn
    rcases List.mem_append.mp hn with hn | hn
    · exact hinv.stop_pos n hn
    · exact List.mem_singleton.mp hn ▸ hpos
  · rw [hres] at hord ⊢
    exact stop_pos_insert (hnodes ▸ hinv) hord

/-- Nothing is unlinked, so a list once out of order stays so. -/
theorem sublist_tcpOrderDir (lst : SeqList) (num : UInt32) (newSeq : SeqT) :
    lst.nodes.Sublist (tcpOrderDir lst num newSeq).list.nodes := by
  rcases tcpOrderDir_cases lst num newSeq with ⟨_, _, _, -, -, -, hres⟩ | ⟨-, hres, -⟩ |
    ⟨_, _, cp, -, -, -, hnodes, hres, -⟩
  · rw [hres]
  · rw [hres]
    exact List.sublist_append_left _ _
  · rw [hres, hnodes]
    exact (List.Sublist.refl cp.before).append ((List.sublist_cons_self _ _).cons_cons _)

/-! ## Every sequence of insertions -/

/-- An argument of `tcp_order`: a segment with `seq < nxt_seq`, and a direction. -/
structure Insertion where
  newSeq : SeqT
  src : Bool
  nonempty : newSeq.seq < newSeq.nxtSeq

/-- One call of `tcp_order`. -/
def insertSeq (ord : OrderT) (i : Insertion) : OrderT := (tcpOrder ord i.newSeq i.src).1

/-- `tcp_order` called for each segment in turn, on a new order. -/
def insertAll (ins : List Insertion) : OrderT := ins.foldl insertSeq OrderT.new

theorem insertSeq_dir (ord : OrderT) (i : Insertion) (dir : Bool) :
    (insertSeq ord i).dir dir =
      if dir = i.src then (tcpOrderDir (ord.dir i.src) ord.num i.newSeq).list else ord.dir dir :=
  tcpOrder_dir ord i.newSeq i.src dir

/-- The guard of one insertion for the list of direction `dir`. -/
def InPlace (dir : Bool) (ord : OrderT) (i : Insertion) : Prop :=
  i.src = dir → StartsInPlace i.newSeq (ord.dir dir).nodes

/-- **When the lists stay ordered and disjoint.**  After any sequence of
insertions the list of a direction is ordered and disjoint exactly when every
segment of that direction started in place when it was inserted. -/
theorem tcpOrder_ordered_iff (dir : Bool) (ins : List Insertion) :
    OrderedDisjoint ((insertAll ins).dir dir).nodes ↔
      EveryStep (total insertSeq) (InPlace dir) OrderT.new ins := by
  have hrun : run (total insertSeq) OrderT.new ins = some (insertAll ins) := run_total _ _ _
  have hback : ∀ (ord : OrderT) i ord', total insertSeq ord i = some ord' →
      OrderedDisjoint (ord'.dir dir).nodes → OrderedDisjoint (ord.dir dir).nodes := by
    rintro ord i ord' h hord
    obtain rfl : insertSeq ord i = ord' := Option.some.inj h
    rw [insertSeq_dir] at hord
    split at hord
    · next heq =>
      subst heq
      exact hord.sublist (sublist_tcpOrderDir _ _ _)
    · exact hord
  rw [← everyState_iff_final hback hrun]
  have hnew : OrderInv (OrderT.new.dir dir).nodes := by
    cases dir <;> exact ⟨ordered_nil, by simp [OrderT.new, OrderT.dir, SeqList.nodes]⟩
  refine everyState_iff_everyStep
    (fun (ord : OrderT) (h : OrderInv (ord.dir dir).nodes) => h.ordered)
    ?_ ?_ (fun ord i _ h => by cases h) hnew
  · rintro ord i ord' hinv h
    obtain rfl : insertSeq ord i = ord' := Option.some.inj h
    rw [insertSeq_dir]
    by_cases heq : dir = i.src
    · subst heq
      simpa [InPlace] using tcpOrderDir_ordered_iff hinv i.nonempty
    · exact iff_of_true (by simpa [heq] using hinv.ordered) (fun h => absurd h.symm heq)
  · rintro ord i ord' hinv h hord
    obtain rfl : insertSeq ord i = ord' := Option.some.inj h
    rw [insertSeq_dir] at hord ⊢
    split
    · next heq =>
      subst heq
      simp only [if_true] at hord
      exact tcpOrderDir_inv hinv i.nonempty hord
    · exact hinv

/-- A node without a packet that covers `[seq, nxtSeq)`, as `Flow::add_packet`
inserts it for a packet it does not store. -/
def bareSeq (seq nxtSeq : UInt32) : SeqT := ⟨none, seq, nxtSeq, false, 0, 0, 0, false, 0⟩

/-- `[100, 200)` and then the earlier `[50, 100)`: the second is linked behind
the first. -/
theorem tcpOrder_links_earlier_segment_behind :
    ¬ ∀ (dir : Bool) (ins : List Insertion), OrderedDisjoint ((insertAll ins).dir dir).nodes := by
  intro h
  have hord := h true
    [⟨bareSeq 100 200, true, by decide⟩, ⟨bareSeq 50 100, true, by decide⟩]
  have hnodes : ((insertAll [⟨bareSeq 100 200, true, by decide⟩,
      ⟨bareSeq 50 100, true, by decide⟩]).dir true).nodes = [bareSeq 100 200, bareSeq 50 100] := by
    decide
  rw [hnodes] at hord
  have hchain : (bareSeq 100 200).stop ≤ (bareSeq 50 100).start :=
    (List.isChain_cons_cons.mp hord.2).1
  exact absurd hchain (by decide)

end MonitoringTool.Sniffer
