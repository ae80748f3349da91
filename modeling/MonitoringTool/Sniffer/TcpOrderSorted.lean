import Mathlib.Data.List.Sort
import MonitoringTool.Sniffer.TcpOrderOrdered

/-!
# `tcp_order` is sorted insertion

On a list of non-empty, disjoint segments in increasing order, a segment that overlaps none
of them and does not start before the first has one place, and `tcp_order` links it there as
it is.  The shortcut through the last-inserted node and the search from the head end at the
same place: behind the last node that ends at or before the segment (`Splits`).  There the
continuous run scanned ends at once, since the segment lies in front of the next node.
-/

namespace MonitoringTool.Sniffer

open Lib

/-- Non-empty segments, none of which wraps, disjoint and in increasing order. -/
structure WellFormed (nodes : List SeqT) : Prop where
  ordered : OrderedDisjoint nodes
  nonEmpty : ∀ n ∈ nodes, n.start < n.stop

/-- A non-empty segment that overlaps no node and does not start before the first. -/
structure FitsBetween (newSeq : SeqT) (nodes : List SeqT) : Prop where
  nonEmpty : newSeq.start < newSeq.stop
  apart : ∀ n ∈ nodes, n.stop ≤ newSeq.start ∨ newSeq.stop ≤ n.start
  behindFirst : ∀ head ∈ nodes.head?, head.start ≤ newSeq.start

/-- The list with the segment inserted where its start belongs. -/
def sortedInsert (newSeq : SeqT) (nodes : List SeqT) : List SeqT :=
  nodes.orderedInsert (fun a b => a.start ≤ b.start) newSeq

/-- What `tcp_order` does with a place. -/
def linkAt (last : Cursor) (num : UInt32) (newSeq : SeqT) : Place → OrderResult
  | .atEnd => ⟨.withLast ⟨last.nodes, newSeq, []⟩, num + 1, 0⟩
  | .within fr cp => linkSegment last num newSeq fr cp

theorem tcpOrderDir_eq_linkAt (last : Cursor) (num : UInt32) (newSeq : SeqT) :
    tcpOrderDir (.withLast last) num newSeq = linkAt last num newSeq (placeOf newSeq last) := by
  cases hplace : placeOf newSeq last <;> simp only [tcpOrderDir, hplace, linkAt]

/-! ## The place -/

/-- The nodes before the place end at or before the segment, those behind it begin at or
behind its end. -/
structure Splits (newSeq : SeqT) (left right : List SeqT) : Prop where
  left_le : ∀ n ∈ left, n.stop ≤ newSeq.start
  le_right : ∀ n ∈ right, newSeq.stop ≤ n.start

theorem Splits.sortedInsert {newSeq : SeqT} {left right : List SeqT}
    (h : Splits newSeq left right) (hleft : ∀ n ∈ left, n.start < n.stop)
    (hnew : newSeq.start < newSeq.stop) :
    sortedInsert newSeq (left ++ right) = left ++ newSeq :: right := by
  induction left with
  | nil =>
      cases right with
      | nil => rfl
      | cons n right =>
          have hn : newSeq.stop ≤ n.start := h.le_right n (by simp)
          exact List.orderedInsert_cons_of_le _ right (hnew.le.trans hn)
  | cons n left ih =>
      have hn : n.stop ≤ newSeq.start := h.left_le n (by simp)
      have hlt : n.start < n.stop := hleft n (by simp)
      have hrest : Splits newSeq left right :=
        ⟨fun m hm => h.left_le m (by simp [hm]), h.le_right⟩
      have hgo : ¬ newSeq.start ≤ n.start := by omega
      have hstep := List.orderedInsert_of_not_le (fun a b : SeqT => a.start ≤ b.start)
        (left ++ right) hgo
      calc Sniffer.sortedInsert newSeq (n :: (left ++ right))
          = n :: Sniffer.sortedInsert newSeq (left ++ right) := hstep
        _ = n :: (left ++ newSeq :: right) := by
            rw [ih hrest fun m hm => hleft m (by simp [hm])]

/-- Where a place is `Splits`, the segment is linked there as it is. -/
structure Finds (newSeq : SeqT) (nodes : List SeqT) (place : Place) : Prop where
  atEnd : place = .atEnd → ∀ n ∈ nodes, n.stop ≤ newSeq.start
  within : ∀ fr cp, place = .within fr cp →
    cp.nodes = nodes ∧ Splits newSeq (cp.before ++ [cp.node]) cp.after

section

variable {newSeq : SeqT} {nodes : List SeqT}

theorem Finds.linkAt {place : Place} (h : Finds newSeq nodes place) (hlist : WellFormed nodes)
    (hnew : newSeq.start < newSeq.stop) {last : Cursor} (hlast : last.nodes = nodes)
    (num : UInt32) :
    (linkAt last num newSeq place).list.nodes = sortedInsert newSeq nodes ∧
      (linkAt last num newSeq place).ret = 0 := by
  cases place with
  | atEnd =>
      have hsplit : Splits newSeq nodes [] := ⟨h.atEnd rfl, by simp⟩
      have hsorted := hsplit.sortedInsert hlist.nonEmpty hnew
      rw [List.append_nil] at hsorted
      refine ⟨?_, rfl⟩
      rw [hsorted, ← hlast]
      rfl
  | within fr cp =>
      obtain ⟨hcp, hsplit⟩ := h.within fr cp rfl
      have hstop : cp.node.stop ≤ newSeq.start := hsplit.left_le cp.node (by simp)
      have hmem : cp.node ∈ nodes := by
        rw [← hcp]
        simp [Cursor.nodes]
      have hpos : 0 < cp.node.stop := Nat.zero_lt_of_lt (hlist.nonEmpty cp.node hmem)
      have hout : ¬ InRun fr (cp.node.nxtSeq - 1) newSeq := by
        rw [inRun_iff hpos]
        rintro ⟨-, hlt⟩
        omega
      -- in front of the next node nothing is cut
      have hfitted : fitted newSeq fr cp = newSeq := by
        simp only [fitted, if_neg hout]
        cases hafter : cp.after with
        | nil => rfl
        | cons aft rest =>
            have haft : newSeq.stop ≤ aft.start := hsplit.le_right aft (by simp [hafter])
            exact if_pos (UInt32.le_iff_toNat_le.mpr haft)
      obtain ⟨hlinked, hret⟩ := @linkSegment_nodes last cp num fr newSeq (hcp.trans hlast.symm)
        fun hre : IsRetransmission newSeq fr cp => hout hre.1
      refine ⟨?_, hret⟩
      have hnodes : nodes = (cp.before ++ [cp.node]) ++ cp.after := by
        rw [← hcp]
        simp [Cursor.nodes]
      have hsorted := hsplit.sortedInsert
        (fun n hn => hlist.nonEmpty n (by rw [hnodes]; exact List.mem_append_left _ hn)) hnew
      rw [← hnodes] at hsorted
      rw [hfitted] at hlinked
      rw [hsorted, List.append_assoc, List.singleton_append]
      exact hlinked

/-- No node continues the one before the place: the run scanned ends there. -/
private theorem tcpContSeq_stops {before after : List SeqT} {lst : SeqT}
    (hnew : newSeq.start < newSeq.stop) (hsplit : Splits newSeq (before ++ [lst]) after) :
    tcpContSeq before lst after = ⟨before, lst, after⟩ := by
  cases after with
  | nil => rfl
  | cons next rest =>
      have hlst : lst.stop ≤ newSeq.start := hsplit.left_le lst (by simp)
      have hnext : newSeq.stop ≤ next.start := hsplit.le_right next (by simp)
      have hgap : lst.nxtSeq ≠ next.seq := by
        intro heq
        have hsame : lst.stop = next.start := congrArg UInt32.toNat heq
        omega
      exact if_neg hgap

/-- A node that does not end at or before the segment begins at or behind its end. -/
private theorem FitsBetween.le_right (h : FitsBetween newSeq nodes) {n : SeqT} (hn : n ∈ nodes)
    (hlt : newSeq.start < n.stop) : newSeq.stop ≤ n.start := by
  rcases h.apart n hn with hle | hle
  · omega
  · exact hle

/-- The nodes behind one that lies behind the segment lie behind it as well. -/
private theorem FitsBetween.splits (h : FitsBetween newSeq nodes) (hlist : WellFormed nodes)
    {left rest : List SeqT} {cp : SeqT} (hnodes : nodes = left ++ cp :: rest)
    (hleft : ∀ n ∈ left, n.stop ≤ newSeq.start) (hcp : newSeq.start < cp.stop) :
    Splits newSeq left (cp :: rest) := by
  refine ⟨hleft, fun n hn => ?_⟩
  have hfirst : newSeq.stop ≤ cp.start := h.le_right (by simp [hnodes]) hcp
  rcases List.mem_cons.mp hn with rfl | hn
  · exact hfirst
  · have hord : OrderedDisjoint (left ++ cp :: rest) := hnodes ▸ hlist.ordered
    have hbehind : cp.stop ≤ n.start := Ordered.le_of_mem_right hord hn
    have hlt : cp.start < cp.stop := hlist.nonEmpty cp (by simp [hnodes])
    omega

/-- The search from the head finds the place. -/
theorem placeFromHead_finds (hlist : WellFormed nodes) (hnew : FitsBetween newSeq nodes) :
    Finds newSeq nodes (placeFromHead newSeq nodes) := by
  rcases placeFromHead_cases newSeq nodes with ⟨hplace, hle⟩ | ⟨head, tail, hnodes, hlt, -⟩ |
    ⟨before, pre, cp, rest, hnodes, hbefore, hpre, hcp, hplace⟩
  · rw [hplace]
    exact ⟨fun _ n hn => UInt32.le_iff_toNat_le.mp (hle n hn), fun fr cp h => by cases h⟩
  · -- the segment does not start before the first node
    have hfirst : head.start ≤ newSeq.start := hnew.behindFirst head (by simp [hnodes])
    have hbehind : newSeq.stop ≤ head.start :=
      hnew.le_right (by simp [hnodes]) (UInt32.lt_iff_toNat_lt.mp hlt)
    have hlt := hnew.nonEmpty
    omega
  · have hleft : ∀ n ∈ before ++ [pre], n.stop ≤ newSeq.start := by
      intro n hn
      rcases List.mem_append.mp hn with hn | hn
      · exact UInt32.le_iff_toNat_le.mp (hbefore n hn)
      · rw [List.mem_singleton.mp hn]
        exact UInt32.le_iff_toNat_le.mp hpre
    have hsplit : Splits newSeq (before ++ [pre]) (cp :: rest) :=
      hnew.splits hlist (by simpa using hnodes) hleft (UInt32.lt_iff_toNat_lt.mp hcp)
    rw [tcpContSeq_stops hnew.nonEmpty hsplit] at hplace
    rw [hplace]
    refine ⟨fun h => (by cases h), fun fr c h => ?_⟩
    obtain ⟨-, rfl⟩ := Place.within.inj h
    exact ⟨hnodes.symm, hsplit⟩

/-- So does the shortcut, if it is taken. -/
theorem placeOf_finds {last : Cursor} (hlist : WellFormed last.nodes)
    (hnew : FitsBetween newSeq last.nodes) : Finds newSeq last.nodes (placeOf newSeq last) := by
  rw [placeOf_eq]
  by_cases hshort : last.node.nxtSeq = newSeq.seq
  · rw [if_pos hshort]
    have hstop : last.node.stop = newSeq.start := congrArg UInt32.toNat hshort
    have hord : OrderedDisjoint (last.before ++ last.node :: last.after) := hlist.ordered
    have hleft : ∀ n ∈ last.before ++ [last.node], n.stop ≤ newSeq.start := by
      intro n hn
      rcases List.mem_append.mp hn with hn | hn
      · have hbefore : n.stop ≤ last.node.start := Ordered.le_of_mem_left hord hn
        have hlt : last.node.start < last.node.stop :=
          hlist.nonEmpty last.node (by simp [Cursor.nodes])
        omega
      · rw [List.mem_singleton.mp hn, hstop]
    have hright : ∀ n ∈ last.after, newSeq.stop ≤ n.start := by
      intro n hn
      have hbehind : last.node.stop ≤ n.start := Ordered.le_of_mem_right hord hn
      have hmem : n ∈ last.nodes := by simp [Cursor.nodes, hn]
      have hlt : n.start < n.stop := hlist.nonEmpty n hmem
      exact hnew.le_right hmem (by omega)
    rw [tcpContSeq_stops hnew.nonEmpty ⟨hleft, hright⟩]
    refine ⟨fun h => (by cases h), fun fr c h => ?_⟩
    obtain ⟨-, rfl⟩ := Place.within.inj h
    exact ⟨rfl, hleft, hright⟩
  · rw [if_neg hshort]
    exact placeFromHead_finds hlist hnew

end

/-- **Sorted insertion.**  For every list of non-empty, disjoint segments in increasing
order, with any of its nodes as the last-inserted one, and every segment that overlaps no
node and does not start before the first: `tcp_order` returns 0, the list is the sorted
insertion of the segment as it is, and linking it where the search from the head ends gives
the same list. -/
theorem tcpOrder_sorted_insert (ord : OrderT) (src : Bool) (newSeq : SeqT)
    (hlist : WellFormed (ord.dir src).nodes) (hnew : FitsBetween newSeq (ord.dir src).nodes) :
    (tcpOrder ord newSeq src).2 = 0 ∧
      ((tcpOrder ord newSeq src).1.dir src).nodes = sortedInsert newSeq (ord.dir src).nodes ∧
      ∀ last, ord.dir src = .withLast last →
        (linkAt last ord.num newSeq (placeFromHead newSeq last.nodes)).list.nodes =
          sortedInsert newSeq (ord.dir src).nodes := by
  have hret : (tcpOrder ord newSeq src).2 =
      (tcpOrderDir (ord.dir src) ord.num newSeq).ret := rfl
  rw [hret, tcpOrder_dir, if_pos rfl]
  cases hdir : ord.dir src with
  | null => exact ⟨rfl, rfl, fun last hlast => by cases hlast⟩
  | withLast last =>
      rw [hdir] at hlist hnew
      have hlinked := (placeOf_finds hlist hnew).linkAt hlist hnew.nonEmpty rfl ord.num
      rw [tcpOrderDir_eq_linkAt]
      refine ⟨hlinked.2, hlinked.1, fun last' hlast' => ?_⟩
      obtain rfl := SeqList.withLast.inj hlast'
      exact ((placeFromHead_finds hlist hnew).linkAt hlist hnew.nonEmpty rfl ord.num).1

/-- A segment in the gap of a list of two, behind the last-inserted node. -/
theorem tcpOrder_sorted_insert_gap :
    ((tcpOrder ⟨.withLast ⟨[], bareSeq 10 20, [bareSeq 40 50]⟩, .null, 2⟩
        (bareSeq 20 30) true).1.dir true).nodes =
      [bareSeq 10 20, bareSeq 20 30, bareSeq 40 50] := by
  have hinsert := tcpOrder_sorted_insert
    ⟨.withLast ⟨[], bareSeq 10 20, [bareSeq 40 50]⟩, .null, 2⟩ true (bareSeq 20 30)
    ⟨⟨by decide, by decide⟩, by decide⟩ ⟨by decide, by decide, by decide⟩
  exact hinsert.2.1

end MonitoringTool.Sniffer
