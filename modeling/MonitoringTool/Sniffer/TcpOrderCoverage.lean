import MonitoringTool.Sniffer.TcpOrderOrdered

/-!
# Which bytes `tcp_order` keeps

A list carries the sequence numbers in the ranges of its nodes.  `tcp_order` compares a
segment with one continuous run of listed nodes only (`RunStart`, `tcpContSeq`): it drops
the segment if that run holds it, and cuts it at the node behind that run.

Hence a segment whose bytes are all listed is dropped exactly when the run it is compared
with holds it (`retransmission_dropped_iff`): in an ordered list, unless it begins in a
node with a gap before it.  And bytes are lost exactly when a segment reaches over the
node behind its run to bytes that no node carries (`insertions_cover_iff`).
-/

namespace MonitoringTool.Sniffer

open Lib

/-! ## The run a segment is compared with -/

/-- The sequence numbers that listed nodes carry. -/
def carried (nodes : List SeqT) : Set ℕ := Covered SeqT.start SeqT.stop nodes

/-- The sequence numbers of a segment. -/
def SeqT.range (s : SeqT) : Set ℕ := Set.Ico s.start s.stop

/-- The node where the continuous run begins that `tcp_order` compares a segment with,
between the nodes before and after it. -/
inductive RunStart (newSeq : SeqT) (last : Cursor) : List SeqT → SeqT → List SeqT → Prop where
  /-- The last-inserted node ends where the segment begins. -/
  | lastInserted (h : last.node.nxtSeq = newSeq.seq) :
      RunStart newSeq last last.before last.node last.after
  /-- Already the head of the list ends behind the start of the segment. -/
  | head {head : SeqT} {tail : List SeqT} (hlast : last.node.nxtSeq ≠ newSeq.seq)
      (hnodes : last.nodes = head :: tail) (hhead : newSeq.seq < head.nxtSeq) :
      RunStart newSeq last [] head tail
  /-- The node behind `pre` is the first that ends behind the start of the segment. -/
  | behind {before : List SeqT} {pre cp : SeqT} {rest : List SeqT}
      (hlast : last.node.nxtSeq ≠ newSeq.seq) (hnodes : last.nodes = before ++ pre :: cp :: rest)
      (hbefore : ∀ n ∈ before, n.nxtSeq ≤ newSeq.seq) (hpre : pre.nxtSeq ≤ newSeq.seq)
      (hcp : newSeq.seq < cp.nxtSeq) : RunStart newSeq last before pre (cp :: rest)

theorem RunStart.nodes {newSeq pre : SeqT} {last : Cursor} {before after : List SeqT}
    (h : RunStart newSeq last before pre after) : last.nodes = before ++ pre :: after := by
  cases h with
  | lastInserted h => rfl
  | head hlast hnodes hhead => exact hnodes
  | behind hlast hnodes hbefore hpre hcp => exact hnodes

/-- The search finds the run that begins there. -/
theorem RunStart.placeOf {newSeq pre : SeqT} {last : Cursor} {before after : List SeqT}
    (h : RunStart newSeq last before pre after) :
    placeOf newSeq last = .within pre.seq (tcpContSeq before pre after) := by
  cases h with
  | lastInserted h => simp [MonitoringTool.Sniffer.placeOf, h]
  | head hlast hnodes hhead =>
      rcases placeOf_cases newSeq last with ⟨heq, -⟩ | ⟨-, hall⟩ | ⟨h', t', hn, -, hp⟩ |
        ⟨b, p, c, r, hn, hb, hpre, -, -⟩
      · exact absurd heq hlast
      · have hle := hall pre (by simp [hnodes])
        grind
      · obtain ⟨rfl, rfl⟩ := List.cons_eq_cons.mp (hnodes.symm.trans hn)
        exact hp
      · have hle : pre.nxtSeq ≤ newSeq.seq := by
          cases b with
          | nil => exact (List.cons_eq_cons.mp (hnodes.symm.trans hn)).1 ▸ hpre
          | cons x b => exact (List.cons_eq_cons.mp (hnodes.symm.trans hn)).1 ▸ hb x (by simp)
        grind
  | @behind before pre cp rest hlast hnodes hbefore hpre hcp =>
      have hfirst : ∀ n ∈ before ++ [pre], n.nxtSeq ≤ newSeq.seq := by
        simpa [or_imp, forall_and] using ⟨hbefore, hpre⟩
      rcases placeOf_cases newSeq last with ⟨heq, -⟩ | ⟨-, hall⟩ | ⟨h', t', hn, hh, -⟩ |
        ⟨b, p, c, r, hn, hb, hp, hc, hplace⟩
      · exact absurd heq hlast
      · have hle := hall cp (by simp [hnodes])
        grind
      · have hmem : h' ∈ before ++ [pre] := by
          cases before with
          | nil => simp [(List.cons_eq_cons.mp (hnodes.symm.trans hn)).1]
          | cons x before => simp [(List.cons_eq_cons.mp (hnodes.symm.trans hn)).1]
        have hle := hfirst h' hmem
        grind
      · have hfirst' : ∀ n ∈ b ++ [p], n.nxtSeq ≤ newSeq.seq := by
          simpa [or_imp, forall_and] using ⟨hb, hp⟩
        have hsplit : (before ++ [pre]) ++ cp :: rest = (b ++ [p]) ++ c :: r := by
          simpa using hnodes.symm.trans hn
        obtain ⟨hleft, rfl, rfl⟩ := eq_of_first hsplit hfirst (by grind) hfirst' (by grind)
        obtain ⟨rfl, rfl⟩ : before = b ∧ pre = p := by simpa using hleft
        exact hplace

/-- There is one run to compare with. -/
theorem RunStart.same_run {newSeq pre pre' : SeqT} {last : Cursor}
    {before before' after after' : List SeqT} (h : RunStart newSeq last before pre after)
    (h' : RunStart newSeq last before' pre' after') :
    pre.seq = pre'.seq ∧ tcpContSeq before pre after = tcpContSeq before' pre' after' := by
  simpa [h.placeOf] using h'.placeOf

/-- A run is found, unless all nodes end at or before the segment. -/
theorem placeOf_runStart (newSeq : SeqT) (last : Cursor) :
    (∃ before pre after, RunStart newSeq last before pre after) ∨
      placeOf newSeq last = .atEnd ∧ ∀ n ∈ last.nodes, n.nxtSeq ≤ newSeq.seq := by
  by_cases hlast : last.node.nxtSeq = newSeq.seq
  · exact .inl ⟨_, _, _, .lastInserted hlast⟩
  · rcases placeOf_cases newSeq last with ⟨heq, -⟩ | hend | ⟨head, tail, hn, hhead, -⟩ |
      ⟨before, pre, cp, rest, hn, hbefore, hpre, hcp, -⟩
    · exact absurd heq hlast
    · exact .inr hend
    · exact .inl ⟨_, _, _, .head hlast hn hhead⟩
    · exact .inl ⟨_, _, _, .behind hlast hn hbefore hpre hcp⟩

/-- The run that the segment is compared with holds it: its first and its last sequence
number are between the first one of the run and the last one. -/
def HeldByRun (newSeq : SeqT) (lst : SeqList) : Prop :=
  ∃ last before pre after, lst = .withLast last ∧ RunStart newSeq last before pre after ∧
    pre.seq ≤ newSeq.seq ∧ newSeq.seq ≤ (tcpContSeq before pre after).node.nxtSeq - 1 ∧
    newSeq.nxtSeq - 1 ≤ (tcpContSeq before pre after).node.nxtSeq - 1

/-- **What one insertion does, run by run.**  It drops the segment that the run found
holds and changes nothing, or puts the segment behind all nodes as it is, or links it,
fitted, behind the run found. -/
theorem tcpOrderDir_runs (lst : SeqList) (num : UInt32) (newSeq : SeqT) :
    (HeldByRun newSeq lst ∧ tcpOrderDir lst num newSeq = ⟨lst, num, 1⟩) ∨
    ((lst = .null ∨ ∃ last, lst = .withLast last ∧
        ∀ before pre after, ¬ RunStart newSeq last before pre after) ∧
      (tcpOrderDir lst num newSeq).list.nodes = lst.nodes ++ [newSeq] ∧
      (tcpOrderDir lst num newSeq).ret = 0) ∨
    (∃ last before pre after cp, lst = .withLast last ∧ RunStart newSeq last before pre after ∧
      tcpContSeq before pre after = cp ∧ ¬ IsRetransmission newSeq pre.seq cp ∧
      lst.nodes = cp.before ++ cp.node :: cp.after ∧
      (tcpOrderDir lst num newSeq).list.nodes =
        cp.before ++ cp.node :: fitted newSeq pre.seq cp :: cp.after ∧
      (tcpOrderDir lst num newSeq).ret = 0) := by
  cases lst with
  | null => exact .inr (.inl ⟨.inl rfl, rfl, rfl⟩)
  | withLast last =>
      rcases placeOf_runStart newSeq last with ⟨before, pre, after, hrun⟩ | ⟨hend, hall⟩
      · have hplace := hrun.placeOf
        rcases tcpOrderDir_cases (.withLast last) num newSeq with
          ⟨last', fr, cp, hl, hp, hre, hres⟩ | ⟨hl, -, -⟩ | ⟨last', fr, cp, hl, hp, hre, hn, hres⟩
        · obtain rfl : last = last' := by simpa using hl
          obtain ⟨rfl, rfl⟩ : pre.seq = fr ∧ tcpContSeq before pre after = cp := by
            simpa [hplace] using hp
          exact .inl ⟨⟨last, before, pre, after, rfl, hrun, hre.1.1, hre.1.2, hre.2⟩, hres⟩
        · rcases hl with hl | ⟨last', hl, hend⟩
          · cases hl
          · obtain rfl : last = last' := by simpa using hl
            simp [hplace] at hend
        · obtain rfl : last = last' := by simpa using hl
          obtain ⟨rfl, rfl⟩ : pre.seq = fr ∧ tcpContSeq before pre after = cp := by
            simpa [hplace] using hp
          exact .inr (.inr ⟨last, before, pre, after, _, rfl, hrun, rfl, hre, hn, hres⟩)
      · refine .inr (.inl ⟨.inr ⟨last, rfl, ?_⟩, ?_, ?_⟩)
        · intro before pre after hrun
          simp [hrun.placeOf] at hend
        · simp [tcpOrderDir, hend, SeqList.nodes, Cursor.nodes]
        · simp [tcpOrderDir, hend]

/-- A segment is dropped exactly when the run found holds it. -/
theorem tcpOrderDir_ret_iff (lst : SeqList) (num : UInt32) (newSeq : SeqT) :
    (tcpOrderDir lst num newSeq).ret = 1 ↔ HeldByRun newSeq lst := by
  rcases tcpOrderDir_runs lst num newSeq with ⟨hheld, hres⟩ | ⟨hnone, -, hret⟩ |
    ⟨last, before, pre, after, cp, rfl, hrun, rfl, hre, -, -, hret⟩
  · exact iff_of_true (by rw [hres]) hheld
  · refine iff_of_false (by rw [hret]; decide) ?_
    rintro ⟨last, before, pre, after, rfl, hrun, -⟩
    rcases hnone with hnone | ⟨last', hl, hnone⟩
    · cases hnone
    · obtain rfl : last = last' := by simpa using hl
      exact hnone before pre after hrun
  · refine iff_of_false (by rw [hret]; decide) ?_
    rintro ⟨last', b, p, a, hl, hrun', hlo, hhi, hend⟩
    obtain rfl : last = last' := by simpa using hl
    obtain ⟨hfr, hcp⟩ := hrun.same_run hrun'
    rw [← hfr] at hlo
    rw [← hcp] at hhi hend
    exact hre ⟨⟨hlo, hhi⟩, hend⟩

/-- A segment that no run holds is listed as one node more. -/
theorem tcpOrderDir_length {lst : SeqList} (num : UInt32) {newSeq : SeqT}
    (h : ¬ HeldByRun newSeq lst) :
    (tcpOrderDir lst num newSeq).list.nodes.length = lst.nodes.length + 1 := by
  rcases tcpOrderDir_runs lst num newSeq with ⟨hheld, -⟩ | ⟨-, hres, -⟩ |
    ⟨_, _, _, _, _, -, -, -, -, hnodes, hres, -⟩
  · exact absurd hheld h
  · simp [hres]
  · rw [hres, hnodes]
    simp
    omega

/-- What `tcp_cont_seq` finds: a run of nodes each of which ends where the next begins,
and which the node behind it does not continue. -/
theorem tcpContSeq_run (before : List SeqT) (lst : SeqT) (after : List SeqT) :
    ∃ run, (tcpContSeq before lst after).before ++ [(tcpContSeq before lst after).node] =
        before ++ lst :: run ∧
      ((lst :: run).IsChain fun x y => x.nxtSeq = y.seq) ∧
      ∀ aft ∈ (tcpContSeq before lst after).after.head?,
        (tcpContSeq before lst after).node.nxtSeq ≠ aft.seq := by
  induction after generalizing before lst with
  | nil => exact ⟨[], rfl, .singleton lst, by simp [tcpContSeq]⟩
  | cons next rest ih =>
      unfold tcpContSeq
      split
      · next hnext =>
        obtain ⟨run, hrun, hchain, hend⟩ := ih (before ++ [lst]) next
        exact ⟨next :: run, by simpa using hrun, .cons_cons hnext hchain, hend⟩
      · next hnext => exact ⟨[], rfl, .singleton lst, by simpa using hnext⟩

/-- Every sequence number from the beginning to the end of the run is carried, whether or
not the list is ordered. -/
theorem carried_of_run {before after : List SeqT} {pre : SeqT} {b : ℕ} (hlo : pre.start ≤ b)
    (hhi : b < (tcpContSeq before pre after).node.stop) :
    b ∈ carried (before ++ pre :: after) := by
  obtain ⟨run, hrun, hchain, -⟩ := tcpContSeq_run before pre after
  have hnodes := tcpContSeq_nodes before pre after
  generalize tcpContSeq before pre after = cp at *
  have hlist : before ++ pre :: run ++ cp.after = before ++ pre :: after := by
    rw [← hnodes, ← hrun]
    simp [Cursor.nodes]
  have hlast : (pre :: run).getLast (List.cons_ne_nil pre run) = cp.node := by
    have heq := congrArg List.getLast? hrun
    rw [List.getLast?_append_of_ne_nil _ (List.cons_ne_nil pre run),
      List.getLast?_eq_some_getLast (List.cons_ne_nil pre run)] at heq
    simpa using heq.symm
  have hstops : (pre :: run).IsChain fun x y => x.stop = y.start :=
    hchain.imp fun _ _ h => congrArg UInt32.toNat h
  have hin : b ∈ Covered SeqT.start SeqT.stop (pre :: run) :=
    covered_of_continuous hstops hlo (by rw [hlast]; exact hhi)
  rw [← hlist]
  unfold carried
  rw [covered_append, covered_append]
  exact .inl (.inr hin)

/-! ## Retransmissions -/

/-- The segment begins in a node that does not continue the node before it. -/
def HeldBehindGap (newSeq : SeqT) (nodes : List SeqT) : Prop :=
  ∃ before pre cp rest, nodes = before ++ pre :: cp :: rest ∧
    pre.nxtSeq ≠ cp.seq ∧ cp.seq ≤ newSeq.seq ∧ newSeq.seq < cp.nxtSeq

section Ordered

variable {newSeq pre : SeqT} {last : Cursor} {before after : List SeqT}

/-- In an ordered list the number at the end of a run is not carried. -/
theorem stop_not_carried (hinv : OrderInv (before ++ pre :: after)) :
    (tcpContSeq before pre after).node.stop ∉ carried (before ++ pre :: after) := by
  obtain ⟨-, -, -, hend⟩ := tcpContSeq_run before pre after
  rw [← tcpContSeq_nodes before pre after] at hinv ⊢
  generalize tcpContSeq before pre after = cp at *
  rintro ⟨n, hn, hlo, hhi⟩
  unfold Cursor.nodes at hn
  simp only [List.mem_append, List.mem_cons] at hn
  rcases hn with hn | rfl | hn
  · have hle := hinv.ordered.le_of_mem_left hn
    have hrange : cp.node.start ≤ cp.node.stop := hinv.ordered.mem_range
    omega
  · omega
  · cases hafter : cp.after with
    | nil => simp [hafter] at hn
    | cons aft rest =>
        -- the node behind the run begins behind its end
        have hne : cp.node.stop ≠ aft.start :=
          fun h => hend aft (by simp [hafter]) (UInt32.toNat_inj.mp h)
        have hle : cp.node.stop ≤ aft.start := hinv.stop_le_head aft (by simp [hafter])
        have hord : OrderedDisjoint ((cp.before ++ [cp.node]) ++ aft :: rest) := by
          simpa [Cursor.nodes, hafter] using hinv.ordered
        have haft : aft.start ≤ aft.stop := hord.mem_range
        rw [hafter] at hn
        rcases List.mem_cons.mp hn with rfl | hn
        · omega
        · have hbehind : aft.stop ≤ n.start := hord.le_of_mem_right hn
          omega

/-- In an ordered list a carried segment that begins in a run ends in it. -/
theorem stop_le_of_carried (hinv : OrderInv (before ++ pre :: after))
    (hcov : newSeq.range ⊆ carried (before ++ pre :: after))
    (hlt : newSeq.start < (tcpContSeq before pre after).node.stop) :
    newSeq.stop ≤ (tcpContSeq before pre after).node.stop := by
  by_contra hover
  exact stop_not_carried hinv (hcov ⟨hlt.le, not_le.mp hover⟩)

/-- In an ordered list the run found holds a carried segment if its first sequence number
is in the run. -/
theorem heldByRun_iff_start (hinv : OrderInv last.nodes) (hlt : newSeq.start < newSeq.stop)
    (hcov : newSeq.range ⊆ carried last.nodes) (hrun : RunStart newSeq last before pre after) :
    HeldByRun newSeq (.withLast last) ↔
      pre.start ≤ newSeq.start ∧ newSeq.start < (tcpContSeq before pre after).node.stop := by
  rw [hrun.nodes] at hinv hcov
  have hpos : 0 < (tcpContSeq before pre after).node.stop := by
    have hnodes := tcpContSeq_nodes before pre after
    exact hinv.stop_pos _ (by rw [← hnodes]; simp [Cursor.nodes])
  constructor
  · rintro ⟨last', b, p, a, hl, hrun', hlo, hhi, -⟩
    obtain rfl : last = last' := by simpa using hl
    obtain ⟨hfr, hcp⟩ := hrun.same_run hrun'
    rw [← hfr] at hlo
    rw [← hcp] at hhi
    exact ⟨UInt32.le_iff_toNat_le.mp hlo, ((inRun_iff hpos).mp ⟨hlo, hhi⟩).2⟩
  · rintro ⟨hlo, hhi⟩
    have hstop := stop_le_of_carried hinv hcov hhi
    have hin : InRun pre.seq ((tcpContSeq before pre after).node.nxtSeq - 1) newSeq :=
      (inRun_iff hpos).mpr ⟨UInt32.le_iff_toNat_le.mpr hlo, hhi⟩
    refine ⟨last, before, pre, after, rfl, hrun, hin.1, hin.2, ?_⟩
    rw [UInt32.le_iff_toNat_le, toNat_sub_one (show 0 < newSeq.nxtSeq.toNat by
      have hpos' : 0 < newSeq.stop := Nat.zero_lt_of_lt hlt
      exact hpos'), toNat_sub_one hpos]
    exact Nat.sub_le_sub_right hstop 1

/-- In an ordered list the node that a segment begins in is the first that ends behind the
start of the segment, and every node before it ends before the gap. -/
theorem HeldBehindGap.split {nodes : List SeqT} (hord : OrderedDisjoint nodes)
    (h : HeldBehindGap newSeq nodes) :
    ∃ before pre cp rest, nodes = (before ++ [pre]) ++ cp :: rest ∧ pre.nxtSeq ≠ cp.seq ∧
      cp.start ≤ newSeq.start ∧ newSeq.start < cp.stop ∧
      ∀ n ∈ before ++ [pre], n.stop < newSeq.start := by
  obtain ⟨before, pre, cp, rest, rfl, hne, hlo, hhi⟩ := h
  have hlo' : cp.start ≤ newSeq.start := UInt32.le_iff_toNat_le.mp hlo
  have hord' : OrderedDisjoint ((before ++ [pre]) ++ cp :: rest) := by simpa using hord
  have hgap : pre.stop < cp.start := by
    have hle : pre.stop ≤ cp.start := hord'.le_of_mem_left (by simp)
    have hne' : pre.stop ≠ cp.start := fun h => hne (UInt32.toNat_inj.mp h)
    omega
  refine ⟨before, pre, cp, rest, by simp, hne, hlo', UInt32.lt_iff_toNat_lt.mp hhi, ?_⟩
  intro n hn
  rcases List.mem_append.mp hn with hn | hn
  · have hle : n.stop ≤ pre.start := hord.le_of_mem_left hn
    have hrange : pre.start ≤ pre.stop := hord.mem_range
    omega
  · rw [List.mem_singleton.mp hn]
    omega

/-- A segment that begins where a node ends begins in no node behind a gap. -/
theorem not_heldBehindGap_of_touching {nodes : List SeqT} {n : SeqT}
    (hord : OrderedDisjoint nodes) (hn : n ∈ nodes) (hstop : n.stop = newSeq.start) :
    ¬ HeldBehindGap newSeq nodes := by
  intro hgap
  obtain ⟨b, p, c, r, rfl, -, hlo, hhi, hbefore⟩ := hgap.split hord
  rcases List.mem_append.mp hn with hn | hn
  · have hless := hbefore n hn
    omega
  · rcases List.mem_cons.mp hn with rfl | hn
    · omega
    · have hbehind : c.stop ≤ n.start := hord.le_of_mem_right hn
      have hrange : n.start ≤ n.stop := by
        obtain ⟨r₁, r₂, rfl⟩ := List.append_of_mem hn
        rw [← List.cons_append, ← List.append_assoc] at hord
        exact hord.mem_range
      omega

/-- In an ordered list a carried number lies in the first node that ends behind it. -/
theorem start_le_of_carried (left : List SeqT) {cp : SeqT} {rest : List SeqT} {b : ℕ}
    (hord : OrderedDisjoint (left ++ cp :: rest)) (hleft : ∀ n ∈ left, n.stop ≤ b)
    (hcp : b < cp.stop) (hcov : b ∈ carried (left ++ cp :: rest)) : cp.start ≤ b := by
  obtain ⟨holder, hmem, hlo, hhi⟩ := hcov
  rcases List.mem_append.mp hmem with hmem | hmem
  · have hle := hleft holder hmem
    omega
  · rcases List.mem_cons.mp hmem with rfl | hmem
    · exact hlo
    · have hbehind : cp.stop ≤ holder.start := hord.le_of_mem_right hmem
      omega

/-- In an ordered list a segment that begins in `cp` begins behind a gap exactly when `cp`
does not continue the node before it. -/
theorem heldBehindGap_iff (left : List SeqT) {cp : SeqT} {rest : List SeqT}
    (hord : OrderedDisjoint (left ++ cp :: rest)) (hleft : ∀ n ∈ left, n.stop ≤ newSeq.start)
    (hlo : cp.start ≤ newSeq.start) (hcp : newSeq.start < cp.stop) :
    HeldBehindGap newSeq (left ++ cp :: rest) ↔ ∃ pre ∈ left.getLast?, pre.nxtSeq ≠ cp.seq := by
  constructor
  · intro hgap
    obtain ⟨b, p, c, r, hnodes, hne, -, hc, hbefore⟩ := hgap.split hord
    obtain ⟨rfl, rfl, -⟩ := eq_of_first (p := fun n => n.stop ≤ newSeq.start) hnodes hleft
      (by omega) (fun n hn => (hbefore n hn).le) (by omega)
    exact ⟨p, by simp, hne⟩
  · rintro ⟨pre, hpre, hne⟩
    obtain ⟨before, rfl⟩ := List.getLast?_eq_some_iff.mp hpre
    exact ⟨before, pre, cp, rest, by simp, hne, UInt32.le_iff_toNat_le.mpr hlo,
      UInt32.lt_iff_toNat_lt.mpr hcp⟩

/-- **Retransmissions in an ordered list.**  The run found holds a segment all of whose
bytes are listed exactly when the segment does not begin in a node behind a gap. -/
theorem heldByRun_iff_of_ordered (hinv : OrderInv last.nodes) (hlt : newSeq.start < newSeq.stop)
    (hcov : newSeq.range ⊆ carried last.nodes) :
    HeldByRun newSeq (.withLast last) ↔ ¬ HeldBehindGap newSeq last.nodes := by
  have hcarried : newSeq.start ∈ carried last.nodes := hcov ⟨le_rfl, hlt⟩
  rcases placeOf_runStart newSeq last with ⟨before, pre, after, hrun⟩ | ⟨-, hall⟩
  · rw [heldByRun_iff_start hinv hlt hcov hrun]
    have hinv' := hrun.nodes ▸ hinv
    have hcarried' := hrun.nodes ▸ hcarried
    have hrange : pre.start ≤ pre.stop := hinv'.ordered.mem_range
    have hend := stop_le_tcpContSeq hinv'.ordered
    cases hrun with
    | lastInserted heq =>
        have hstop : last.node.stop = newSeq.start := congrArg UInt32.toNat heq
        refine iff_of_true ⟨by omega, ?_⟩
          (not_heldBehindGap_of_touching hinv.ordered (by simp [Cursor.nodes]) hstop)
        -- the number at the end of the run is not carried, but the segment's first is
        by_contra hnot
        have hat : (tcpContSeq last.before last.node last.after).node.stop = newSeq.start := by
          omega
        exact stop_not_carried hinv' (hat ▸ hcarried')
    | head hlast hnodes hhead =>
        have hhead' : newSeq.start < pre.stop := UInt32.lt_iff_toNat_lt.mp hhead
        have hlo := start_le_of_carried [] hinv'.ordered (by simp) hhead' hcarried'
        have hgap := heldBehindGap_iff [] hinv'.ordered (by simp) hlo hhead'
        rw [List.nil_append, ← hnodes] at hgap
        exact iff_of_true ⟨hlo, by omega⟩ (by simp [hgap])
    | @behind before pre cp rest hlast hnodes hbefore hpre hcp =>
        have hpre' : pre.stop ≤ newSeq.start := UInt32.le_iff_toNat_le.mp hpre
        have hcp' : newSeq.start < cp.stop := UInt32.lt_iff_toNat_lt.mp hcp
        have hfirst : ∀ n ∈ before ++ [pre], n.stop ≤ newSeq.start := by
          intro n hn
          rcases List.mem_append.mp hn with hn | hn
          · exact UInt32.le_iff_toNat_le.mp (hbefore n hn)
          · exact List.mem_singleton.mp hn ▸ hpre'
        rw [List.append_cons] at hnodes
        have hord := hnodes ▸ hinv.ordered
        have hlo := start_le_of_carried (before ++ [pre]) hord hfirst hcp' (hnodes ▸ hcarried)
        have hgap : HeldBehindGap newSeq last.nodes ↔ pre.nxtSeq ≠ cp.seq := by
          rw [hnodes, heldBehindGap_iff (before ++ [pre]) hord hfirst hlo hcp']
          simp
        rw [hgap, not_not]
        by_cases hcont : pre.nxtSeq = cp.seq
        · -- the run goes on through the node that holds the start
          have hnext :
              tcpContSeq before pre (cp :: rest) = tcpContSeq (before ++ [pre]) cp rest := by
            simp [tcpContSeq, hcont]
          have hend' := stop_le_tcpContSeq hord
          rw [hnext]
          exact iff_of_true ⟨by omega, by omega⟩ hcont
        · -- the run ends before the node that holds the start
          have hstop : tcpContSeq before pre (cp :: rest) = ⟨before, pre, cp :: rest⟩ := by
            simp [tcpContSeq, hcont]
          rw [hstop]
          exact iff_of_false (by simp; omega) hcont
  · obtain ⟨holder, hmem, -, hhi⟩ := hcarried
    have hle : holder.stop ≤ newSeq.start := UInt32.le_iff_toNat_le.mp (hall holder hmem)
    omega

end Ordered

@[simp] theorem OrderT.setDir_self (ord : OrderT) (dir : Bool) :
    ord.setDir dir (ord.dir dir) = ord := by
  cases dir <;> rfl

/-- **When a retransmission is dropped.**  `tcp_order` returns 1 and leaves the order as it
is exactly when the run of listed nodes that it compares the segment with holds the segment.
For a segment all of whose bytes are listed, in an ordered list, that is: unless the segment
begins in a node that does not continue the node before it. -/
theorem retransmission_dropped_iff (ord : OrderT) (dir : Bool) (newSeq : SeqT) :
    (tcpOrder ord newSeq dir = (ord, 1) ↔ HeldByRun newSeq (ord.dir dir)) ∧
      (OrderInv (ord.dir dir).nodes → newSeq.seq < newSeq.nxtSeq →
        newSeq.range ⊆ carried (ord.dir dir).nodes →
        (HeldByRun newSeq (ord.dir dir) ↔ ¬ HeldBehindGap newSeq (ord.dir dir).nodes)) := by
  refine ⟨?_, fun hinv hlt hcov => ?_⟩
  · rw [← tcpOrderDir_ret_iff (ord.dir dir) ord.num newSeq]
    constructor
    · intro h
      exact congrArg Prod.snd h
    · intro hret
      have hheld := (tcpOrderDir_ret_iff _ _ _).mp hret
      rcases tcpOrderDir_runs (ord.dir dir) ord.num newSeq with ⟨-, hres⟩ | ⟨-, -, hzero⟩ |
        ⟨_, _, _, _, _, -, -, -, -, -, -, hzero⟩
      · simp [tcpOrder, hres]
      · simp [hzero] at hret
      · simp [hzero] at hret
  · have hlt' : newSeq.start < newSeq.stop := UInt32.lt_iff_toNat_lt.mp hlt
    cases hlst : ord.dir dir with
    | null =>
        have hmem : newSeq.start ∈ carried (ord.dir dir).nodes := hcov ⟨le_rfl, hlt'⟩
        simp [hlst, carried, SeqList.nodes] at hmem
    | withLast last =>
        rw [hlst] at hinv hcov
        exact heldByRun_iff_of_ordered hinv hlt' hcov

/-- `[100, 200)` and `[200, 300)`, and then bytes of both again. -/
theorem retransmission_dropped_inside :
    tcpOrder (insertAll [⟨bareSeq 100 200, true, by decide⟩, ⟨bareSeq 200 300, true, by decide⟩])
        (bareSeq 150 250) true =
      (insertAll [⟨bareSeq 100 200, true, by decide⟩, ⟨bareSeq 200 300, true, by decide⟩], 1) ∧
    ¬ HeldBehindGap (bareSeq 150 250) ((insertAll [⟨bareSeq 100 200, true, by decide⟩,
      ⟨bareSeq 200 300, true, by decide⟩]).dir true).nodes := by
  have hnodes : ((insertAll [⟨bareSeq 100 200, true, by decide⟩,
      ⟨bareSeq 200 300, true, by decide⟩]).dir true).nodes =
        [bareSeq 100 200, bareSeq 200 300] := by
    decide
  have hcov : (bareSeq 150 250).range ⊆ carried ((insertAll [⟨bareSeq 100 200, true, by decide⟩,
      ⟨bareSeq 200 300, true, by decide⟩]).dir true).nodes := by
    rw [hnodes]
    rintro b ⟨hlo, hhi⟩
    have hlo' : 150 ≤ b := hlo
    have hhi' : b < 250 := hhi
    by_cases hb : b < 200
    · exact ⟨bareSeq 100 200, by simp, Nat.le_trans (by decide) hlo', hb⟩
    · exact ⟨bareSeq 200 300, by simp, not_lt.mp hb, Nat.lt_trans hhi' (by decide)⟩
  have hinv : OrderInv ((insertAll [⟨bareSeq 100 200, true, by decide⟩,
      ⟨bareSeq 200 300, true, by decide⟩]).dir true).nodes := by
    rw [hnodes]
    exact ⟨⟨by decide, by decide⟩, by decide⟩
  have hheld : HeldByRun (bareSeq 150 250) ((insertAll [⟨bareSeq 100 200, true, by decide⟩,
      ⟨bareSeq 200 300, true, by decide⟩]).dir true) :=
    ⟨⟨[], bareSeq 100 200, [bareSeq 200 300]⟩, [], bareSeq 100 200, [bareSeq 200 300],
      by decide, .head (by decide) rfl (by decide), by decide, by decide, by decide⟩
  have hiff := retransmission_dropped_iff (insertAll [⟨bareSeq 100 200, true, by decide⟩,
    ⟨bareSeq 200 300, true, by decide⟩]) true (bareSeq 150 250)
  exact ⟨hiff.1.mpr hheld, (hiff.2 hinv (by decide) hcov).mp hheld⟩

/-- `[100, 200)`, behind a gap `[300, 400)`, and then `[300, 400)` again: it is linked a
second time, cut to nothing. -/
theorem retransmission_listed_behind_gap :
    ¬ ∀ (ins : List Insertion) (dir : Bool) (newSeq : SeqT), newSeq.seq < newSeq.nxtSeq →
      newSeq.range ⊆ carried ((insertAll ins).dir dir).nodes →
      tcpOrder (insertAll ins) newSeq dir = (insertAll ins, 1) := by
  intro h
  have hdropped := h [⟨bareSeq 100 200, true, by decide⟩, ⟨bareSeq 300 400, true, by decide⟩] true
    (bareSeq 300 400) (by decide) fun b hb => ⟨bareSeq 300 400, by decide, hb⟩
  exact absurd (congrArg Prod.snd hdropped) (by decide)

/-! ## Coverage -/

/-- What every list of insertions holds: a node that ends at 0, cut there by a node that
begins at 0, is followed by that node. -/
def ZeroFollowed (nodes : List SeqT) : Prop :=
  (nodes.IsChain fun x y => x.nxtSeq = 0 → y.seq = 0) ∧ ∀ x ∈ nodes.getLast?, x.nxtSeq ≠ 0

/-- A run never ends at 0. -/
theorem ZeroFollowed.run_end {before after : List SeqT} {pre : SeqT}
    (h : ZeroFollowed (before ++ pre :: after)) :
    0 < (tcpContSeq before pre after).node.stop := by
  obtain ⟨-, -, -, hend⟩ := tcpContSeq_run before pre after
  rw [← tcpContSeq_nodes before pre after] at h
  generalize tcpContSeq before pre after = cp at *
  have hne : cp.node.nxtSeq ≠ 0 := by
    cases hafter : cp.after with
    | nil => exact h.2 cp.node (by simp [Cursor.nodes, hafter])
    | cons aft rest =>
        have hchain := h.1
        rw [Cursor.nodes, hafter] at hchain
        have hnext := (List.isChain_cons_cons.mp (List.isChain_append.mp hchain).2.1).1
        intro hzero
        exact hend aft (by simp [hafter]) (hzero.trans (hnext hzero).symm)
  exact Nat.pos_of_ne_zero fun h => hne (UInt32.toNat_inj.mp h)

theorem ZeroFollowed.concat {nodes : List SeqT} {n : SeqT} (h : ZeroFollowed nodes)
    (hn : n.nxtSeq ≠ 0) : ZeroFollowed (nodes ++ [n]) := by
  refine ⟨List.isChain_append.mpr ⟨h.1, .singleton n, ?_⟩, by simpa using hn⟩
  intro x hx y _ hzero
  exact absurd hzero (h.2 x hx)

/-- A node linked behind the end of a run keeps zeros followed if it ends at 0 only before
a node that begins there. -/
theorem ZeroFollowed.insert {before after : List SeqT} {x n : SeqT}
    (h : ZeroFollowed (before ++ x :: after)) (hx : x.nxtSeq ≠ 0)
    (hn : n.nxtSeq = 0 → ∃ aft ∈ after.head?, aft.seq = 0) :
    ZeroFollowed (before ++ x :: n :: after) := by
  obtain ⟨hchain, hlast⟩ := h
  obtain ⟨hbefore, hright, hcross⟩ := List.isChain_append.mp hchain
  constructor
  · refine List.isChain_append.mpr ⟨hbefore, ?_, by simpa using hcross⟩
    refine List.isChain_cons_cons.mpr ⟨fun hzero => absurd hzero hx, ?_⟩
    cases after with
    | nil => exact .singleton n
    | cons aft rest =>
        refine List.isChain_cons_cons.mpr ⟨?_, (List.isChain_cons_cons.mp hright).2⟩
        simpa using hn
  · cases after with
    | nil =>
        have hne : n.nxtSeq ≠ 0 := by simpa using hn
        simpa using hne
    | cons aft rest => simpa using hlast

/-- No byte of the segment that lies at or behind the node after the run found is new. -/
def NothingCut (newSeq : SeqT) (lst : SeqList) : Prop :=
  ∀ last before pre after, lst = .withLast last → RunStart newSeq last before pre after →
    ∀ aft ∈ (tcpContSeq before pre after).after.head?,
      ∀ b ∈ newSeq.range, aft.start ≤ b → b ∈ carried lst.nodes

/-- The run found is the only one. -/
theorem RunStart.nothingCut_iff {newSeq pre : SeqT} {last : Cursor} {before after : List SeqT}
    (hrun : RunStart newSeq last before pre after) :
    NothingCut newSeq (.withLast last) ↔
      ∀ aft ∈ (tcpContSeq before pre after).after.head?,
        ∀ b ∈ newSeq.range, aft.start ≤ b → b ∈ carried (SeqList.nodes (.withLast last)) := by
  constructor
  · intro h
    exact h last before pre after rfl hrun
  · intro h last' before' pre' after' hl hrun'
    obtain rfl : last = last' := by simpa using hl
    rw [← (hrun.same_run hrun').2]
    exact h

section Coverage

variable {lst : SeqList} {num : UInt32} {newSeq : SeqT}

/-- The run holds the segment in natural numbers. -/
theorem isRetransmission_iff {fr : UInt32} {cp : Cursor} (hpos : 0 < cp.node.stop)
    (hlt : newSeq.start < newSeq.stop) :
    IsRetransmission newSeq fr cp ↔
      fr.toNat ≤ newSeq.start ∧ newSeq.start < cp.node.stop ∧ newSeq.stop ≤ cp.node.stop := by
  have hnew : 0 < newSeq.nxtSeq.toNat := Nat.zero_lt_of_lt hlt
  unfold IsRetransmission
  rw [inRun_iff hpos, UInt32.le_iff_toNat_le, UInt32.le_iff_toNat_le, toNat_sub_one hnew,
    toNat_sub_one hpos]
  unfold SeqT.start SeqT.stop at *
  omega

/-- The bytes of a segment that a run holds are listed. -/
theorem HeldByRun.range_subset (hheld : HeldByRun newSeq lst) (hzero : ZeroFollowed lst.nodes)
    (hlt : newSeq.start < newSeq.stop) : newSeq.range ⊆ carried lst.nodes := by
  obtain ⟨last, before, pre, after, rfl, hrun, hlo, hhi, hend⟩ := hheld
  have hlist : SeqList.nodes (.withLast last) = before ++ pre :: after := hrun.nodes
  have hpos := ZeroFollowed.run_end (hlist ▸ hzero)
  obtain ⟨hfr, -, hstop⟩ := (isRetransmission_iff hpos hlt).mp ⟨⟨hlo, hhi⟩, hend⟩
  rintro b ⟨hb, hb'⟩
  rw [hlist]
  exact carried_of_run (Nat.le_trans hfr hb) (Nat.lt_of_lt_of_le hb' hstop)

theorem tcpOrderDir_zeroFollowed (hzero : ZeroFollowed lst.nodes)
    (hlt : newSeq.start < newSeq.stop) :
    ZeroFollowed (tcpOrderDir lst num newSeq).list.nodes := by
  have hnew : newSeq.nxtSeq ≠ 0 := by
    intro h
    rw [SeqT.stop, h] at hlt
    exact Nat.not_lt_zero _ hlt
  rcases tcpOrderDir_runs lst num newSeq with ⟨-, hres⟩ | ⟨-, hres, -⟩ |
    ⟨last, before, pre, after, cp, rfl, hrun, rfl, -, hnodes, hres, -⟩
  · rw [hres]
    exact hzero
  · rw [hres]
    exact hzero.concat hnew
  · have hend : (tcpContSeq before pre after).node.nxtSeq ≠ 0 := by
      have hpos := ZeroFollowed.run_end (hrun.nodes ▸ hzero : ZeroFollowed (before ++ pre :: after))
      intro h
      rw [SeqT.stop, h] at hpos
      exact Nat.lt_irrefl 0 hpos
    rw [hres]
    refine ZeroFollowed.insert (hnodes ▸ hzero) hend ?_
    intro h
    have hstop : (fitted newSeq pre.seq (tcpContSeq before pre after)).stop = 0 :=
      congrArg UInt32.toNat h
    rw [fitted_stop] at hstop
    cases hafter : (tcpContSeq before pre after).after with
    | nil =>
        have hzero' : newSeq.stop = 0 := by simpa [hafter] using hstop
        omega
    | cons aft rest =>
        have hmin : min newSeq.stop aft.start = 0 := by simpa [hafter] using hstop
        refine ⟨aft, rfl, UInt32.toNat_inj.mp ?_⟩
        show aft.start = 0
        omega

/-- **One insertion.**  The list carries the bytes of the segment besides its own exactly
when nothing new is cut. -/
theorem tcpOrderDir_carried_iff (hzero : ZeroFollowed lst.nodes)
    (hlt : newSeq.start < newSeq.stop) :
    carried (tcpOrderDir lst num newSeq).list.nodes = carried lst.nodes ∪ newSeq.range ↔
      NothingCut newSeq lst := by
  rcases tcpOrderDir_runs lst num newSeq with ⟨hheld, hres⟩ | ⟨hnone, hres, -⟩ |
    ⟨last, before, pre, after, cp, rfl, hrun, hcp, hre, hnodes, hres, -⟩
  · have hsub := hheld.range_subset hzero hlt
    rw [hres]
    exact iff_of_true (Set.union_eq_left.mpr hsub).symm fun _ _ _ _ _ _ _ _ b hb _ => hsub hb
  · rw [hres]
    refine iff_of_true (by rw [carried, covered_append, covered_singleton]; rfl) ?_
    rintro last before pre after rfl hrun
    rcases hnone with hnull | ⟨last', hl, hnone⟩
    · cases hnull
    · obtain rfl : last = last' := by simpa using hl
      exact absurd hrun (hnone before pre after)
  · have hlist : SeqList.nodes (.withLast last) = before ++ pre :: after := hrun.nodes
    have hpos : 0 < cp.node.stop := hcp ▸ ZeroFollowed.run_end (hlist ▸ hzero)
    have hins : carried (tcpOrderDir (.withLast last) num newSeq).list.nodes =
        carried (SeqList.nodes (.withLast last)) ∪
          Set.Ico (fitted newSeq pre.seq cp).start (fitted newSeq pre.seq cp).stop := by
      rw [hres, hnodes, List.append_cons, List.append_cons cp.before cp.node cp.after]
      exact covered_insert _ _ _
    have hstart := fitted_start newSeq pre.seq cp
    have hstop := fitted_stop newSeq pre.seq cp
    have hin : InRun pre.seq (cp.node.nxtSeq - 1) newSeq ↔ _ := inRun_iff hpos
    rw [UInt32.le_iff_toNat_le] at hin
    rw [hins, hrun.nothingCut_iff, hcp]
    generalize fitted newSeq pre.seq cp = n at *
    have hfront : newSeq.start ≤ n.start := by
      split at hstart
      · next hrunIn =>
        have hless := (hin.mp hrunIn).2
        omega
      · omega
    -- what is trimmed off the front is in the run
    have hheld : Set.Ico newSeq.start n.start ⊆ carried (SeqList.nodes (.withLast last)) := by
      rintro b ⟨hlo, hhi⟩
      split at hstart
      · next hrunIn =>
        have hfr : pre.start ≤ newSeq.start := (hin.mp hrunIn).1
        rw [hlist]
        exact carried_of_run (Nat.le_trans hfr hlo) (by rw [hcp]; omega)
      · omega
    cases hafter : cp.after with
    | nil =>
        have hend : n.stop = newSeq.stop := by simpa [hafter] using hstop
        have hpart := union_part_eq_iff hfront hend.le hheld
        refine hpart.trans (iff_of_true ?_ (by simp))
        rintro b ⟨-, hhi⟩ hback
        omega
    | cons aft rest =>
        have hend : n.stop = min newSeq.stop aft.start := by simpa [hafter] using hstop
        have hpart := union_part_eq_iff hfront (hend.trans_le (min_le_left _ _)) hheld
        refine hpart.trans ?_
        simp only [List.head?_cons, Option.mem_some_iff, forall_eq']
        refine forall₂_congr fun b hb => ?_
        have hless : b < newSeq.stop := hb.2
        rw [show n.stop ≤ b ↔ aft.start ≤ b by omega]

end Coverage

/-- The order with the segments inserted into the list of one direction so far. -/
structure CoverRun where
  ord : OrderT
  inserted : List SeqT

namespace CoverRun

/-- A new order. -/
def start : CoverRun := ⟨OrderT.new, []⟩

/-- One call of `tcp_order`. -/
def step (dir : Bool) (s : CoverRun) (i : Insertion) : CoverRun :=
  { ord := insertSeq s.ord i
    inserted := if dir = i.src then s.inserted ++ [i.newSeq] else s.inserted }

/-- The listed nodes carry the bytes of all segments inserted, and no others. -/
def Covers (dir : Bool) (s : CoverRun) : Prop :=
  carried (s.ord.dir dir).nodes = carried s.inserted

/-- The insertion, if it is one into this list, cuts no new byte. -/
def CutsNothing (dir : Bool) (s : CoverRun) (i : Insertion) : Prop :=
  dir = i.src → NothingCut i.newSeq (s.ord.dir dir)

/-- The list covers what was inserted, and its zeros are followed. -/
structure Inv (dir : Bool) (s : CoverRun) : Prop where
  covers : s.Covers dir
  zero : ZeroFollowed (s.ord.dir dir).nodes

theorem inv_start (dir : Bool) : Inv dir start := by
  have hnodes : (start.ord.dir dir).nodes = [] := by
    cases dir <;> rfl
  refine ⟨?_, ?_⟩
  · rw [Covers, hnodes]
    rfl
  · rw [hnodes]
    exact ⟨.nil, by simp⟩

theorem covers_step_iff {dir : Bool} {s : CoverRun} (i : Insertion) (hs : s.Inv dir) :
    (s.step dir i).Covers dir ↔ s.CutsNothing dir i := by
  have hlt : i.newSeq.start < i.newSeq.stop := UInt32.lt_iff_toNat_lt.mp i.nonempty
  unfold Covers CutsNothing step
  by_cases hdir : dir = i.src
  · have hcarried : carried s.inserted = carried (s.ord.dir dir).nodes := hs.covers.symm
    have hafter : carried (s.inserted ++ [i.newSeq]) =
        carried (s.ord.dir dir).nodes ∪ i.newSeq.range := by
      rw [← hcarried, carried, covered_append, covered_singleton]
      rfl
    rw [insertSeq_dir, if_pos hdir, if_pos hdir, hafter, hdir]
    simp only [true_imp_iff]
    exact tcpOrderDir_carried_iff (hdir ▸ hs.zero) hlt
  · rw [insertSeq_dir, if_neg hdir, if_neg hdir]
    exact iff_of_true hs.covers fun h => absurd h hdir

theorem inv_step {dir : Bool} {s : CoverRun} (i : Insertion) (hs : s.Inv dir)
    (hafter : (s.step dir i).Covers dir) : (s.step dir i).Inv dir := by
  refine ⟨hafter, ?_⟩
  show ZeroFollowed ((insertSeq s.ord i).dir dir).nodes
  rw [insertSeq_dir]
  split
  · next hdir =>
    subst hdir
    exact tcpOrderDir_zeroFollowed hs.zero (UInt32.lt_iff_toNat_lt.mp i.nonempty)
  · exact hs.zero

end CoverRun

/-- **When the lists carry all bytes inserted.**  After every one of a sequence of
insertions the nodes of a direction carry exactly the bytes of the segments inserted there
so far if and only if every segment brings nothing new at or behind the node that follows
the run it is compared with. -/
theorem insertions_cover_iff (dir : Bool) (ins : List Insertion) :
    EveryState (total (CoverRun.step dir)) (CoverRun.Covers dir) .start ins ↔
      EveryStep (total (CoverRun.step dir)) (CoverRun.CutsNothing dir) .start ins := by
  refine everyState_iff_everyStep (fun (s : CoverRun) (hs : s.Inv dir) => hs.covers)
    ?_ ?_ ?_ (CoverRun.inv_start dir)
  · intro s i s' hs hstep
    obtain rfl := Option.some.inj hstep
    exact CoverRun.covers_step_iff i hs
  · intro s i s' hs hstep hafter
    obtain rfl := Option.some.inj hstep
    exact CoverRun.inv_step i hs hafter
  · intro s i _ hstep
    simp at hstep

/-- `[100, 200)`, behind a gap `[300, 400)`, and then `[200, 500)`, which fills the gap and
brings more: what it brings behind `[300, 400)` is lost. -/
theorem insertion_loses_bytes :
    ¬ ∀ (dir : Bool) (ins : List Insertion), carried ((insertAll ins).dir dir).nodes =
      carried ((ins.filter (·.src = dir)).map (·.newSeq)) := by
  intro h
  have hall := h true [⟨bareSeq 100 200, true, by decide⟩, ⟨bareSeq 300 400, true, by decide⟩,
    ⟨bareSeq 200 500, true, by decide⟩]
  have hnodes : ((insertAll [⟨bareSeq 100 200, true, by decide⟩,
      ⟨bareSeq 300 400, true, by decide⟩, ⟨bareSeq 200 500, true, by decide⟩]).dir true).nodes =
        [bareSeq 100 200, bareSeq 200 300, bareSeq 300 400] := by
    decide
  have hmem : 450 ∈ carried [bareSeq 100 200, bareSeq 300 400, bareSeq 200 500] :=
    ⟨bareSeq 200 500, by simp, by decide, by decide⟩
  have hlost : 450 ∈ carried [bareSeq 100 200, bareSeq 200 300, bareSeq 300 400] := by
    rw [← hnodes, hall]
    exact hmem
  simp [carried, mem_covered, bareSeq, SeqT.start, SeqT.stop] at hlost

end MonitoringTool.Sniffer
