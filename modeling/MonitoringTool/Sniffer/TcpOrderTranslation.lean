import MonitoringTool.Sniffer.TcpOrderOrdered

/-!
# `tcp_order` and the end of the sequence space

Sequence numbers are 32-bit numbers that begin anywhere and wrap around.  `tcp_order`
compares them as plain unsigned numbers, so that a stream that passes 2^32 is not ordered
like one that does not.

Everything else in the routine is invariant under adding a constant `k` to all sequence
numbers: equalities, differences, and the trims.  `tcpOrder_translates` says that the
comparisons are all it takes: where adding `k` changes none of them, the list is the
translated one and the return values are the same.  Segments in a window that adding `k`
does not move over the end of the sequence space are such a case.
-/

namespace MonitoringTool.Sniffer

open Lib

/-! ## Translation -/

/-- The node with `k` added to its sequence numbers. -/
def SeqT.translate (k : UInt32) (s : SeqT) : SeqT :=
  { s with seq := s.seq + k, nxtSeq := s.nxtSeq + k }

/-- The cursor into the translated list. -/
def Cursor.translate (k : UInt32) (c : Cursor) : Cursor :=
  ⟨c.before.map (SeqT.translate k), c.node.translate k, c.after.map (SeqT.translate k)⟩

/-- The list with its nodes translated. -/
def SeqList.translate (k : UInt32) : SeqList → SeqList
  | .null => .null
  | .withLast last => .withLast (last.translate k)

/-- The order with both lists translated. -/
def OrderT.translate (k : UInt32) (ord : OrderT) : OrderT :=
  { ord with src := ord.src.translate k, dst := ord.dst.translate k }

section Pieces

variable {k : UInt32}

@[simp] theorem SeqT.translate_seq (s : SeqT) : (s.translate k).seq = s.seq + k := rfl

@[simp] theorem SeqT.translate_nxtSeq (s : SeqT) : (s.translate k).nxtSeq = s.nxtSeq + k := rfl

@[simp] theorem Cursor.translate_node (c : Cursor) :
    (c.translate k).node = c.node.translate k := rfl

@[simp] theorem Cursor.translate_after (c : Cursor) :
    (c.translate k).after = c.after.map (SeqT.translate k) := rfl

@[simp] theorem Cursor.translate_nodes (c : Cursor) :
    (c.translate k).nodes = c.nodes.map (SeqT.translate k) := by
  simp [Cursor.translate, Cursor.nodes]

theorem Cursor.translate_insert (c : Cursor) (s : SeqT) :
    (c.insert s).translate k = (c.translate k).insert (s.translate k) := by
  simp [Cursor.translate, Cursor.insert]

theorem OrderT.translate_dir (ord : OrderT) (src : Bool) :
    (ord.translate k).dir src = (ord.dir src).translate k := by
  cases src <;> rfl

/-- Equal sequence numbers stay equal, and others do not become so. -/
theorem tcpContSeq_translate (before : List SeqT) (lst : SeqT) (after : List SeqT) :
    tcpContSeq (before.map (SeqT.translate k)) (lst.translate k) (after.map (SeqT.translate k)) =
      (tcpContSeq before lst after).translate k := by
  induction after generalizing before lst with
  | nil => rfl
  | cons next rest ih =>
      have hsame : lst.nxtSeq + k = next.seq + k ↔ lst.nxtSeq = next.seq := UInt32.add_left_inj k
      rw [List.map_cons, tcpContSeq, tcpContSeq]
      simp only [SeqT.translate_nxtSeq, SeqT.translate_seq, hsame]
      split
      · have hnext := ih (before ++ [lst]) next
        rwa [List.map_append, List.map_singleton] at hnext
      · rfl

/-! ## Comparisons -/

/-- Adding `k` changes none of the comparisons that `tcp_order` can make between a segment
and a listed node. -/
structure AlikeUnder (k : UInt32) (newSeq n : SeqT) : Prop where
  search : n.nxtSeq + k ≤ newSeq.seq + k ↔ n.nxtSeq ≤ newSeq.seq
  front : n.seq + k ≤ newSeq.seq + k ↔ n.seq ≤ newSeq.seq
  behind : newSeq.seq + k ≤ n.nxtSeq + k - 1 ↔ newSeq.seq ≤ n.nxtSeq - 1
  within : newSeq.nxtSeq + k - 1 ≤ n.nxtSeq + k - 1 ↔ newSeq.nxtSeq - 1 ≤ n.nxtSeq - 1
  back : newSeq.nxtSeq + k ≤ n.seq + k ↔ newSeq.nxtSeq ≤ n.seq

variable {newSeq : SeqT}

theorem searchFrom_translate (before : List SeqT) (pre : SeqT) (rest : List SeqT)
    (h : ∀ n ∈ rest, AlikeUnder k newSeq n) :
    searchFrom (newSeq.translate k) (before.map (SeqT.translate k)) (pre.translate k)
        (rest.map (SeqT.translate k)) =
      (searchFrom newSeq before pre rest).map (Cursor.translate k) := by
  induction rest generalizing before pre with
  | nil => rfl
  | cons cp rest ih =>
      have hcp := (h cp (by simp)).search
      rw [List.map_cons, searchFrom, searchFrom]
      simp only [SeqT.translate_nxtSeq, SeqT.translate_seq, hcp]
      split
      · have hnext := ih (before ++ [pre]) cp fun n hn => h n (by simp [hn])
        rwa [List.map_append, List.map_singleton] at hnext
      · rfl

theorem search_translate (head : SeqT) (tail : List SeqT)
    (h : ∀ n ∈ head :: tail, AlikeUnder k newSeq n) :
    search (newSeq.translate k) (head.translate k) (tail.map (SeqT.translate k)) =
      (search newSeq head tail).map (Cursor.translate k) := by
  have hhead := (h head (by simp)).search
  unfold search
  simp only [SeqT.translate_nxtSeq, SeqT.translate_seq, hhead]
  split
  · exact searchFrom_translate [] head tail fun n hn => h n (by simp [hn])
  · rfl

/-- The place with its cursor in the translated list. -/
def Place.translate (k : UInt32) : Place → Place
  | .atEnd => .atEnd
  | .within fr cp => .within (fr + k) (cp.translate k)

/-- What the search found makes the translated place. -/
theorem translate_found (found : Option Cursor) :
    (match found.map (Cursor.translate k) with
      | none => Place.atEnd
      | some pre => .within pre.node.seq (tcpContSeq pre.before pre.node pre.after)) =
    Place.translate k (match found with
      | none => Place.atEnd
      | some pre => .within pre.node.seq (tcpContSeq pre.before pre.node pre.after)) := by
  cases found with
  | none => rfl
  | some pre =>
      show Place.within (pre.node.seq + k) (tcpContSeq (pre.before.map (SeqT.translate k))
        (pre.node.translate k) (pre.after.map (SeqT.translate k))) = _
      rw [tcpContSeq_translate]
      rfl

theorem placeOf_translate (last : Cursor) (h : ∀ n ∈ last.nodes, AlikeUnder k newSeq n) :
    placeOf (newSeq.translate k) (last.translate k) = (placeOf newSeq last).translate k := by
  have hsame : last.node.nxtSeq + k = newSeq.seq + k ↔ last.node.nxtSeq = newSeq.seq :=
    UInt32.add_left_inj k
  obtain ⟨before, node, after⟩ := last
  unfold placeOf
  simp only [Cursor.translate, SeqT.translate_nxtSeq, SeqT.translate_seq, hsame]
  split
  · rw [tcpContSeq_translate]
    rfl
  · cases before with
    | nil =>
        have hsearch := search_translate node after h
        simp only [List.map_nil, hsearch]
        exact translate_found _
    | cons head tail =>
        have hsearch := search_translate head (tail ++ node :: after) h
        rw [List.map_append, List.map_cons] at hsearch
        simp only [List.map_cons, hsearch]
        exact translate_found _

/-! ## One insertion -/

theorem SeqT.translate_trimFront (s : SeqT) (nxtSeq : UInt32) :
    (s.translate k).trimFront (nxtSeq + k - 1) = (s.trimFront (nxtSeq - 1)).translate k := by
  have hdelta : s.nxtSeq + k - 1 - (nxtSeq + k - 1) = s.nxtSeq - 1 - (nxtSeq - 1) := by grind
  have hseq : nxtSeq + k - 1 + 1 = nxtSeq - 1 + 1 + k := by grind
  simp only [trimFront, translate, hdelta, hseq]

theorem SeqT.translate_fitBefore (s aft : SeqT)
    (hback : s.nxtSeq + k ≤ aft.seq + k ↔ s.nxtSeq ≤ aft.seq) :
    (s.translate k).fitBefore (aft.translate k) = (s.fitBefore aft).translate k := by
  have hover : s.nxtSeq + k - (aft.seq + k) = s.nxtSeq - aft.seq := by grind
  unfold fitBefore
  simp only [translate_nxtSeq, translate_seq, hback]
  split
  · rfl
  · simp only [trimBack, translate, hover]

/-- The result with its list translated. -/
def OrderResult.translate (k : UInt32) (r : OrderResult) : OrderResult :=
  { r with list := r.list.translate k }

theorem linkSegment_translate (last : Cursor) (num fr : UInt32) (cp : Cursor)
    (hfr : fr + k ≤ newSeq.seq + k ↔ fr ≤ newSeq.seq) (hcp : AlikeUnder k newSeq cp.node)
    (hafter : ∀ n ∈ cp.after, AlikeUnder k newSeq n) :
    linkSegment (last.translate k) num (newSeq.translate k) (fr + k) (cp.translate k) =
      (linkSegment last num newSeq fr cp).translate k := by
  have hin : InRun (fr + k) (cp.node.nxtSeq + k - 1) (newSeq.translate k) ↔
      InRun fr (cp.node.nxtSeq - 1) newSeq := and_congr hfr hcp.behind
  unfold linkSegment
  simp only [Cursor.translate_node, SeqT.translate_nxtSeq, hin, hcp.within,
    SeqT.translate_trimFront, Cursor.translate_after]
  split
  · split
    · rfl
    · cases hrest : cp.after with
      | nil =>
          simp only [List.map_nil, OrderResult.translate, SeqList.translate,
            Cursor.translate_insert]
      | cons aft rest =>
          have hback := (hafter aft (by simp [hrest])).back
          have hfit := SeqT.translate_fitBefore (newSeq.trimFront (cp.node.nxtSeq - 1)) aft hback
          simp only [List.map_cons, OrderResult.translate, SeqList.translate, hfit,
            Cursor.translate_insert]
  · cases hrest : cp.after with
    | nil => simp [OrderResult.translate, SeqList.translate, Cursor.translate]
    | cons aft rest =>
        have hfit := SeqT.translate_fitBefore newSeq aft (hafter aft (by simp [hrest])).back
        simp only [List.map_cons, OrderResult.translate, SeqList.translate, hfit,
          Cursor.translate_insert]

theorem tcpOrderDir_translate (lst : SeqList) (num : UInt32)
    (h : ∀ n ∈ lst.nodes, AlikeUnder k newSeq n) :
    tcpOrderDir (lst.translate k) num (newSeq.translate k) =
      (tcpOrderDir lst num newSeq).translate k := by
  cases lst with
  | null => rfl
  | withLast last =>
      have hplace := placeOf_translate last h
      unfold tcpOrderDir
      simp only [SeqList.translate, hplace]
      cases hp : placeOf newSeq last with
      | atEnd =>
          simp only [Place.translate, OrderResult.translate, SeqList.translate,
            Cursor.translate_nodes]
          rfl
      | within fr cp =>
          have hnodes : ∀ n ∈ cp.nodes, AlikeUnder k newSeq n := by
            rw [placeOf_nodes hp]
            exact h
          have hfr : ∃ n ∈ last.nodes, fr = n.seq := by
            rcases placeOf_cases newSeq last with ⟨-, heq⟩ | ⟨heq, -⟩ | ⟨head, tail, hn, -, heq⟩ |
              ⟨before, pre, c, rest, hn, -, -, -, heq⟩ <;> rw [hp] at heq
            · exact ⟨last.node, by simp [Cursor.nodes], (Place.within.inj heq).1⟩
            · cases heq
            · exact ⟨head, by simp [hn], (Place.within.inj heq).1⟩
            · exact ⟨pre, by simp [hn], (Place.within.inj heq).1⟩
          obtain ⟨n, hn, rfl⟩ := hfr
          exact linkSegment_translate last num n.seq cp (h n hn).front
            (hnodes cp.node (by simp [Cursor.nodes]))
            fun m hm => hnodes m (by simp [Cursor.nodes, hm])

theorem tcpOrder_translate (ord : OrderT) (src : Bool)
    (h : ∀ n ∈ (ord.dir src).nodes, AlikeUnder k newSeq n) :
    tcpOrder (ord.translate k) (newSeq.translate k) src =
      ((tcpOrder ord newSeq src).1.translate k, (tcpOrder ord newSeq src).2) := by
  have hdir := tcpOrderDir_translate (ord.dir src) ord.num h
  unfold tcpOrder
  rw [OrderT.translate_dir, show (ord.translate k).num = ord.num from rfl, hdir]
  cases src <;> rfl

end Pieces

/-! ## Every sequence of insertions -/

/-- An order and the return values of the calls so far. -/
structure OrderLog where
  ord : OrderT
  rets : List Int
  deriving DecidableEq

namespace OrderLog

/-- A new order. -/
def start : OrderLog := ⟨OrderT.new, []⟩

/-- One call of `tcp_order`, for a segment and a direction. -/
def step (s : OrderLog) (i : SeqT × Bool) : OrderLog :=
  ⟨(tcpOrder s.ord i.1 i.2).1, s.rets ++ [(tcpOrder s.ord i.1 i.2).2]⟩

/-- The lists translated, and the return values as they are. -/
def translate (k : UInt32) (s : OrderLog) : OrderLog := { s with ord := s.ord.translate k }

/-- Adding `k` changes no comparison of the segment with a node of its list. -/
def ComparesAlike (k : UInt32) (s : OrderLog) (i : SeqT × Bool) : Prop :=
  ∀ n ∈ (s.ord.dir i.2).nodes, AlikeUnder k i.1 n

theorem step_translate {k : UInt32} {s : OrderLog} {i : SeqT × Bool} (h : s.ComparesAlike k i) :
    (s.translate k).step (i.1.translate k, i.2) = (s.step i).translate k := by
  have horder := tcpOrder_translate s.ord i.2 h
  simp only [step, translate, horder]

/-- Where no comparison changes, the translated segments make the translated lists. -/
theorem foldl_translate {k : UInt32} {s : OrderLog} {segs : List (SeqT × Bool)}
    (h : EveryStep (total step) (ComparesAlike k) s segs) :
    (segs.map fun i => (i.1.translate k, i.2)).foldl step (s.translate k) =
      (segs.foldl step s).translate k := by
  induction segs generalizing s with
  | nil => rfl
  | cons i segs ih =>
      obtain ⟨hi, hrest⟩ := everyStep_cons.mp h
      rw [List.map_cons, List.foldl_cons, List.foldl_cons, step_translate hi]
      exact ih (hrest (s.step i) rfl)

end OrderLog

/-! ## Windows that do not pass the end of the sequence space -/

/-- The sequence number is in the window. -/
def InWindow (lo hi : ℕ) (v : UInt32) : Prop := lo < v.toNat ∧ v.toNat ≤ hi

/-- Both ends of the segment are in the window. -/
def SeqT.InWindow (lo hi : ℕ) (s : SeqT) : Prop :=
  Sniffer.InWindow lo hi s.seq ∧ Sniffer.InWindow lo hi s.nxtSeq

/-- Adding `k` moves no number of the window over the end of the sequence space, or all. -/
def MovesTogether (lo hi : ℕ) (k : UInt32) : Prop :=
  hi + k.toNat < 2 ^ 32 ∨ 2 ^ 32 ≤ lo + k.toNat

section Window

variable {lo hi : ℕ} {k : UInt32}

theorem MovesTogether.add_le_add_iff (hk : MovesTogether lo hi k) {u v : UInt32}
    (hu : lo ≤ u.toNat ∧ u.toNat ≤ hi) (hv : lo ≤ v.toNat ∧ v.toNat ≤ hi) :
    u + k ≤ v + k ↔ u ≤ v := by
  have hu' : u.toNat < 2 ^ 32 := u.toNat_lt
  have hv' : v.toNat < 2 ^ 32 := v.toNat_lt
  have hk' : k.toNat < 2 ^ 32 := k.toNat_lt
  rw [UInt32.le_iff_toNat_le, UInt32.le_iff_toNat_le, UInt32.toNat_add, UInt32.toNat_add]
  rcases hk with hk | hk
  · rw [Nat.mod_eq_of_lt (by omega), Nat.mod_eq_of_lt (by omega)]
    omega
  · omega

theorem InWindow.sub_one {v : UInt32} (h : InWindow lo hi v) :
    lo ≤ (v - 1).toNat ∧ (v - 1).toNat ≤ hi := by
  rw [toNat_sub_one (Nat.zero_lt_of_lt h.1)]
  have hlo := h.1
  have hhi := h.2
  omega

theorem InWindow.le {v : UInt32} (h : InWindow lo hi v) : lo ≤ v.toNat ∧ v.toNat ≤ hi :=
  ⟨h.1.le, h.2⟩

theorem MovesTogether.alikeUnder (hk : MovesTogether lo hi k) {newSeq n : SeqT}
    (hnew : newSeq.InWindow lo hi) (hn : n.InWindow lo hi) : AlikeUnder k newSeq n := by
  have hpred : ∀ x : UInt32, x + k - 1 = x - 1 + k := fun x => by grind
  refine ⟨hk.add_le_add_iff hn.2.le hnew.1.le, hk.add_le_add_iff hn.1.le hnew.1.le, ?_, ?_,
    hk.add_le_add_iff hnew.2.le hn.1.le⟩
  · rw [hpred]
    exact hk.add_le_add_iff hnew.1.le hn.2.sub_one
  · rw [hpred, hpred]
    exact hk.add_le_add_iff hnew.2.sub_one hn.2.sub_one

theorem SeqT.InWindow.fitBefore {s aft : SeqT} (hs : s.InWindow lo hi) (haft : aft.InWindow lo hi) :
    (s.fitBefore aft).InWindow lo hi := by
  unfold SeqT.fitBefore
  split
  · exact hs
  · exact ⟨hs.1, haft.1⟩

/-- The trims leave a segment in the window of the listed nodes. -/
theorem fitted_inWindow {newSeq : SeqT} {fr : UInt32} {cp : Cursor}
    (hnew : newSeq.InWindow lo hi) (hcp : ∀ n ∈ cp.nodes, n.InWindow lo hi) :
    (fitted newSeq fr cp).InWindow lo hi := by
  have hnode : cp.node.InWindow lo hi := hcp cp.node (by simp [Cursor.nodes])
  have hfront : (if InRun fr (cp.node.nxtSeq - 1) newSeq then newSeq.trimFront (cp.node.nxtSeq - 1)
      else newSeq).InWindow lo hi := by
    split
    · refine ⟨?_, hnew.2⟩
      show Sniffer.InWindow lo hi (cp.node.nxtSeq - 1 + 1)
      rw [UInt32.sub_add_cancel]
      exact hnode.2
    · exact hnew
  unfold fitted
  cases hafter : cp.after with
  | nil => exact hfront
  | cons aft rest =>
      have haft : aft.InWindow lo hi := hcp aft (by simp [Cursor.nodes, hafter])
      exact hfront.fitBefore haft

theorem tcpOrderDir_inWindow {lst : SeqList} {num : UInt32} {newSeq : SeqT}
    (hnew : newSeq.InWindow lo hi) (hlst : ∀ n ∈ lst.nodes, n.InWindow lo hi) :
    ∀ n ∈ (tcpOrderDir lst num newSeq).list.nodes, n.InWindow lo hi := by
  rcases tcpOrderDir_cases lst num newSeq with ⟨_, _, _, -, -, -, hres⟩ | ⟨-, hres, -⟩ |
    ⟨last, fr, cp, rfl, hp, -, hnodes, hres, -⟩
  · rw [hres]
    exact hlst
  · rw [hres]
    intro n hn
    rcases List.mem_append.mp hn with hn | hn
    · exact hlst n hn
    · exact List.mem_singleton.mp hn ▸ hnew
  · rw [hres]
    rw [hnodes] at hlst
    intro n hn
    simp only [List.mem_append, List.mem_cons] at hn
    rcases hn with hn | rfl | rfl | hn
    · exact hlst n (by simp [hn])
    · exact hlst _ (by simp)
    · exact fitted_inWindow hnew hlst
    · exact hlst n (by simp [hn])

/-- All listed nodes are in the window. -/
def OrderLog.Within (lo hi : ℕ) (s : OrderLog) : Prop :=
  ∀ dir, ∀ n ∈ (s.ord.dir dir).nodes, n.InWindow lo hi

/-- Segments in a window that moves together compare alike at every step. -/
theorem MovesTogether.comparesAlike (hk : MovesTogether lo hi k) {segs : List (SeqT × Bool)}
    (hsegs : ∀ i ∈ segs, i.1.InWindow lo hi) :
    EveryStep (total OrderLog.step) (OrderLog.ComparesAlike k) .start segs := by
  have hstart : OrderLog.start.Within lo hi := by
    intro dir n hn
    cases dir <;> exact absurd hn List.not_mem_nil
  refine everyStep_of_inv (fun (s : OrderLog) i (hs : s.Within lo hi) hi n hn => ?_) ?_ hstart hsegs
  · exact hk.alikeUnder hi (hs i.2 n hn)
  · intro s i s' hs hi hstep dir n hn
    obtain rfl := Option.some.inj hstep
    have hdir := tcpOrder_dir s.ord i.1 i.2 dir
    rw [show (s.step i).ord = (tcpOrder s.ord i.1 i.2).1 from rfl, hdir] at hn
    split at hn
    · exact tcpOrderDir_inWindow hi (hs i.2) n hn
    · exact hs dir n hn

end Window

/-- **`tcp_order` is invariant under translation where no comparison changes.**  If at every
insertion adding `k` changes no comparison of the segment with a listed node, then the
translated segments make the translated lists, with the same trims and return values.
Segments in a window that adding `k` does not move over the end of the sequence space, or
moves over it as a whole, are such a case. -/
theorem tcpOrder_translates (k : UInt32) (segs : List (SeqT × Bool)) :
    (EveryStep (total OrderLog.step) (OrderLog.ComparesAlike k) .start segs →
      (segs.map fun i => (i.1.translate k, i.2)).foldl OrderLog.step .start =
        (segs.foldl OrderLog.step .start).translate k) ∧
    ∀ lo hi, MovesTogether lo hi k → (∀ i ∈ segs, i.1.InWindow lo hi) →
      EveryStep (total OrderLog.step) (OrderLog.ComparesAlike k) .start segs :=
  ⟨fun h => OrderLog.foldl_translate h, fun _ _ hk hsegs => hk.comparesAlike hsegs⟩

/-- Three segments out of order, with 7 added to all sequence numbers. -/
theorem tcpOrder_translates_seven :
    ([(bareSeq 107 207, true), (bareSeq 407 507, true), (bareSeq 307 407, true)].foldl
        OrderLog.step .start) =
      ([(bareSeq 100 200, true), (bareSeq 400 500, true), (bareSeq 300 400, true)].foldl
        OrderLog.step .start).translate 7 :=
  (tcpOrder_translates 7
      [(bareSeq 100 200, true), (bareSeq 400 500, true), (bareSeq 300 400, true)]).1
    ((tcpOrder_translates 7 _).2 50 600 (.inl (by decide)) (by
      simp [SeqT.InWindow, InWindow, bareSeq]))

/-- The same segments, moved so that 350 becomes 0: the last one, which begins before the end
of the sequence space, is listed behind the one that begins after it. -/
theorem tcpOrder_wrap_reorders :
    ¬ ∀ (k base : UInt32) (segs : List (SeqT × Bool)),
      (∀ i ∈ segs, (i.1.seq - base).toNat < (i.1.nxtSeq - base).toNat ∧
        (i.1.nxtSeq - base).toNat < 2 ^ 31) →
      (segs.map fun i => (i.1.translate k, i.2)).foldl OrderLog.step .start =
        (segs.foldl OrderLog.step .start).translate k := by
  intro h
  have hmoved := h 4294966946 100
    [(bareSeq 100 200, true), (bareSeq 400 500, true), (bareSeq 300 400, true)] (by decide)
  exact absurd hmoved (by decide)

end MonitoringTool.Sniffer
