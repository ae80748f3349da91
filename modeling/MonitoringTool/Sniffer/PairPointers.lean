import MonitoringTool.Lib.SinglyLinked
import MonitoringTool.Sniffer.ExtractData

/-!
# The pair chain as it lies in memory

A flow holds its pairs by two pointers: `pair_f`, which `extractData` moves forward while it
deletes pairs, and `pair_e`, through which `Flow::add_pair` appends and which nobody else touches.
Here the pairs lie in a memory of nodes, and a null pointer or a pair that was deleted cannot be
followed.

`PairChain.Holds` is what `add_pair` relies on.  `addPair` and the walk of `extractData` keep it,
and on what the chain holds they are the append and the `dataLoop` of the lists used elsewhere.
-/

namespace MonitoringTool.Sniffer

open Lib

/-- `pair_f` and `pair_e` of a flow, with the memory of the `Pair`s. -/
structure PairChain where
  pairF : Option ℕ
  pairE : Option ℕ
  mem : NodeMemory Pair

namespace PairChain

/-! ## The code -/

/-- `new Pair()`, at the address `a`. -/
def newPair (c : PairChain) (a : ℕ) (pair : Pair) : Option PairChain :=
  (c.mem.alloc a pair none).map fun mem => { c with mem := mem }

/-- A store in the pair at `a`. -/
def store (c : PairChain) (a : ℕ) (f : Pair → Pair) : Option PairChain :=
  (c.mem.modifyVal a f).map fun mem => { c with mem := mem }

/-- `Flow::add_pair(h)`. -/
def addPair (c : PairChain) (h : ℕ) : Option PairChain := do
  let c ← match c.pairF with
    | none => some { c with pairF := some h }
    | some _ => do
        let e ← c.pairE
        let mem ← c.mem.setNext e (some h)
        some { c with mem := mem }
  let mem ← c.mem.setNext h none
  return { c with pairE := some h, mem := mem }

/-- The pair at `a` is left as `visit` says, or `pair_f` is moved behind it and it is deleted. -/
def visitAt (c : PairChain) (a : ℕ) (n : ListNode Pair) : Option PairChain :=
  match (n.val.visit n.next.isSome).1 with
  | some pair => c.store a fun _ => pair
  | none => (c.mem.free a).map fun mem => { c with pairF := n.next, mem := mem }

/-- The walk of `extractData` from the pointer `pair` on, with its notifications; `none` also when
it has not ended after `fuel` pairs. -/
def dataWalk : (fuel : ℕ) → (pair : Option ℕ) → PairChain → Option (PairChain × List Notification)
  | _, none, c => some (c, [])
  | 0, some _, _ => none
  | fuel + 1, some a, c =>
      (c.mem a).bind fun n =>
        (c.visitAt a n).bind fun c =>
          (dataWalk fuel n.next c).map fun r => (r.1, (n.val.visit n.next.isSome).2 ++ r.2)

/-! ## The invariant -/

/-- The pairs of `l` are what is reachable from `pair_f`, none of them deleted, and `pair_e` is
the last of them. -/
structure Holds (c : PairChain) (l : List (ℕ × Pair)) : Prop where
  nodes : ListSeg c.mem c.pairF l none
  last : ∀ a ∈ (addrs l).getLast?, c.pairE = some a

variable {c c' : PairChain} {l : List (ℕ × Pair)} {a h : ℕ} {pair : Pair}

/-- A chain that holds no pair. -/
theorem holds_nil (e : Option ℕ) (mem : NodeMemory Pair) : Holds ⟨none, e, mem⟩ [] :=
  ⟨rfl, by simp⟩

/-- A new pair is not in the chain. -/
theorem Holds.newPair (hl : c.Holds l) (hnew : c.newPair a pair = some c') :
    c'.Holds l ∧ c'.mem a = some ⟨pair, none⟩ ∧ a ∉ addrs l := by
  obtain ⟨mem, halloc, rfl⟩ := Option.map_eq_some_iff.mp hnew
  obtain ⟨hfree, rfl⟩ := NodeMemory.alloc_eq_some.mp halloc
  have hout : a ∉ addrs l := by
    intro hmem
    have hsome := hl.nodes.isSome hmem
    rw [hfree] at hsome
    cases hsome
  refine ⟨⟨?_, hl.last⟩, Function.update_self _ _ _, hout⟩
  apply hl.nodes.congr
  intro b hb
  have hne : b ≠ a := by
    rintro rfl
    exact hout hb
  exact Function.update_of_ne hne _ _

/-- A pair of the chain can be stored in, which leaves the pointers alone. -/
theorem Holds.store {i : ℕ} (hl : c.Holds l) (hi : (addrs l)[i]? = some a) (f : Pair → Pair) :
    ∃ c' l', c.store a f = some c' ∧ c'.Holds l' ∧ addrs l' = addrs l ∧
      l'.map Prod.snd = (l.map Prod.snd).modify i f := by
  obtain ⟨mem, l', hm, hnodes, haddrs, hvals⟩ := hl.nodes.modifyVal hi f
  exact ⟨_, l', Option.map_eq_some_iff.mpr ⟨mem, hm, rfl⟩,
    ⟨hnodes, by rw [haddrs]; exact hl.last⟩, haddrs, hvals⟩

/-- **`add_pair`** appends the new pair. -/
theorem Holds.addPair {r : Option ℕ} (hl : c.Holds l) (hh : c.mem h = some ⟨pair, r⟩)
    (hout : h ∉ addrs l) :
    ∃ c', c.addPair h = some c' ∧ c'.Holds (l ++ [(h, pair)]) := by
  rcases List.eq_nil_or_concat' l with rfl | ⟨xs, ⟨e, p⟩, rfl⟩
  · have hf : c.pairF = none := hl.nodes
    refine ⟨⟨some h, some h, Function.update c.mem h (some ⟨pair, none⟩)⟩, ?_, ?_, by simp⟩
    · simp [PairChain.addPair, hf, NodeMemory.setNext_of_eq hh]
    · exact ⟨rfl, none, Function.update_self _ _ _, rfl⟩
  · have hf : c.pairF = some (((xs.head?.map Prod.fst).or (some e)).getD e) := by
      rw [hl.nodes.first]
      cases xs <;> rfl
    have he : c.pairE = some e := hl.last e (by simp)
    have hnode : c.mem e = some ⟨p, none⟩ := hl.nodes.node
    have hne : h ≠ e := by
      rintro rfl
      exact hout (by simp)
    have hh' : Function.update c.mem e (some ⟨p, some h⟩) h = some ⟨pair, r⟩ := by
      rw [Function.update_of_ne hne]
      exact hh
    refine ⟨⟨c.pairF, some h, Function.update (Function.update c.mem e (some ⟨p, some h⟩)) h
      (some ⟨pair, none⟩)⟩, ?_, ?_, by simp⟩
    · simp [PairChain.addPair, hf, he, NodeMemory.setNext_of_eq hnode,
        NodeMemory.setNext_of_eq hh']
    · dsimp only
      rw [List.append_assoc]
      apply hl.nodes.insertAfter hout
      · rw [Function.update_of_ne hne.symm]
        exact Function.update_self _ _ _
      · exact Function.update_self _ _ _
      · intro b hbe hbh
        rw [Function.update_of_ne hbh, Function.update_of_ne hbe]

/-- What `extractPair` does with a new pair. -/
theorem Holds.append {c₁ c₂ : PairChain} (hl : c.Holds l) (hnew : c.newPair a pair = some c₁)
    (hadd : c₁.addPair a = some c₂) : c₂.Holds (l ++ [(a, pair)]) := by
  obtain ⟨hl₁, hnode, hout⟩ := hl.newPair hnew
  obtain ⟨c', hc', hl'⟩ := hl₁.addPair hnode hout
  obtain rfl := Option.some.inj (hadd.symm.trans hc')
  exact hl'

/-- A pair that is not in use can be appended. -/
theorem Holds.append_defined (hl : c.Holds l) (ha : c.mem a = none) (pair : Pair) :
    ∃ c', ((c.newPair a pair).bind fun c => c.addPair a) = some c' ∧
      c'.Holds (l ++ [(a, pair)]) := by
  have hnew : c.newPair a pair =
      some { c with mem := Function.update c.mem a (some ⟨pair, none⟩) } := by
    rw [PairChain.newPair, NodeMemory.alloc_eq_some.mpr ⟨ha, rfl⟩]
    rfl
  obtain ⟨hl₁, hnode, hout⟩ := hl.newPair hnew
  obtain ⟨c', hc', hl'⟩ := hl₁.addPair hnode hout
  exact ⟨c', by rw [hnew, Option.bind_some, hc'], hl'⟩

/-- Addresses that `new` can answer one after the other. -/
def Unused (c : PairChain) (news : List ℕ) : Prop := news.Nodup ∧ ∀ b ∈ news, c.mem b = none

theorem Unused.store {news : List ℕ} {f : Pair → Pair} (h : c.Unused news)
    (hstore : c.store a f = some c') : c'.Unused news := by
  obtain ⟨mem, hm, rfl⟩ := Option.map_eq_some_iff.mp hstore
  exact ⟨h.1, fun b hb => NodeMemory.modifyVal_unused hm (h.2 b hb)⟩

theorem Unused.newPair {news : List ℕ} (h : c.Unused (a :: news))
    (hnew : c.newPair a pair = some c') : c'.Unused news := by
  obtain ⟨mem, hm, rfl⟩ := Option.map_eq_some_iff.mp hnew
  obtain ⟨-, rfl⟩ := NodeMemory.alloc_eq_some.mp hm
  obtain ⟨hout, hnodup⟩ := List.nodup_cons.mp h.1
  refine ⟨hnodup, fun b hb => ?_⟩
  have hne : b ≠ a := by
    rintro rfl
    exact hout hb
  dsimp only
  rw [Function.update_of_ne hne]
  exact h.2 b (List.mem_cons_of_mem a hb)

theorem Unused.addPair {news : List ℕ} (h : c.Unused news) (hadd : c.addPair a = some c') :
    c'.Unused news := by
  unfold PairChain.addPair at hadd
  cases hf : c.pairF with
  | none =>
      simp only [hf, Option.bind_eq_bind, Option.bind_some] at hadd
      obtain ⟨mem, hm, hadd⟩ := Option.bind_eq_some_iff.mp hadd
      obtain rfl := Option.some.inj hadd
      exact ⟨h.1, fun b hb => NodeMemory.setNext_unused hm (h.2 b hb)⟩
  | some first =>
      simp only [hf, Option.bind_eq_bind] at hadd
      obtain ⟨e, -, hadd⟩ := Option.bind_eq_some_iff.mp hadd
      obtain ⟨mem', hm', hadd⟩ := Option.bind_eq_some_iff.mp hadd
      rw [Option.bind_some] at hadd
      obtain ⟨mem, hm, hadd⟩ := Option.bind_eq_some_iff.mp hadd
      obtain rfl := Option.some.inj hadd
      have hkeep := fun b hb => NodeMemory.setNext_unused hm' (h.2 b hb)
      exact ⟨h.1, fun b hb => NodeMemory.setNext_unused hm (hkeep b hb)⟩

/-! ## The walk of `extractData` -/

/-- The last pair is never deleted. -/
theorem visit_last (pair : Pair) : (pair.visit false).1 ≠ none := by
  by_cases hdone : pair.answeredBefore = true
  · rw [(Pair.visit_stays fun _ => rfl).1]
    exact Option.some_ne_none _
  · rw [(Pair.visit_stays fun h => absurd h hdone).1]
    exact Option.some_ne_none _

/-- More fuel changes nothing. -/
theorem dataWalk_mono {fuel : ℕ} {p : Option ℕ} {r : PairChain × List Notification}
    (hwalk : dataWalk fuel p c = some r) (k : ℕ) : dataWalk (fuel + k) p c = some r := by
  induction fuel generalizing p c r with
  | zero =>
      cases p with
      | none => cases k <;> exact hwalk
      | some a => cases hwalk
  | succ fuel ih =>
      cases p with
      | none => cases hwalk; cases k <;> rfl
      | some a =>
          obtain ⟨n, hn, hwalk⟩ := Option.bind_eq_some_iff.mp hwalk
          obtain ⟨c₁, hc₁, hwalk⟩ := Option.bind_eq_some_iff.mp hwalk
          obtain ⟨r₁, hr₁, rfl⟩ := Option.map_eq_some_iff.mp hwalk
          rw [Nat.succ_add, dataWalk, hn, Option.bind_some, hc₁, Option.bind_some, ih hr₁]
          rfl

/-- One pair of the walk: it stays, changed, or it is deleted with all pairs before it. -/
theorem Holds.visitAt {passed rest : List (ℕ × Pair)} {p : Pair}
    (hl : c.Holds (passed ++ (a, p) :: rest)) :
    ∃ c', c.visitAt a ⟨p, firstOf rest none⟩ = some c' ∧
      match (p.visit (!rest.isEmpty)).1 with
      | some q => c'.Holds (passed ++ (a, q) :: rest)
      | none => c'.Holds rest := by
  have hnode : c.mem a = some ⟨p, firstOf rest none⟩ := hl.nodes.node
  have hnext : (firstOf rest none).isSome = !rest.isEmpty := by cases rest <;> rfl
  unfold PairChain.visitAt
  rw [hnext]
  cases hv : (p.visit (!rest.isEmpty)).1 with
  | some q =>
      refine ⟨{ c with mem := Function.update c.mem a (some ⟨q, firstOf rest none⟩) }, ?_, ?_, ?_⟩
      · simp [PairChain.store, NodeMemory.modifyVal_of_eq hnode]
      · apply hl.nodes.setVal (Function.update_self _ _ _)
        intro b hb
        exact Function.update_of_ne hb _ _
      · simpa using hl.last
  | none =>
      have hrest : rest ≠ [] := by
        rintro rfl
        exact visit_last p hv
      refine ⟨{ c with pairF := firstOf rest none, mem := Function.update c.mem a none }, ?_, ?_,
        ?_⟩
      · simp [NodeMemory.free_of_eq hnode]
      · have hapart := hl.nodes.apart
        obtain ⟨-, -, r, hr, hnodes⟩ := listSeg_append.mp hl.nodes
        rw [hnodes.first] at hnodes
        apply hnodes.congr
        intro b hb
        have hne : b ≠ a := by
          rintro rfl
          exact hapart (by simp only [addrs, List.map_append, List.mem_append]; exact .inr hb)
        exact Function.update_of_ne hne _ _
      · intro b hb
        apply hl.last
        obtain ⟨x, xs, rfl⟩ := List.exists_cons_of_ne_nil hrest
        simpa using hb

/-- **The walk of `extractData`** ends, keeps the invariant, and does to the pairs what
`dataLoop` does. -/
theorem Holds.dataWalk {passed rest : List (ℕ × Pair)} {fuel : ℕ} (hl : c.Holds (passed ++ rest))
    (hfuel : rest.length ≤ fuel) :
    ∃ c' l', PairChain.dataWalk fuel (firstOf rest none) c =
        some (c', (dataLoop (passed.map Prod.snd) (rest.map Prod.snd)).2) ∧
      c'.Holds l' ∧ l'.map Prod.snd = (dataLoop (passed.map Prod.snd) (rest.map Prod.snd)).1 := by
  induction rest generalizing passed c fuel with
  | nil =>
      refine ⟨c, passed, ?_, by simpa using hl, rfl⟩
      cases fuel <;> rfl
  | cons x rest ih =>
      obtain ⟨a, p⟩ := x
      obtain ⟨fuel, rfl⟩ : ∃ k, fuel = k + 1 := by
        simp only [List.length_cons] at hfuel
        exact ⟨fuel - 1, by omega⟩
      have hnode : c.mem a = some ⟨p, firstOf rest none⟩ := hl.nodes.node
      have hnext : (firstOf rest none).isSome = !rest.isEmpty := by cases rest <;> rfl
      have hempty : (rest.map Prod.snd).isEmpty = rest.isEmpty := by cases rest <;> rfl
      obtain ⟨c₁, hc₁, hkeep⟩ := hl.visitAt
      have hlen : rest.length ≤ fuel := by simpa using hfuel
      rw [firstOf_cons, PairChain.dataWalk, hnode, Option.bind_some, hc₁, Option.bind_some,
        List.map_cons, dataLoop, hempty, hnext]
      cases hv : (p.visit (!rest.isEmpty)).1 with
      | some q =>
          rw [hv] at hkeep
          obtain ⟨c', l', hwalk, hl', hvals⟩ :=
            @ih c₁ (passed ++ [(a, q)]) fuel (by simpa using hkeep) hlen
          refine ⟨c', l', ?_, hl', ?_⟩
          · simp [hwalk]
          · simpa using hvals
      | none =>
          rw [hv] at hkeep
          obtain ⟨c', l', hwalk, hl', hvals⟩ := @ih c₁ [] fuel hkeep hlen
          refine ⟨c', l', ?_, hl', ?_⟩
          · simp [hwalk]
          · simpa using hvals

end PairChain

end MonitoringTool.Sniffer
