import MonitoringTool.Lib.Run
import MonitoringTool.Lib.SinglyLinked
import Mathlib.Algebra.GroupWithZero.Nat

/-!
# `Queue`

The stages of the sniffer hand their work on through a `Queue`: nodes linked from `first` to
`last`, with their number in `qlen`.  Each of its functions works under the mutex of the queue,
so that the calls of all threads are one sequence of steps.

`Queue.Holds` is the invariant of the three fields and the nodes, `Fifo` says what a queue is
for, and `queue_refines_fifo` that the code does it as long as `qlen`, an `int`, can count the
elements.
-/

namespace MonitoringTool.Sniffer

open Lib

variable {α : Type}

/-! ## The code -/

/-- `Queue`, with the memory of the `Qnode`s; an element is a `void*`, and `NULL` is `none`. -/
structure Queue (α : Type) where
  first : Option ℕ
  last : Option ℕ
  qlen : Int32
  mem : NodeMemory (Option α)

namespace Queue

/-- `Queue::Queue`. -/
def new (mem : NodeMemory (Option α)) : Queue α := ⟨none, none, 0, mem⟩

/-- `Queue::enq`, where `new Qnode(elem)` is at the address `node`. -/
def enq (q : Queue α) (node : ℕ) (elem : Option α) : Option (Queue α) := do
  let mem ← q.mem.alloc node elem none
  if q.qlen = 0 then
    return { first := some node, last := some node, qlen := q.qlen + 1, mem := mem }
  else
    let last ← q.last
    let mem ← mem.setNext last (some node)
    return { q with last := some node, qlen := q.qlen + 1, mem := mem }

/-- `Queue::deq`: the queue and what is returned.  The node stays allocated. -/
def deq (q : Queue α) : Option (Queue α × Option α) :=
  if q.qlen = 0 then some (q, none)
  else
    let last := if q.qlen = 1 then none else q.last
    match q.first with
    | none => some ({ q with last := last }, none)
    | some node =>
        (q.mem node).map fun n =>
          ({ q with first := n.next, last := last, qlen := q.qlen - 1 }, n.val)

/-- The loop of `Queue::clear` with `qlen` nodes to go: the memory and the elements deleted. -/
def clearFrom : ℕ → Option ℕ → NodeMemory (Option α) →
    Option (NodeMemory (Option α) × List (Option α))
  | 0, _, mem => some (mem, [])
  | qlen + 1, first, mem => do
      let node ← first
      let n ← mem node
      let mem ← mem.free node
      let (mem, deleted) ← clearFrom qlen n.next mem
      return (mem, n.val :: deleted)

/-- `Queue::clear`: the queue and the elements deleted. -/
def clear (q : Queue α) : Option (Queue α × List (Option α)) :=
  (clearFrom q.qlen.toInt.toNat q.first q.mem).map fun (mem, deleted) =>
    ({ first := none, last := none, qlen := 0, mem := mem }, deleted)

/-- `Queue::len`. -/
def len (q : Queue α) : Int32 := q.qlen

/-! ## One call -/

/-- The queue holds the nodes of `l`: they are what is reachable from `first`, `last` is the final
one of them, and `qlen` is their number. -/
structure Holds (q : Queue α) (l : List (ℕ × Option α)) : Prop where
  nodes : ListSeg q.mem q.first l none
  last : q.last = l.getLast?.map Prod.fst
  qlen : q.len.toInt = l.length

theorem holds_new (mem : NodeMemory (Option α)) : (new mem).Holds [] := ⟨rfl, rfl, rfl⟩

variable {q : Queue α} {l : List (ℕ × Option α)} {node : ℕ} {elem : Option α}

theorem Holds.qlen_eq (h : q.Holds l) : q.qlen = Int32.ofNat l.length ∧ l.length < 2 ^ 31 := by
  have hlen : q.qlen.toInt = l.length := h.qlen
  have hlt : l.length < 2 ^ 31 := by
    have hmax := Int32.toInt_lt q.qlen
    omega
  refine ⟨?_, hlt⟩
  rw [← Int32.toInt_inj, hlen, Int32.toInt_ofNat_of_lt hlt]

/-- The tests of `qlen` are about the number of nodes. -/
theorem Holds.qlen_eq_iff (h : q.Holds l) {k : ℕ} (hk : k < 2 ^ 31) :
    q.qlen = Int32.ofNat k ↔ l.length = k := by
  obtain ⟨hqlen, hlt⟩ := h.qlen_eq
  rw [hqlen, ← Int32.toInt_inj, Int32.toInt_ofNat_of_lt hlt, Int32.toInt_ofNat_of_lt hk]
  omega

theorem enq_of_zero (hnode : q.mem node = none) (hq : q.qlen = 0) :
    q.enq node elem = some
      { first := some node, last := some node, qlen := q.qlen + 1,
        mem := Function.update q.mem node (some ⟨elem, none⟩) } := by
  unfold enq
  rw [NodeMemory.alloc_eq_some.mpr ⟨hnode, rfl⟩]
  exact if_pos hq

theorem enq_of_last {a : ℕ} {v : Option α} {r : Option ℕ} (hnode : q.mem node = none)
    (hq : ¬ q.qlen = 0) (hlast : q.last = some a) (ha : q.mem a = some ⟨v, r⟩) :
    q.enq node elem = some
      { q with
        last := some node
        qlen := q.qlen + 1
        mem := Function.update (Function.update q.mem node (some ⟨elem, none⟩)) a
          (some ⟨v, some node⟩) } := by
  have hne : a ≠ node := by
    rintro rfl
    rw [hnode] at ha
    cases ha
  have ha' : Function.update q.mem node (some ⟨elem, none⟩) a = some ⟨v, r⟩ := by
    rw [Function.update_of_ne hne]
    exact ha
  unfold enq
  rw [NodeMemory.alloc_eq_some.mpr ⟨hnode, rfl⟩, hlast]
  dsimp only [Option.bind_eq_bind, Option.bind_some]
  rw [if_neg hq, NodeMemory.setNext_of_eq ha']
  rfl

/-- `enq` puts the new node behind the others, if `qlen` can count it. -/
theorem Holds.enq (h : q.Holds l) (elem : Option α) (hnode : q.mem node = none)
    (hroom : l.length + 1 < 2 ^ 31) :
    ∃ q', q.enq node elem = some q' ∧ q'.Holds (l ++ [(node, elem)]) := by
  have hqlen : (q.qlen + 1).toInt = (l ++ [(node, elem)]).length := by
    rw [h.qlen_eq.1, List.length_append, List.length_singleton]
    exact (congrArg Int32.toInt (Int32.ofNat_add l.length 1)).symm.trans
      (Int32.toInt_ofNat_of_lt hroom)
  have hzero : q.qlen = 0 ↔ l.length = 0 := h.qlen_eq_iff (by decide)
  rcases List.eq_nil_or_concat' l with rfl | ⟨xs, ⟨a, v⟩, rfl⟩
  · refine ⟨_, enq_of_zero hnode (hzero.mpr rfl), ⟨?_, rfl, hqlen⟩⟩
    exact ⟨rfl, none, Function.update_self _ _ _, rfl⟩
  · have ha : q.mem a = some ⟨v, none⟩ := h.nodes.node
    have hlast : q.last = some a := by simpa using h.last
    have hne : a ≠ node := by
      rintro rfl
      rw [hnode] at ha
      cases ha
    refine ⟨_, enq_of_last hnode (by simp [hzero]) hlast ha, ⟨?_, by simp, hqlen⟩⟩
    dsimp only
    rw [List.append_assoc]
    apply h.nodes.insertAfter
    · intro hmem
      have hsome := h.nodes.isSome hmem
      rw [hnode] at hsome
      cases hsome
    · exact Function.update_self _ _ _
    · rw [Function.update_of_ne hne.symm]
      exact Function.update_self _ _ _
    · intro b hba hbn
      rw [Function.update_of_ne hba, Function.update_of_ne hbn]

/-- An empty queue has nothing to return. -/
theorem Holds.deq_nil (h : q.Holds []) : q.deq = some (q, none) := by
  have hq : q.qlen = 0 := (h.qlen_eq_iff (k := 0) (by decide)).mpr rfl
  rw [Queue.deq, if_pos hq]

/-- `deq` takes the first node off and returns its element. -/
theorem Holds.deq (h : q.Holds ((node, elem) :: l)) :
    ∃ q', q.deq = some (q', elem) ∧ q'.Holds l := by
  obtain ⟨hfirst, r, hnode, hrest⟩ := h.nodes
  have hq : ¬ q.qlen = 0 := by
    have hzero : q.qlen = 0 ↔ _ := h.qlen_eq_iff (by decide)
    simp [hzero]
  have hone : q.qlen = 1 ↔ ((node, elem) :: l).length = 1 := h.qlen_eq_iff (by decide)
  have hqlen : (q.qlen - 1).toInt = l.length := by
    obtain ⟨heq, hlt⟩ := h.qlen_eq
    rw [List.length_cons] at heq hlt
    have hsub : Int32.ofNat (l.length + 1) - 1 = Int32.ofNat l.length := by
      rw [Int32.ofNat_add]
      exact Int32.add_sub_cancel _ _
    rw [heq, hsub, Int32.toInt_ofNat_of_lt (by omega)]
  refine ⟨{ q with first := r, last := if q.qlen = 1 then none else q.last, qlen := q.qlen - 1 },
    by simp [Queue.deq, hq, hfirst, hnode], ⟨hrest, ?_, hqlen⟩⟩
  cases l with
  | nil => simp [hone]
  | cons x xs => simp [hone, h.last]

theorem clearFrom_eq {mem : NodeMemory (Option α)} {first : Option ℕ}
    (h : ListSeg mem first l none) :
    ∃ mem', clearFrom l.length first mem = some (mem', l.map Prod.snd) := by
  induction l generalizing mem first with
  | nil => exact ⟨mem, rfl⟩
  | cons x xs ih =>
      obtain ⟨a, v⟩ := x
      have hapart : a ∉ addrs xs := (List.nodup_cons.mp h.nodup).1
      obtain ⟨rfl, r, ha, hrest⟩ := h
      have hfree := NodeMemory.free_of_eq ha
      have hrest' : ListSeg (Function.update mem a none) r xs none := by
        apply hrest.congr
        intro b hb
        have hne : b ≠ a := by
          rintro rfl
          exact hapart hb
        exact Function.update_of_ne hne _ _
      obtain ⟨mem', hloop⟩ := ih hrest'
      exact ⟨mem', by simp [clearFrom, ha, hfree, hloop]⟩

/-- `clear` deletes all elements, from the first to the last. -/
theorem Holds.clear (h : q.Holds l) :
    ∃ mem', q.clear = some (new mem', l.map Prod.snd) := by
  have hcount : q.qlen.toInt.toNat = l.length := by
    have hqlen : q.qlen.toInt = l.length := h.qlen
    omega
  obtain ⟨mem', hloop⟩ := clearFrom_eq h.nodes
  exact ⟨mem', by rw [Queue.clear, hcount, hloop]; rfl⟩

end Queue

/-! ## Calls from many threads -/

/-- A call of one of the functions. -/
inductive QueueCall (α : Type) where
  | enq (node : ℕ) (elem : Option α) : QueueCall α
  | deq : QueueCall α
  | clear : QueueCall α
  deriving DecidableEq

/-- A call with the thread that makes it. -/
structure ThreadCall (α : Type) where
  thread : ℕ
  call : QueueCall α
  deriving DecidableEq

/-- Where an element goes: `deq` returns it to a thread, or `clear` deletes it. -/
inductive Outcome (α : Type) where
  | dequeued (thread : ℕ) (elem : Option α) : Outcome α
  | deleted (elem : Option α) : Outcome α
  deriving DecidableEq

/-- A queue with what it has given away so far. -/
structure QueueRun (α : Type) where
  queue : Queue α
  out : List (Outcome α)

/-- One call, under the mutex. -/
def queueStep (s : QueueRun α) (c : ThreadCall α) : Option (QueueRun α) :=
  match c.call with
  | .enq node elem => (s.queue.enq node elem).map fun q => { s with queue := q }
  | .deq =>
      s.queue.deq.map fun (q, elem) => ⟨q, s.out ++ [.dequeued c.thread elem]⟩
  | .clear => s.queue.clear.map fun (q, elems) => ⟨q, s.out ++ elems.map .deleted⟩

/-- The node that `new` returns is not in use. -/
def NewNode (s : QueueRun α) (c : ThreadCall α) : Prop :=
  match c.call with
  | .enq node _ => s.queue.mem node = none
  | _ => True

instance (s : QueueRun α) (c : ThreadCall α) : Decidable (NewNode s c) := by
  unfold NewNode
  cases c.call <;> infer_instance

/-- No `NULL` is put into the queue. -/
def ThreadCall.NonNull (c : ThreadCall α) : Prop :=
  match c.call with
  | .enq _ elem => elem.isSome
  | _ => True

instance (c : ThreadCall α) : Decidable c.NonNull := by
  unfold ThreadCall.NonNull
  cases c.call <;> infer_instance

/-! ## First in, first out -/

/-- What a queue is for: its elements, in the order in which they came. -/
structure Fifo (α : Type) where
  content : List α
  out : List (Outcome α)
  deriving DecidableEq

/-- The element that a call puts into the queue. -/
def ThreadCall.entered (c : ThreadCall α) : Option α :=
  match c.call with
  | .enq _ elem => elem
  | _ => none

/-- The element that leaves. -/
def Outcome.elem : Outcome α → Option α
  | .dequeued _ elem => elem
  | .deleted elem => elem

/-- One call: `enq` adds behind the others, `deq` takes the first one, and `NULL` if there is none,
and `clear` deletes all. -/
def Fifo.step (f : Fifo α) (c : ThreadCall α) : Fifo α :=
  match c.call with
  | .enq _ elem => { f with content := f.content ++ elem.toList }
  | .deq => ⟨f.content.tail, f.out ++ [.dequeued c.thread f.content.head?]⟩
  | .clear => ⟨[], f.out ++ f.content.map fun e => .deleted (some e)⟩

/-- The elements after some calls. -/
def fifo (calls : List (ThreadCall α)) : Fifo α := calls.foldl Fifo.step ⟨[], []⟩

/-- An `enq` finds fewer than 2^31 - 1 elements: `qlen` can count one more. -/
def QueueRoom (f : Fifo α) (c : ThreadCall α) : Prop :=
  match c.call with
  | .enq _ _ => f.content.length + 1 < 2 ^ 31
  | _ => True

instance (f : Fifo α) (c : ThreadCall α) : Decidable (QueueRoom f c) := by
  unfold QueueRoom
  cases c.call <;> infer_instance

/-- Every element that enters leaves once, in the order of entering, or is still there. -/
theorem fifo_conserves (calls : List (ThreadCall α)) :
    calls.filterMap ThreadCall.entered =
      (fifo calls).out.filterMap Outcome.elem ++ (fifo calls).content := by
  induction calls using List.reverseRecOn with
  | nil => rfl
  | append_singleton calls c ih =>
      have hstep : fifo (calls ++ [c]) = (fifo calls).step c := by
        rw [fifo, List.foldl_append]
        rfl
      rw [hstep, List.filterMap_append, ih]
      obtain ⟨thread, call⟩ := c
      cases call with
      | enq node elem => cases elem <;> simp [Fifo.step, ThreadCall.entered]
      | deq =>
          cases hc : (fifo calls).content <;>
            simp [Fifo.step, ThreadCall.entered, Outcome.elem, hc, List.filterMap_cons]
      | clear =>
          simp [Fifo.step, ThreadCall.entered, Outcome.elem, List.filterMap_map, Function.comp_def,
            List.filterMap_cons]

/-- The queue holds the elements, and has given away the same. -/
def QueueRun.Represents (s : QueueRun α) (f : Fifo α) : Prop :=
  s.out = f.out ∧ ∃ l, s.queue.Holds l ∧ l.map Prod.snd = f.content.map some

/-- One call does what it is for. -/
theorem QueueRun.Represents.step {s : QueueRun α} {f : Fifo α} {c : ThreadCall α}
    (h : s.Represents f) (helem : c.NonNull) (hnew : NewNode s c) (hroom : QueueRoom f c) :
    ∃ s', queueStep s c = some s' ∧ s'.Represents (f.step c) := by
  obtain ⟨hout, l, hl, hcontent⟩ := h
  obtain ⟨thread, call⟩ := c
  have hlen : l.length = f.content.length := by
    have hlens := congrArg List.length hcontent
    simpa using hlens
  cases call with
  | enq node elem =>
      cases elem with
      | none => cases helem
      | some e =>
          have hcount : l.length + 1 < 2 ^ 31 := hlen ▸ hroom
          obtain ⟨q', hq', hl'⟩ := hl.enq (some e) hnew hcount
          exact ⟨⟨q', s.out⟩, by simp [queueStep, hq'], hout, _, hl',
            by simp [Fifo.step, hcontent]⟩
  | deq =>
      cases l with
      | nil =>
          have hempty : f.content = [] := by simpa using hcontent
          refine ⟨⟨s.queue, s.out ++ [.dequeued thread none]⟩, ?_, ?_, [], hl, ?_⟩
          · simp [queueStep, hl.deq_nil]
          · simp [Fifo.step, hout, hempty]
          · simp [Fifo.step, hempty]
      | cons x xs =>
          obtain ⟨e, rest, hcons, hx, hxs⟩ : ∃ e rest, f.content = e :: rest ∧ x.2 = some e ∧
              xs.map Prod.snd = rest.map some := by
            cases hc : f.content with
            | nil => simp [hc] at hcontent
            | cons e rest => exact ⟨e, rest, rfl, by simpa [hc] using hcontent⟩
          obtain ⟨q', hq', hl'⟩ := hl.deq
          refine ⟨⟨q', s.out ++ [.dequeued thread x.2]⟩, by simp [queueStep, hq'], ?_, xs, hl', ?_⟩
          · simp [Fifo.step, hout, hcons, hx]
          · simpa [Fifo.step, hcons] using hxs
  | clear =>
      obtain ⟨mem', hq'⟩ := hl.clear
      refine ⟨⟨Queue.new mem', s.out ++ (l.map Prod.snd).map .deleted⟩, by simp [queueStep, hq'],
        ?_, [], Queue.holds_new mem', rfl⟩
      rw [hcontent, List.map_map]
      simp [Fifo.step, hout, Function.comp_def]

/-- **`Queue` refines a FIFO sequence.**  In every sequence of calls from any threads, as long as
`qlen` can count the elements, no call goes through a null or freed pointer; `deq` returns what
the FIFO sequence does, and the nodes from `first` to `last` are its elements, `qlen` in number.
Every element that enters leaves once, in the order of entering, or is still there. -/
theorem queue_refines_fifo (mem : NodeMemory (Option α)) (calls : List (ThreadCall α))
    (helem : ∀ c ∈ calls, c.NonNull) (hnew : EveryStep queueStep NewNode ⟨Queue.new mem, []⟩ calls)
    (hroom : EveryStep (total Fifo.step) QueueRoom ⟨[], []⟩ calls) :
    (∃ s, run queueStep ⟨Queue.new mem, []⟩ calls = some s ∧ s.Represents (fifo calls)) ∧
      calls.filterMap ThreadCall.entered =
        (fifo calls).out.filterMap Outcome.elem ++ (fifo calls).content := by
  refine ⟨?_, fifo_conserves calls⟩
  have hstart : QueueRun.Represents ⟨Queue.new mem, []⟩ (⟨[], []⟩ : Fifo α) :=
    ⟨rfl, [], Queue.holds_new mem, rfl⟩
  have hguard : EveryStep queueStep (fun s c => c.NonNull ∧ NewNode s c) ⟨Queue.new mem, []⟩
      calls := by
    intro before c hbefore s hs
    have hc : c ∈ calls := hbefore.subset (by simp)
    exact ⟨helem c hc, hnew before c hbefore s hs⟩
  exact run_refine_guarded (fun s f c h hG hH => h.step hG.1 hG.2 hH) hstart hguard hroom

/-- Two threads put two elements into a queue and take three out; one more is cleared. -/
def fewCalls : List (ThreadCall ℕ) :=
  [⟨0, .enq 5 (some 70)⟩, ⟨1, .enq 3 (some 80)⟩, ⟨2, .deq⟩, ⟨3, .deq⟩, ⟨2, .deq⟩,
    ⟨1, .enq 4 (some 90)⟩, ⟨0, .clear⟩]

theorem queue_refines_fifo_few :
    ∃ s, run queueStep ⟨Queue.new fun _ => none, []⟩ fewCalls = some s ∧
      s.out = [.dequeued 2 (some 70), .dequeued 3 (some 80), .dequeued 2 none, .deleted (some 90)] ∧
      s.queue.len = 0 := by
  obtain ⟨⟨s, hs, hout, l, hl, hcontent⟩, -⟩ :=
    queue_refines_fifo (fun _ => none) fewCalls (by decide) (by decide) (by decide)
  have hfifo : (fifo fewCalls).content = [] := by decide
  have hempty : l = [] := by simpa [hfifo] using hcontent
  refine ⟨s, hs, hout, ?_⟩
  rw [← Int32.toInt_inj, hl.qlen, hempty]
  rfl

/-! ## More elements than `qlen` can count -/

/-- `k` calls of `enq`, with nodes from `n` on. -/
def filling (n k : ℕ) : List (ThreadCall Unit) :=
  (List.range' n k).map fun i => ⟨0, .enq i (some ())⟩

theorem filling_succ (n k : ℕ) :
    filling n (k + 1) = ⟨0, .enq n (some ())⟩ :: filling (n + 1) k := by
  rw [filling, List.range'_succ, List.map_cons]
  rfl

/-- `enq` allocates its node only. -/
theorem Queue.enq_mem {q q' : Queue α} {node a : ℕ} {elem : Option α}
    (h : q.enq node elem = some q') (ha : q.mem a = none) (hne : a ≠ node) : q'.mem a = none := by
  unfold Queue.enq at h
  obtain ⟨mem, halloc, h⟩ := Option.bind_eq_some_iff.mp h
  obtain ⟨-, rfl⟩ := NodeMemory.alloc_eq_some.mp halloc
  have ha' : Function.update q.mem node (some ⟨elem, none⟩) a = none := by
    rwa [Function.update_of_ne hne]
  split at h
  · obtain rfl := Option.some.inj h
    exact ha'
  · obtain ⟨last, -, h⟩ := Option.bind_eq_some_iff.mp h
    obtain ⟨mem, hset, h⟩ := Option.bind_eq_some_iff.mp h
    obtain rfl := Option.some.inj h
    obtain ⟨n, hn, rfl⟩ := Option.map_eq_some_iff.mp hset
    have hlast : a ≠ last := by
      rintro rfl
      rw [ha'] at hn
      cases hn
    exact (Function.update_of_ne hlast _ _).trans ha'

theorem filling_newNode (n k : ℕ) {s : QueueRun Unit} (hmem : ∀ a, n ≤ a → s.queue.mem a = none) :
    EveryStep queueStep NewNode s (filling n k) := by
  induction k generalizing n s with
  | zero => exact everyStep_nil
  | succ k ih =>
      rw [filling_succ]
      refine everyStep_cons.mpr ⟨hmem n le_rfl, fun s' hs' => ih (n + 1) fun a ha => ?_⟩
      obtain ⟨q, hq, rfl⟩ := Option.map_eq_some_iff.mp hs'
      exact Queue.enq_mem hq (hmem a (by omega)) (by omega)

theorem filling_length (n k : ℕ) (f : Fifo Unit) :
    ((filling n k).foldl Fifo.step f).content.length = f.content.length + k := by
  induction k generalizing n f with
  | zero => rfl
  | succ k ih =>
      rw [filling_succ, List.foldl_cons, ih]
      simp only [Fifo.step, Option.toList_some, List.length_append, List.length_singleton]
      omega

theorem filling_overflows {k : ℕ} (hk : 2 ^ 31 ≤ k) {s : QueueRun Unit} :
    ¬ s.Represents (fifo (filling 0 k)) := by
  rintro ⟨-, l, hl, hcontent⟩
  have hlen : l.length = (fifo (filling 0 k)).content.length := by
    have hlens := congrArg List.length hcontent
    simpa only [List.length_map] using hlens
  have hcount : (fifo (filling 0 k)).content.length = 0 + k := filling_length 0 k ⟨[], []⟩
  have hmax := hl.qlen_eq.2
  omega

/-- With 2^31 elements in the queue `qlen` is negative. -/
theorem queue_length_overflows :
    ¬ ∀ calls : List (ThreadCall Unit), (∀ c ∈ calls, c.NonNull) →
      EveryStep queueStep NewNode ⟨Queue.new fun _ => none, []⟩ calls →
        ∃ s, run queueStep ⟨Queue.new fun _ => none, []⟩ calls = some s ∧
          s.Represents (fifo calls) := by
  intro h
  have helem : ∀ c ∈ filling 0 (2 ^ 31), c.NonNull := by
    intro c hc
    obtain ⟨i, -, rfl⟩ := List.mem_map.mp hc
    rfl
  obtain ⟨s, -, hs⟩ := h (filling 0 (2 ^ 31)) helem (filling_newNode 0 _ fun _ _ => rfl)
  exact filling_overflows le_rfl hs

end MonitoringTool.Sniffer
