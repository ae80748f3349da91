import MonitoringTool.Lib.Run
import MonitoringTool.Sniffer.FlowHashTable

/-!
# The operations that walk the whole table

`FlowHashTable::flow_scrubber` takes the flows out of the table that have been
silent for too long and puts them on the flow queue; `FlowHashTable::clear` deletes
all flows.  Both go through the buckets one by one, so each is a run over the
buckets of what it does to one bucket, its critical section.

`Swept` says what scrubbing leaves of a table, for a bucket
(`Shape.scrubBucket_eq`) and for the whole call (`Shape.flowScrubber_eq`);
`Shape.clear_eq` is the same for `clear`.  `RemovesDead` is what the scrubber is for, and
`flow_scrubber_removes_dead_iff` says for which timeouts it does it.
-/

namespace MonitoringTool.Sniffer

open Lib Function

/-! ## The scrubber -/

/-- `delta > timeout`, with `timeout` read as an `unsigned long`. -/
def timedOut (now timeout : Int) (flow : Flow) : Bool :=
  let delta := (now - flow.lastActionSec).natAbs
  decide ((delta : Int) > timeout % 2 ^ 64)

namespace FlowHashTable

/-- `flow->close = FORCED_CLOSE`. -/
def forceClose (t : FlowHashTable) (f : ℕ) : FlowHashTable :=
  { t with flows := update t.flows f { t.flows f with close := FORCED_CLOSE } }

/-- The walk of `flow_scrubber` over a bucket, from `flow` on: the table after it
and the flows it took out.  `now f` is the time it reads when it looks at `f`. -/
def scrubLoop (now : ℕ → Int) (timeout : Int) :
    ℕ → Option ℕ → FlowHashTable → Option (FlowHashTable × List ℕ)
  | _, none, t => some (t, [])
  | 0, some _, _ => none
  | fuel + 1, some f, t =>
      let flowNext := t.next f
      if timedOut (now f) timeout (t.flows f) then
        ((t.forceClose f).remove f).bind fun t =>
          (scrubLoop now timeout fuel flowNext { t with fq := t.fq ++ [f] }).map
            fun (t, num) => (t, f :: num)
      else scrubLoop now timeout fuel flowNext t

/-- The critical section of `flow_scrubber` on bucket `i`. -/
def scrubBucket (t : FlowHashTable) (i : ℕ) (now : ℕ → Int) (timeout : Int) :
    Option (FlowHashTable × List ℕ) :=
  scrubLoop now timeout t.fresh (t.table i).first t

/-- `flow_scrubber` goes on to bucket `i`, with `num` flows taken out so far. -/
def scrubNext (now : ℕ → Int) (timeout : Int) (r : FlowHashTable × Int32) (i : ℕ) :
    Option (FlowHashTable × Int32) :=
  (r.1.scrubBucket i now timeout).map fun s => (s.1, r.2 + Int32.ofNat s.2.length)

/-- `FlowHashTable::flow_scrubber`: the table after it and what it counted of the flows it
took out. -/
def flowScrubber (t : FlowHashTable) (now : ℕ → Int) (timeout : Int) :
    Option (FlowHashTable × Int32) :=
  run (scrubNext now timeout) (t, 0) (List.range HASH_SIZE)

/-! ## `clear` -/

/-- `clear` on bucket `i`: `delete` while there is a first flow. -/
def clearLoop (i : ℕ) : ℕ → FlowHashTable → Option FlowHashTable
  | fuel, t =>
      let hm := t.table i
      match hm.first, fuel with
      | none, _ => some (t.setMb i { hm with last := none })
      | some _, 0 => none
      | some f, fuel + 1 =>
          let t := { t with deleted := t.deleted ++ [f] }
          clearLoop i fuel (t.setMb i { hm with first := t.next f, elmCnt := hm.elmCnt - 1 })

/-- `FlowHashTable::clear`. -/
def clear (t : FlowHashTable) : Option FlowHashTable :=
  run (fun t i => t.clearLoop i t.fresh) { t with flowCnt := 0 } (List.range HASH_SIZE)

end FlowHashTable

/-! ## What the scrubber leaves -/

/-- What scrubbing took out of the lists `chain`. -/
structure Scrubbed (now : ℕ → Int) (timeout : Int) (t t' : FlowHashTable)
    (chain chain' : ℕ → List ℕ) (out : List ℕ) : Prop where
  shape : Shape t' chain'
  mem_iff : ∀ j g, g ∈ chain' j ↔ g ∈ chain j ∧ g ∉ out
  nodup : out.Nodup
  timedOut : ∀ g ∈ out, timedOut (now g) timeout (t.flows g) = true
  fq_eq : t'.fq = t.fq ++ out
  fresh_eq : t'.fresh = t.fresh

/-- What scrubbing left of the table, besides its lists: the flows taken out were
linked, and are closed; nothing else about the flows changes. -/
structure Swept (now : ℕ → Int) (timeout : Int) (t t' : FlowHashTable)
    (chain chain' : ℕ → List ℕ) (out : List ℕ) : Prop
    extends Scrubbed now timeout t t' chain chain' out where
  linked : ∀ g ∈ out, ∃ i, g ∈ chain i
  flows_eq : ∀ g, t'.flows g =
    if g ∈ out then { t.flows g with close := FORCED_CLOSE } else t.flows g
  deleted_eq : t'.deleted = t.deleted
  freed_eq : t'.freed = t.freed
  counted : t.Counted → t'.Counted

theorem Swept.refl {now : ℕ → Int} {timeout : Int} {t : FlowHashTable} {chain : ℕ → List ℕ}
    (h : Shape t chain) : Swept now timeout t t chain chain [] where
  shape := h
  mem_iff := by simp
  nodup := List.nodup_nil
  timedOut := by simp
  fq_eq := by simp
  fresh_eq := rfl
  linked := by simp
  flows_eq := by simp
  deleted_eq := rfl
  freed_eq := rfl
  counted := id

/-- Taking flows out, and then more of those that are left. -/
theorem Swept.trans {now : ℕ → Int} {timeout : Int} {t t₁ t₂ : FlowHashTable}
    {chain chain₁ chain₂ : ℕ → List ℕ} {out₁ out₂ : List ℕ}
    (h₁ : Swept now timeout t t₁ chain chain₁ out₁)
    (h₂ : Swept now timeout t₁ t₂ chain₁ chain₂ out₂) :
    Swept now timeout t t₂ chain chain₂ (out₁ ++ out₂) := by
  have hapart : ∀ g ∈ out₂, g ∉ out₁ := by
    intro g hg
    obtain ⟨i, hi⟩ := h₂.linked g hg
    exact ((h₁.mem_iff i g).mp hi).2
  exact
    { shape := h₂.shape
      mem_iff := by
        intro j g
        rw [h₂.mem_iff, h₁.mem_iff, List.mem_append, not_or, and_assoc]
      nodup := List.nodup_append.mpr ⟨h₁.nodup, h₂.nodup,
        fun g hg g' hg' heq => hapart g' hg' (heq ▸ hg)⟩
      timedOut := by
        intro g hg
        rcases List.mem_append.mp hg with hg | hg
        · exact h₁.timedOut g hg
        · have htime := h₂.timedOut g hg
          rwa [h₁.flows_eq, if_neg (hapart g hg)] at htime
      fq_eq := by rw [h₂.fq_eq, h₁.fq_eq, List.append_assoc]
      fresh_eq := h₂.fresh_eq.trans h₁.fresh_eq
      linked := by
        intro g hg
        rcases List.mem_append.mp hg with hg | hg
        · exact h₁.linked g hg
        · obtain ⟨i, hi⟩ := h₂.linked g hg
          exact ⟨i, ((h₁.mem_iff i g).mp hi).1⟩
      flows_eq := by
        intro g
        rw [h₂.flows_eq, h₁.flows_eq]
        by_cases hg₁ : g ∈ out₁
        · by_cases hg₂ : g ∈ out₂
          · exact absurd hg₁ (hapart g hg₂)
          · simp [hg₁, hg₂]
        · simp [hg₁]
      deleted_eq := h₂.deleted_eq.trans h₁.deleted_eq
      freed_eq := h₂.freed_eq.trans h₁.freed_eq
      counted := fun hc => h₂.counted (h₁.counted hc) }

/-- Closing a linked flow, unlinking it and enqueueing it. -/
theorem Swept.takeOut {now : ℕ → Int} {timeout : Int} {t : FlowHashTable}
    {chain : ℕ → List ℕ} (h : Shape t chain) {i f : ℕ} {kept rest : List ℕ}
    (hsplit : chain i = kept ++ f :: rest) (hout : timedOut (now f) timeout (t.flows f) = true) :
    Swept now timeout t
      { Shape.removed (t.forceClose f) f kept rest with fq := t.fq ++ [f] } chain
      (update chain i (kept ++ rest)) [f] := by
  have hclosed : Shape (t.forceClose f) chain := h.setFlow fun _ _ => rfl
  have hf : f ∈ chain i := by simp [hsplit]
  exact
    { shape := (hclosed.shape_removed hsplit).logs (t.fq ++ [f]) t.deleted t.freed
      mem_iff := by
        intro j g
        rw [h.linked.mem_unhung hsplit, List.mem_singleton]
      nodup := List.nodup_singleton f
      timedOut := by simpa using hout
      fq_eq := rfl
      fresh_eq := rfl
      linked := by simpa using ⟨i, hf⟩
      flows_eq := by
        intro g
        show update t.flows f { t.flows f with close := FORCED_CLOSE } g = _
        by_cases hg : g = f
        · subst hg
          simp
        · simp [hg]
      deleted_eq := rfl
      freed_eq := rfl
      counted := fun hc => hclosed.counted_removed (t := t.forceClose f) hc hf kept rest }

/-- The flows of the list that have timed out. -/
def FlowHashTable.expired (t : FlowHashTable) (now : ℕ → Int) (timeout : Int) (l : List ℕ) :
    List ℕ :=
  l.filter fun f => timedOut (now f) timeout (t.flows f)

/-- The flows of the list that have not. -/
def FlowHashTable.spared (t : FlowHashTable) (now : ℕ → Int) (timeout : Int) (l : List ℕ) :
    List ℕ :=
  l.filter fun f => !timedOut (now f) timeout (t.flows f)

/-- Closing a flow does not change when it was last heard of. -/
theorem Swept.timedOut_eq {now : ℕ → Int} {timeout : Int} {t t' : FlowHashTable}
    {chain chain' : ℕ → List ℕ} {out : List ℕ} (h : Swept now timeout t t' chain chain' out)
    (g : ℕ) :
    Sniffer.timedOut (now g) timeout (t'.flows g) =
      Sniffer.timedOut (now g) timeout (t.flows g) := by
  rw [h.flows_eq]
  split <;> rfl

theorem Swept.expired_eq {now : ℕ → Int} {timeout : Int} {t t' : FlowHashTable}
    {chain chain' : ℕ → List ℕ} {out : List ℕ} (h : Swept now timeout t t' chain chain' out) :
    t'.expired now timeout = t.expired now timeout := by
  funext l
  simp only [FlowHashTable.expired, h.timedOut_eq]

theorem Swept.spared_eq {now : ℕ → Int} {timeout : Int} {t t' : FlowHashTable}
    {chain chain' : ℕ → List ℕ} {out : List ℕ} (h : Swept now timeout t t' chain chain' out) :
    t'.spared now timeout = t.spared now timeout := by
  funext l
  simp only [FlowHashTable.spared, h.timedOut_eq]

/-- The walk from the flows `rest` of bucket `i` on takes out those of `rest` that have
timed out. -/
theorem Shape.scrubLoop_spec (now : ℕ → Int) (timeout : Int) {i : ℕ} {rest : List ℕ}
    {t : FlowHashTable} {chain : ℕ → List ℕ} {kept : List ℕ} {fuel : ℕ} (h : Shape t chain)
    (hsplit : chain i = kept ++ rest) (hfuel : rest.length ≤ fuel) :
    ∃ t', t.scrubLoop now timeout fuel rest.head? = some (t', t.expired now timeout rest) ∧
      Swept now timeout t t' chain (update chain i (kept ++ t.spared now timeout rest))
        (t.expired now timeout rest) := by
  induction rest generalizing t chain kept fuel with
  | nil =>
      refine ⟨t, by cases fuel <;> rfl, ?_⟩
      have hsame : update chain i (kept ++ []) = chain := by rw [← hsplit, update_eq_self]
      simpa only [FlowHashTable.spared, FlowHashTable.expired, List.filter_nil, hsame] using
        Swept.refl h
  | cons f rest ih =>
      obtain ⟨fuel, rfl⟩ : ∃ n, fuel = n + 1 := ⟨fuel - 1, by simp at hfuel; omega⟩
      have hfuel' : rest.length ≤ fuel := by simpa using hfuel
      have hnext : t.next f = rest.head? := by
        have hseg := h.segment i
        rw [hsplit] at hseg
        exact hseg.neighbours.2
      rw [List.head?_cons, FlowHashTable.scrubLoop, hnext]
      cases hout : timedOut (now f) timeout (t.flows f) with
      | false =>
          obtain ⟨t', hloop, hs⟩ :=
            ih h (show chain i = (kept ++ [f]) ++ rest by simpa using hsplit) hfuel'
          have hexpired : t.expired now timeout (f :: rest) = t.expired now timeout rest := by
            simp [FlowHashTable.expired, hout]
          have hspared : t.spared now timeout (f :: rest) = f :: t.spared now timeout rest := by
            simp [FlowHashTable.spared, hout]
          rw [hexpired, hspared]
          exact ⟨t', by simpa using hloop, by simpa using hs⟩
      | true =>
          -- the flow is closed, unlinked and enqueued before the walk goes on
          have hclosed : Shape (t.forceClose f) chain := h.setFlow fun _ _ => rfl
          have hfirst := Swept.takeOut h hsplit hout
          obtain ⟨t', hloop, hs⟩ :=
            ih hfirst.shape (show Function.update chain i (kept ++ rest) i = kept ++ rest from
              update_self _ _ _) hfuel'
          have hexpired : t.expired now timeout (f :: rest) =
              [f] ++ t.expired now timeout rest := by
            simp [FlowHashTable.expired, hout]
          have hspared : t.spared now timeout (f :: rest) = t.spared now timeout rest := by
            simp [FlowHashTable.spared, hout]
          rw [hfirst.expired_eq] at hloop hs
          rw [hfirst.spared_eq, update_idem] at hs
          rw [hexpired, hspared]
          refine ⟨t', ?_, hfirst.trans hs⟩
          rw [if_pos rfl, hclosed.remove_linked hsplit, Option.bind_some]
          exact congrArg (Option.map fun r : FlowHashTable × List ℕ => (r.1, f :: r.2)) hloop

/-- The scrubber's step on a bucket. -/
theorem Shape.scrubBucket_eq {t : FlowHashTable} {chain : ℕ → List ℕ} (h : Shape t chain) (i : ℕ)
    (now : ℕ → Int) (timeout : Int) :
    ∃ t', t.scrubBucket i now timeout = some (t', t.expired now timeout (chain i)) ∧
      Swept now timeout t t' chain (update chain i (t.spared now timeout (chain i)))
        (t.expired now timeout (chain i)) := by
  unfold FlowHashTable.scrubBucket
  rw [h.first_eq]
  exact h.scrubLoop_spec now timeout (show chain i = [] ++ chain i from rfl) (h.length_le i)

/-- The scrubber's steps on the buckets `is`: it takes the timed-out flows out of them, one
bucket after the other, and counts them. -/
theorem Shape.run_scrubNext_eq (now : ℕ → Int) (timeout : Int) {is : List ℕ} (his : is.Nodup)
    {t : FlowHashTable} {chain : ℕ → List ℕ} (h : Shape t chain) (num : Int32) :
    ∃ t', run (FlowHashTable.scrubNext now timeout) (t, num) is =
        some (t', num + Int32.ofNat (t.expired now timeout (is.flatMap chain)).length) ∧
      Swept now timeout t t' chain
        (fun j => if j ∈ is then t.spared now timeout (chain j) else chain j)
        (t.expired now timeout (is.flatMap chain)) := by
  induction is generalizing t chain num with
  | nil =>
      exact ⟨t, by simp [FlowHashTable.expired], by
        simpa [FlowHashTable.expired] using Swept.refl h⟩
  | cons i is ih =>
      obtain ⟨hi, his⟩ := List.nodup_cons.mp his
      obtain ⟨t₁, hscrub, hone⟩ := h.scrubBucket_eq i now timeout
      obtain ⟨t', hrun, hrest⟩ := ih his hone.shape
        (num + Int32.ofNat (t.expired now timeout (chain i)).length)
      have hothers : is.flatMap (update chain i (t.spared now timeout (chain i))) =
          is.flatMap chain := by
        apply List.flatMap_congr
        intro j hj
        have hji : j ≠ i := fun heq => hi (heq ▸ hj)
        exact update_of_ne hji _ _
      have hout : t.expired now timeout ((i :: is).flatMap chain) =
          t.expired now timeout (chain i) ++ t.expired now timeout (is.flatMap chain) := by
        simp [FlowHashTable.expired]
      have hleft : (fun j => if j ∈ i :: is then t.spared now timeout (chain j) else chain j) =
          fun j => if j ∈ is then
              t.spared now timeout (update chain i (t.spared now timeout (chain i)) j)
            else update chain i (t.spared now timeout (chain i)) j := by
        funext j
        by_cases hj : j = i
        · subst hj
          simp [hi]
        · simp [hj]
      rw [hothers, hone.expired_eq] at hrun hrest
      rw [hone.spared_eq, ← hleft] at hrest
      rw [hout]
      refine ⟨t', ?_, hone.trans hrest⟩
      rw [run_cons, FlowHashTable.scrubNext, hscrub, Option.map_some, Option.bind_some,
        List.length_append, Int32.ofNat_add, ← Int32.add_assoc]
      exact hrun

/-- **`flow_scrubber`** has a result: it takes the timed-out flows out of their buckets,
one bucket after the other, and enqueues them. -/
theorem Shape.flowScrubber_eq {t : FlowHashTable} {chain : ℕ → List ℕ} (h : Shape t chain)
    (now : ℕ → Int) (timeout : Int) :
    let out := t.expired now timeout ((List.range HASH_SIZE).flatMap chain)
    ∃ t', t.flowScrubber now timeout = some (t', Int32.ofNat out.length) ∧
      Swept now timeout t t' chain (fun i => t.spared now timeout (chain i)) out := by
  obtain ⟨t', hrun, hs⟩ := Shape.run_scrubNext_eq now timeout (@List.nodup_range HASH_SIZE) h 0
  have hchain : (fun j => if j ∈ List.range HASH_SIZE then t.spared now timeout (chain j)
      else chain j) = fun i => t.spared now timeout (chain i) := by
    funext j
    by_cases hj : j < HASH_SIZE
    · simp [hj]
    · have hnil : chain j = [] := by
        rw [List.eq_nil_iff_forall_not_mem]
        exact fun f hf => hj (h.lt_hashSize hf)
      simp [hj, hnil, FlowHashTable.spared]
  rw [hchain] at hs
  rw [Int32.zero_add] at hrun
  exact ⟨t', hrun, hs⟩

/-! ## Dead flows -/

/-- The flow has been idle for longer than the timeout, a signed number. -/
def dead (now timeout : Int) (flow : Flow) : Bool :=
  decide (((now - flow.lastActionSec).natAbs : Int) > timeout)

/-- The dead flows of the table, in bucket and list order. -/
def FlowHashTable.deadFlows (t : FlowHashTable) (now : ℕ → Int) (timeout : Int) : List ℕ :=
  ((List.range HASH_SIZE).flatMap t.bucket).filter fun f => dead (now f) timeout (t.flows f)

/-- What `flow_scrubber` is for: exactly the dead flows are closed, taken out of their
buckets and put on the queue, each once, and their number is returned; the other flows
stay as they are, in their order. -/
structure RemovesDead (now : ℕ → Int) (timeout : Int) (t t' : FlowHashTable) (num : Int32) :
    Prop where
  num_eq : num.toInt = (t.deadFlows now timeout).length
  nodup : (t.deadFlows now timeout).Nodup
  fq_eq : t'.fq = t.fq ++ t.deadFlows now timeout
  flows_eq : ∀ g, t'.flows g =
    if g ∈ t.deadFlows now timeout then { t.flows g with close := FORCED_CLOSE } else t.flows g
  bucket_eq : ∀ i, t'.bucket i = (t.bucket i).filter fun f => !dead (now f) timeout (t.flows f)

/-- Every flow is dead for a negative timeout. -/
theorem dead_of_neg {timeout : Int} (htimeout : timeout < 0) (now : Int) (flow : Flow) :
    dead now timeout flow = true := by
  rw [dead, decide_eq_true_iff]
  omega

/-- With a negative timeout the table is left empty. -/
theorem RemovesDead.empties {now : ℕ → Int} {timeout : Int} {t t' : FlowHashTable} {num : Int32}
    (h : RemovesDead now timeout t t' num) (htimeout : timeout < 0) (i : ℕ) :
    t'.bucket i = [] := by
  rw [h.bucket_eq, List.filter_eq_nil_iff]
  intro f _
  simp [dead_of_neg htimeout]

/-- The comparison with the timeout is right, if the timeout is not negative. -/
theorem timedOut_eq_dead {timeout : Int} (hpos : 0 ≤ timeout) (hlt : timeout < 2 ^ 31)
    (now : Int) (flow : Flow) : timedOut now timeout flow = dead now timeout flow := by
  have hsame : timeout % 2 ^ 64 = timeout := Int.emod_eq_of_lt hpos (by omega)
  simp only [timedOut, dead, hsame]

/-- A negative timeout is a larger number than any idle time. -/
theorem timedOut_of_neg {timeout : Int} (hge : -2 ^ 31 ≤ timeout) (hneg : timeout < 0) {now : Int}
    {flow : Flow} (hclock : (now - flow.lastActionSec).natAbs < 2 ^ 63) :
    timedOut now timeout flow = false := by
  unfold timedOut
  rw [decide_eq_false_iff_not]
  omega

section

variable {now : ℕ → Int} {timeout : Int} {t : FlowHashTable} {chain : ℕ → List ℕ}

/-- All flows of the table, each once. -/
theorem Shape.nodup_flatMap (h : Shape t chain) (is : List ℕ) (his : is.Nodup) :
    (is.flatMap chain).Nodup := by
  rw [List.nodup_flatMap]
  refine ⟨fun i _ => h.nodup i, his.imp fun {i j} hne f hi hj => ?_⟩
  exact hne (h.bucket_unique hi hj)

theorem Shape.nodup_deadFlows (h : Shape t chain) (now : ℕ → Int) (timeout : Int) :
    (t.deadFlows now timeout).Nodup := by
  have hbuckets : t.bucket = chain := funext h.bucket_eq
  rw [FlowHashTable.deadFlows, hbuckets]
  exact (h.nodup_flatMap _ List.nodup_range).filter _

/-- Where the comparison is right for all flows of the table, the scrubber removes the
dead ones, exactly if an `int` can count them. -/
theorem Shape.flowScrubber_dead_iff (h : Shape t chain)
    (hright : ∀ i, ∀ f ∈ chain i,
      timedOut (now f) timeout (t.flows f) = dead (now f) timeout (t.flows f)) :
    (∃ t' num, t.flowScrubber now timeout = some (t', num) ∧ RemovesDead now timeout t t' num) ↔
      (t.deadFlows now timeout).length < 2 ^ 31 := by
  obtain ⟨t', hscrub, hs⟩ := h.flowScrubber_eq now timeout
  have hout : t.expired now timeout ((List.range HASH_SIZE).flatMap chain) =
      t.deadFlows now timeout := by
    have hbuckets : t.bucket = chain := funext h.bucket_eq
    rw [FlowHashTable.deadFlows, hbuckets]
    refine List.filter_congr fun f hf => ?_
    obtain ⟨i, -, hi⟩ := List.mem_flatMap.mp hf
    exact hright i f hi
  rw [hout] at hscrub hs
  constructor
  · rintro ⟨t₁, num, hscrub₁, hdead⟩
    obtain ⟨-, rfl⟩ := Prod.mk.inj (Option.some.inj (hscrub₁.symm.trans hscrub))
    have hlt := Int32.toInt_lt (Int32.ofNat (t.deadFlows now timeout).length)
    have hnum := hdead.num_eq
    omega
  · intro hlt
    refine ⟨t', _, hscrub, Int32.toInt_ofNat_of_lt hlt, hs.nodup, hs.fq_eq, hs.flows_eq,
      fun i => ?_⟩
    rw [hs.shape.bucket_eq, h.bucket_eq]
    exact List.filter_congr fun f hf => by rw [hright i f hf]

/-- Where no flow of the table compares as timed out, the scrubber leaves all buckets. -/
theorem Shape.flowScrubber_idle (h : Shape t chain)
    (hidle : ∀ i, ∀ f ∈ chain i, timedOut (now f) timeout (t.flows f) = false) :
    ∃ t', t.flowScrubber now timeout = some (t', 0) ∧ ∀ i, t'.bucket i = t.bucket i := by
  obtain ⟨t', hscrub, hs⟩ := h.flowScrubber_eq now timeout
  have hnone : t.expired now timeout ((List.range HASH_SIZE).flatMap chain) = [] := by
    refine List.filter_eq_nil_iff.mpr fun f hf => ?_
    obtain ⟨i, -, hi⟩ := List.mem_flatMap.mp hf
    simp [hidle i f hi]
  rw [hnone] at hscrub
  refine ⟨t', hscrub, fun i => ?_⟩
  rw [hs.shape.bucket_eq, h.bucket_eq, FlowHashTable.spared, List.filter_eq_self]
  intro f hf
  rw [hidle i f hf]
  rfl

end

/-- **When the scrubber removes exactly the dead flows.**  For every timeout that is not
negative, as long as there are fewer than 2^31 dead flows, which it counts in an `int`; a
negative timeout is compared as a large unsigned number, and so it removes exactly the dead
flows, that is all flows, of an empty table only. -/
theorem flow_scrubber_removes_dead_iff {t : FlowHashTable} {chain : ℕ → List ℕ}
    (h : Shape t chain) (now : ℕ → Int) {timeout : Int} (hge : -2 ^ 31 ≤ timeout)
    (hlt : timeout < 2 ^ 31)
    (hclock : ∀ i, ∀ f ∈ t.bucket i, (now f - (t.flows f).lastActionSec).natAbs < 2 ^ 63) :
    (∃ t' num, t.flowScrubber now timeout = some (t', num) ∧ RemovesDead now timeout t t' num) ↔
      (0 ≤ timeout ∨ ∀ i, t.bucket i = []) ∧ (t.deadFlows now timeout).length < 2 ^ 31 := by
  have hright : (0 ≤ timeout ∨ ∀ i, t.bucket i = []) → ∀ i, ∀ f ∈ chain i,
      timedOut (now f) timeout (t.flows f) = dead (now f) timeout (t.flows f) := by
    rintro (hpos | hempty) i f hf
    · exact timedOut_eq_dead hpos hlt _ _
    · rw [← h.bucket_eq, hempty] at hf
      cases hf
  constructor
  · intro hremoves
    have hcond : 0 ≤ timeout ∨ ∀ i, t.bucket i = [] := by
      obtain ⟨t', num, hscrub, hdead⟩ := hremoves
      rcases Int.lt_or_le timeout 0 with hneg | hpos
      · right
        have hidle : ∀ i, ∀ f ∈ chain i, timedOut (now f) timeout (t.flows f) = false := by
          intro i f hf
          exact timedOut_of_neg hge hneg (hclock i f (by rwa [h.bucket_eq]))
        obtain ⟨t₁, hscrub₁, hkept⟩ := h.flowScrubber_idle hidle
        obtain ⟨rfl, -⟩ := Prod.mk.inj (Option.some.inj (hscrub₁.symm.trans hscrub))
        intro i
        rw [← hkept i, hdead.empties hneg i]
      · exact .inl hpos
    exact ⟨hcond, (h.flowScrubber_dead_iff (hright hcond)).mp hremoves⟩
  · rintro ⟨hcond, hfew⟩
    exact (h.flowScrubber_dead_iff (hright hcond)).mpr hfew

/-- Two flows of one socket, in the memory that they were created in. -/
theorem Shape.exists_two_flows (mem₀ mem₁ : Flow) (s : FlowS) :
    ∃ t, Shape t (update (fun _ => []) (hashFlow s) [0, 1]) ∧ t.flows 0 = Flow.new mem₀ s ∧
      t.flows 1 = Flow.new mem₁ s := by
  obtain ⟨next₁, prev₁, first₁, -, h₁⟩ := Shape.new.create_eq mem₀ s
  rw [Shape.new.kept_of_roomy (Shape.new.roomy_of_fresh (Nat.two_pow_pos 31))] at h₁
  set t₁ := Shape.created .new mem₀ s next₁ prev₁ first₁
  have hfresh : t₁.fresh = 1 := rfl
  obtain ⟨next₂, prev₂, first₂, -, h₂⟩ := h₁.create_eq mem₁ s
  rw [h₁.kept_of_roomy (h₁.roomy_of_fresh (by rw [hfresh]; decide)), update_self, update_idem,
    hfresh] at h₂
  exact ⟨_, h₂, rfl, rfl⟩

/-- A table with a flow that was last heard of at second 0 and one at second 900, scrubbed
with the usual timeout at second 1000: the first one is dead and removed, the other stays. -/
theorem flow_scrubber_removes_dead_ten_minutes :
    ∃ t t' : FlowHashTable, ∃ num, t.deadFlows (fun _ => 1000) 600 = [0] ∧
      t.bucket (hashFlow ⟨1, 2, 3, 80⟩) = [0, 1] ∧ t'.bucket (hashFlow ⟨1, 2, 3, 80⟩) = [1] ∧
      t.flowScrubber (fun _ => 1000) 600 = some (t', num) ∧
      RemovesDead (fun _ => 1000) 600 t t' num := by
  obtain ⟨t, h, hflow₀, hflow₁⟩ :=
    Shape.exists_two_flows Flow.zero { Flow.zero with lastActionSec := 900 } ⟨1, 2, 3, 80⟩
  generalize hhash : hashFlow ⟨1, 2, 3, 80⟩ = k at h ⊢
  have hk : k < HASH_SIZE := hhash ▸ hashFlow_lt _
  have hbucket : t.bucket k = [0, 1] := by rw [h.bucket_eq, update_self]
  have hmem : ∀ i, ∀ f ∈ t.bucket i, f = 0 ∨ f = 1 := by
    intro i f hf
    rw [h.bucket_eq] at hf
    by_cases hi : i = k
    · subst hi
      simpa using hf
    · rw [update_of_ne hi] at hf
      cases hf
  have hclock : ∀ i, ∀ f ∈ t.bucket i,
      ((1000 : Int) - (t.flows f).lastActionSec).natAbs < 2 ^ 63 := by
    intro i f hf
    rcases hmem i f hf with rfl | rfl
    · rw [hflow₀]
      decide
    · rw [hflow₁]
      decide
  have hdead : t.deadFlows (fun _ => 1000) 600 = [0] := by
    apply List.perm_singleton.mp
    rw [List.perm_ext_iff_of_nodup (h.nodup_deadFlows _ _) (List.nodup_singleton 0)]
    intro f
    rw [FlowHashTable.deadFlows, List.mem_filter, List.mem_flatMap, List.mem_singleton]
    constructor
    · rintro ⟨⟨i, -, hf⟩, hdead⟩
      rcases hmem i f hf with rfl | rfl
      · rfl
      · rw [hflow₁] at hdead
        exact absurd hdead (by decide)
    · rintro rfl
      refine ⟨⟨k, List.mem_range.mpr hk, by rw [hbucket]; decide⟩, ?_⟩
      rw [hflow₀]
      decide
  obtain ⟨t', num, hscrub, hremoves⟩ :=
    (@flow_scrubber_removes_dead_iff t _ h (fun _ => 1000) 600 (by decide) (by decide)
      hclock).mpr ⟨.inl (by decide), by rw [hdead]; decide⟩
  refine ⟨t, t', num, hdead, hbucket, ?_, hscrub, hremoves⟩
  rw [hremoves.bucket_eq, hbucket, List.filter_cons, List.filter_cons, hflow₀, hflow₁]
  rfl

/-- The scrubbing at the stop leaves a table with one flow as it is. -/
theorem flow_scrubber_cleanses_nothing :
    ¬ ∀ (t : FlowHashTable) (chain : ℕ → List ℕ) (now : ℕ → Int) (timeout : Int),
      Shape t chain → timeout = 600 ∨ timeout = -1 →
      (∀ i, ∀ f ∈ t.bucket i, (now f - (t.flows f).lastActionSec).natAbs < 2 ^ 63) →
      ∃ t' num, t.flowScrubber now timeout = some (t', num) ∧
        RemovesDead now timeout t t' num := by
  intro hall
  obtain ⟨next, prev, first, -, h⟩ := Shape.new.create_eq Flow.zero ⟨1, 2, 3, 80⟩
  set t := Shape.created FlowHashTable.new Flow.zero ⟨1, 2, 3, 80⟩ next prev first
  have hclock : ∀ f : ℕ, ((0 : Int) - (t.flows f).lastActionSec).natAbs < 2 ^ 63 := by
    intro f
    have hflow : (t.flows f).lastActionSec = 0 := by
      by_cases hf : f = 0
      · subst hf
        rfl
      · show (update FlowHashTable.new.flows 0 (Flow.new Flow.zero _) f).lastActionSec = 0
        rw [update_of_ne hf]
        rfl
    rw [hflow]
    decide
  have hidle : ∀ f : ℕ, timedOut 0 (-1) (t.flows f) = false := fun f =>
    timedOut_of_neg (by decide) (by decide) (hclock f)
  obtain ⟨t', num, hscrub, hdead⟩ := hall t _ (fun _ => 0) (-1) h (.inr rfl) fun i f _ => hclock f
  obtain ⟨t₁, hscrub₁, hkept⟩ := h.flowScrubber_idle fun i f (_ : f ∈ _) =>
    (show timedOut ((fun _ => 0 : ℕ → Int) f) (-1) (t.flows f) = false from hidle f)
  obtain ⟨rfl, -⟩ := Prod.mk.inj (Option.some.inj (hscrub₁.symm.trans hscrub))
  have hgone := hdead.empties (by decide) (hashFlow ⟨1, 2, 3, 80⟩)
  rw [hkept, h.bucket_eq, update_self] at hgone
  simp at hgone

/-! ## What `clear` leaves -/

/-- The loop of `clear` on a bucket whose flows are `l`. -/
theorem clearLoop_eq (i : ℕ) {l : List ℕ} {fuel : ℕ} {before : Option ℕ} {t : FlowHashTable}
    (hseg : Segment t.next t.prev before l none) (hfirst : (t.table i).first = l.head?)
    (hcnt : (t.table i).elmCnt = Int32.ofNat l.length) (hfuel : l.length ≤ fuel) :
    t.clearLoop i fuel = some
      { t with
        table := update t.table i { first := none, last := none, elmCnt := 0 }
        deleted := t.deleted ++ l } := by
  induction l generalizing fuel before t with
  | nil =>
      unfold FlowHashTable.clearLoop
      dsimp only
      have hzero : Int32.ofNat ([] : List ℕ).length = 0 := rfl
      rw [hfirst, hcnt, hzero]
      cases fuel <;> simp [FlowHashTable.setMb]
  | cons f l ih =>
      obtain ⟨fuel, rfl⟩ : ∃ n, fuel = n + 1 := ⟨fuel - 1, by simp at hfuel; omega⟩
      obtain ⟨-, hnext, hrest⟩ := hseg
      rw [Option.or_none] at hnext
      unfold FlowHashTable.clearLoop
      dsimp only
      rw [hfirst, List.head?_cons]
      dsimp only
      have hstep := ih (t := { t with deleted := t.deleted ++ [f] }.setMb i
        { t.table i with first := t.next f, elmCnt := (t.table i).elmCnt - 1 }) hrest
        (by simp [FlowHashTable.setMb, hnext])
        (by simp [FlowHashTable.setMb, hcnt, ofNat_succ, Int32.add_sub_cancel])
        (by simpa using hfuel)
      rw [hstep]
      simp [FlowHashTable.setMb]

/-- An empty bucket in the place of another. -/
theorem Shape.emptied {t : FlowHashTable} {chain : ℕ → List ℕ} (h : Shape t chain) (i : ℕ)
    (deleted : List ℕ) :
    Shape
      { t with
        table := update t.table i { first := none, last := none, elmCnt := 0 }
        deleted := deleted } (update chain i []) := by
  have hmem : ∀ j, ∀ f ∈ update chain i [] j, f ∈ chain j := by
    intro j f hf
    by_cases hj : j = i
    · subst hj
      simp at hf
    · rwa [update_of_ne hj] at hf
  apply h.relinked
  · unfold FlowHashTable.links
    dsimp only
    rw [comp_update, comp_update]
    exact h.linked.emptied i
  · rfl
  · rfl
  · exact Nat.zero_le _
  · exact fun j f hf => h.hmb_eq j f (hmem j f hf)
  · exact fun j f hf => h.socket_hash j f (hmem j f hf)
  · exact fun j f hf => h.lt_fresh j f (hmem j f hf)

/-- The loops of `clear` on the buckets `is`, one after the other. -/
theorem Shape.clearBuckets_eq {is : List ℕ} (hnodup : is.Nodup) {t : FlowHashTable}
    {chain : ℕ → List ℕ} (h : Shape t chain) :
    ∃ t', run (fun t i => t.clearLoop i t.fresh) t is = some t' ∧
      Shape t' (Buckets.without chain is) ∧ t'.flowCnt = t.flowCnt ∧ t'.flows = t.flows ∧
      t'.fq = t.fq ∧ t'.fresh = t.fresh ∧ t'.freed = t.freed ∧
      t'.deleted = t.deleted ++ is.flatMap chain := by
  induction is generalizing t chain with
  | nil =>
      rw [Buckets.without_nil, List.flatMap_nil, List.append_nil]
      exact ⟨t, rfl, h, rfl, rfl, rfl, rfl, rfl, rfl⟩
  | cons i is ih =>
      obtain ⟨hi, hnodup⟩ := List.nodup_cons.mp hnodup
      have hbucket := clearLoop_eq i (h.segment i) (h.first_eq i) (h.elmCnt_eq i) (h.length_le i)
      have hempty := h.emptied i (t.deleted ++ chain i)
      obtain ⟨t', hrun, hshape, hcnt, hflows, hfq, hfresh, hfreed, hdeleted⟩ := ih hnodup hempty
      have hothers : is.flatMap (update chain i []) = is.flatMap chain := by
        apply List.flatMap_congr
        intro j hj
        have hji : j ≠ i := fun heq => hi (heq ▸ hj)
        exact update_of_ne hji _ _
      rw [Buckets.without_cons]
      refine ⟨t', ?_, hshape, hcnt, hflows, hfq, hfresh, hfreed, ?_⟩
      · rw [run_cons, hbucket]
        exact hrun
      · rw [hdeleted, hothers, List.flatMap_cons, List.append_assoc]

/-- What `clear` leaves of a table: empty buckets, and the flows deleted. -/
structure Cleared (t t' : FlowHashTable) (gone : List ℕ) : Prop where
  table_eq : ∀ i < HASH_SIZE, t'.table i = { first := none, last := none, elmCnt := 0 }
  flows_eq : t'.flows = t.flows
  fq_eq : t'.fq = t.fq
  fresh_eq : t'.fresh = t.fresh
  freed_eq : t'.freed = t.freed
  deleted_eq : t'.deleted = t.deleted ++ gone

/-- **`clear`** has a result: it deletes the flows of all buckets, one bucket after the
other. -/
theorem Shape.clear_eq {t : FlowHashTable} {chain : ℕ → List ℕ} (h : Shape t chain) :
    ∃ t', t.clear = some t' ∧ Shape t' (fun _ => []) ∧ t'.Counted ∧
      Cleared t t' ((List.range HASH_SIZE).flatMap chain) := by
  have hzero : Shape { t with flowCnt := 0 } chain :=
    ⟨h.segment, h.first_eq, h.last_eq, h.elmCnt_eq, h.length_le_word, h.nodup, h.hmb_eq,
      h.socket_hash, h.lt_fresh⟩
  obtain ⟨t', hrun, hempty, hcnt, hflows, hfq, hfresh, hfreed, hdeleted⟩ :=
    hzero.clearBuckets_eq (List.nodup_range (n := HASH_SIZE))
  rw [Buckets.without_eq_nil fun j f hf => List.mem_range.mpr (h.lt_hashSize hf)] at hempty
  have htable : ∀ i, t'.table i = { first := none, last := none, elmCnt := 0 } := by
    intro i
    have hfirst := hempty.first_eq i
    have hlast := hempty.last_eq i
    have helm := hempty.elmCnt_eq i
    cases hm : t'.table i
    simp_all
  refine ⟨t', hrun, hempty, ?_, fun i _ => htable i, hflows, hfq, hfresh, hfreed, hdeleted⟩
  unfold FlowHashTable.Counted
  rw [hcnt]
  simp [htable]

end MonitoringTool.Sniffer
