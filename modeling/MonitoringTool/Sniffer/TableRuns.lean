import MonitoringTool.Sniffer.CrowdedBucket
import MonitoringTool.Sniffer.FlowScrubber

/-!
# Any sequence of calls on the table

The operations of `FlowHashTable` in any order, from the constructor on.  Each of them
keeps the pointers those of some lists (`Shape`) and the counters in step
(`Counted`); `table_consistent` says what this means for the lists that one reads off
the pointers, and that no operation ever meets a pointer it cannot follow.  In a bucket that
is too full for its counter (`table_counter_overflows`) the lists are well formed all the
same, but the counter does not count them.
-/

namespace MonitoringTool.Sniffer

open Lib Function

/-- A call of one of the table's operations. -/
inductive TableCall where
  | create (mem : Flow) (s : FlowS) : TableCall
  | remove (f : ℕ) : TableCall
  | find (s : FlowS) : TableCall
  | addPacket (mem : Flow) (now : Clock) (packet : PacketT) : TableCall
  | flowScrubber (now : ℕ → Int) (timeout : Int) : TableCall
  | clear : TableCall

namespace FlowHashTable

/-- The call, for what it does to the table. -/
def step (t : FlowHashTable) : TableCall → Option FlowHashTable
  | .create mem s => (t.create mem s).map Prod.fst
  | .remove f => t.remove f
  | .find s => (t.find s).map fun _ => t
  | .addPacket mem now packet => t.addPacket mem now packet
  | .flowScrubber now timeout => (t.flowScrubber now timeout).map Prod.fst
  | .clear => t.clear

/-- `remove` is called on flows of the table only. -/
def Allowed (t : FlowHashTable) : TableCall → Prop
  | .remove f => f ∈ t.bucket (t.hmb f)
  | _ => True

instance (t : FlowHashTable) (c : TableCall) : Decidable (t.Allowed c) := by
  unfold Allowed
  split <;> infer_instance

/-- The table is as it should be.  `shape` says of each bucket that its flows are
distinct and doubly linked, and belong there; each bucket counts its flows; no flow is in
two buckets; the counters agree, as numbers of 32 bits; and `find` finds what there is. -/
structure Consistent (t : FlowHashTable) : Prop where
  shape : Shape t t.bucket
  elmCnt_eq : ∀ i, (t.table i).elmCnt.toInt = (t.bucket i).length
  disjoint : ∀ i j f, f ∈ t.bucket i → f ∈ t.bucket j → i = j
  flowCnt_eq : t.flowCnt = Int32.ofInt (∑ i ∈ Finset.range HASH_SIZE, (t.table i).elmCnt.toInt)
  find_some : ∀ s f, t.find s = some (some f) → (∃ i, f ∈ t.bucket i) ∧ (t.flows f).socket = s
  find_iff : ∀ s, (∃ f, t.find s = some (some f)) ↔ ∃ i, ∃ f ∈ t.bucket i, (t.flows f).socket = s

end FlowHashTable

namespace Shape

variable {t : FlowHashTable} {chain : ℕ → List ℕ}

theorem consistent (h : Shape t chain) (hc : t.Counted) (hroomy : t.Roomy) : t.Consistent := by
  have hbucket : t.bucket = chain := funext h.bucket_eq
  exact
    { shape := hbucket ▸ h
      elmCnt_eq := by
        intro i
        rw [h.elmCnt_eq, ← h.bucket_eq, Int32.toInt_ofNat_of_lt (hroomy i)]
      disjoint := by
        rw [hbucket]
        exact fun i j f hi hj => h.bucket_unique hi hj
      flowCnt_eq := hc
      find_some := by
        intro s f hfind
        rw [hbucket]
        exact ⟨⟨_, (h.find_mem hfind).1⟩, (h.find_mem hfind).2⟩
      find_iff := by
        intro s
        rw [hbucket]
        constructor
        · rintro ⟨f, hfind⟩
          exact ⟨_, f, h.find_mem hfind⟩
        · rintro ⟨i, f, hf, hsocket⟩
          rcases h.find_cases s with ⟨g, -, hfind, -⟩ | ⟨-, hnone⟩
          · exact ⟨g, hfind⟩
          · exact absurd hsocket (hnone hroomy i f hf) }

/-- Every allowed call has a result, and keeps the lists and the counters in step. -/
theorem step_eq (h : Shape t chain) (hc : t.Counted) {c : TableCall} (hallowed : t.Allowed c) :
    ∃ t' chain', t.step c = some t' ∧ Shape t' chain' ∧ t'.Counted := by
  cases c with
  | create mem s =>
      obtain ⟨next, prev, first, hcreate, hshape⟩ := h.create_eq mem s
      refine ⟨_, _, ?_, hshape, counted_created hc mem s next prev first⟩
      show (t.create mem s).map Prod.fst = _
      rw [hcreate, Option.map_some]
  | remove f =>
      have hf : f ∈ chain (t.hmb f) := h.bucket_eq (t.hmb f) ▸ hallowed
      obtain ⟨t', chain', hrem, hshape, -, -, -, -, -, -, hcounted⟩ := h.remove_eq hf
      exact ⟨t', chain', hrem, hshape, hcounted hc⟩
  | find s =>
      refine ⟨t, chain, ?_, h, hc⟩
      show (t.find s).map _ = _
      rw [h.find_eq, Option.map_some]
  | addPacket mem now packet =>
      obtain ⟨t', chain', hadd, hshape, -, hcounted⟩ := h.addPacket_eq mem now packet
      exact ⟨t', chain', hadd, hshape, hcounted hc⟩
  | flowScrubber now timeout =>
      obtain ⟨t', hscrub, hs⟩ := h.flowScrubber_eq now timeout
      refine ⟨t', _, ?_, hs.shape, hs.counted hc⟩
      show (t.flowScrubber now timeout).map Prod.fst = _
      rw [hscrub, Option.map_some]
  | clear =>
      obtain ⟨t', hclear, hshape, hcounted, -⟩ := h.clear_eq
      exact ⟨t', _, hclear, hshape, hcounted⟩

end Shape

/-- **The table is consistent after any calls.**  In every sequence of calls from the
constructor on in which `remove` is called on flows of the table only, every call has
a result, and the table is consistent in every state reached in which no bucket is too full
for its counter. -/
theorem table_consistent (calls : List TableCall)
    (hallowed : EveryStep FlowHashTable.step FlowHashTable.Allowed .new calls) :
    (∃ t, run FlowHashTable.step .new calls = some t) ∧
      EveryState FlowHashTable.step (fun t => t.Roomy → t.Consistent) .new calls := by
  have hstep : ∀ t c, (t.Counted ∧ ∃ chain, Shape t chain) → FlowHashTable.Allowed t c →
      ∃ t', t.step c = some t' ∧ t'.Counted ∧ ∃ chain, Shape t' chain := by
    intro t c ⟨hc, chain, h⟩ hallowed
    obtain ⟨t', chain', hstep, h', hc'⟩ := h.step_eq hc hallowed
    exact ⟨t', hstep, hc', chain', h'⟩
  obtain ⟨hdefined, hinv⟩ := everyState_defined hstep
    ⟨FlowHashTable.counted_new, fun _ => [], Shape.new⟩ hallowed
  refine ⟨hdefined, fun before hbefore t hrun hroomy => ?_⟩
  obtain ⟨hc, chain, h⟩ := hinv before hbefore t hrun
  exact h.consistent hc hroomy

/-- A request of a new connection, and the removal of its flow. -/
theorem table_consistent_request :
    (∃ t, run FlowHashTable.step .new
      [.addPacket Flow.zero ⟨0, 0⟩ (webPacket 1 true 100 15 20 REQ), .remove 0,
        .find ⟨1, 2, 4000, 80⟩] = some t) ∧
      EveryState FlowHashTable.step (fun t => t.Roomy → t.Consistent) .new
        [.addPacket Flow.zero ⟨0, 0⟩ (webPacket 1 true 100 15 20 REQ), .remove 0,
          .find ⟨1, 2, 4000, 80⟩] := by
  apply table_consistent
  decide +kernel

/-- After the first packets of 2^31 connections in one bucket its counter is negative. -/
theorem table_counter_overflows :
    ¬ ∀ calls : List TableCall, EveryStep FlowHashTable.step FlowHashTable.Allowed .new calls →
      (∃ t, run FlowHashTable.step .new calls = some t) ∧
        EveryState FlowHashTable.step FlowHashTable.Consistent .new calls := by
  intro hall
  have hallowed : EveryStep FlowHashTable.step FlowHashTable.Allowed .new
      ((List.range (2 ^ 31)).map fun i => .addPacket Flow.zero ⟨0, 0⟩ (crowdPacket i)) := by
    intro before c hbefore t _
    obtain ⟨i, -, rfl⟩ := List.mem_map.mp (hbefore.subset (List.mem_append_right before
      List.mem_cons_self))
    trivial
  obtain ⟨-, hstates⟩ := hall _ hallowed
  obtain ⟨t, chain, hrun, hfull⟩ := @run_crowd _ _ FlowHashTable.step id
    (fun i => .addPacket Flow.zero ⟨0, 0⟩ (crowdPacket i)) (fun t i t' hadd => ⟨t', hadd, rfl⟩) _
    rfl _ le_rfl
  have hshape : Shape t chain := hfull.shape
  have hcnt := (hstates.final hrun).elmCnt_eq crowdBucket
  rw [hshape.bucket_eq] at hcnt
  have hlt := Int32.toInt_lt (t.table crowdBucket).elmCnt
  have hlen := hfull.length_bucket
  omega

end MonitoringTool.Sniffer
