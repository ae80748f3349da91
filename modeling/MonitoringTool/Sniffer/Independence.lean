import MonitoringTool.Lib.Run
import MonitoringTool.Sniffer.CrowdedBucket
import MonitoringTool.Sniffer.FlowMap

/-!
# Connections do not disturb each other

A packet concerns one connection: the two sockets that are its own direction and
the other one.  On the map of flows this is plain, as `add_packet` reads and
writes these two sockets only; `FlowMap.Agree` relates two maps that look the same
to a connection, and the run of all packets is related to the run of the
connection's own packets by a simulation that skips the others.  The refinement
of the map by the table then carries this to the pointers, as long as no bucket is too full
for its counter (`connections_independent`); `crowd_disturbs` fills one.
-/

namespace MonitoringTool.Sniffer

open Lib

/-- A socket of the connection of `c`, in either direction. -/
def FlowS.Of (c s : FlowS) : Prop := s = c ∨ s = c.flip

instance (c s : FlowS) : Decidable (c.Of s) := by
  unfold FlowS.Of
  infer_instance

/-- Both directions belong to the connection or neither does. -/
theorem FlowS.of_flip (c s : FlowS) : c.Of s.flip ↔ c.Of s := by
  have hflip : ∀ a b : FlowS, a.flip = b ↔ a = b.flip := by
    intro a b
    constructor
    · rintro rfl
      rfl
    · rintro rfl
      rfl
  unfold FlowS.Of
  rw [hflip, hflip, FlowS.flip_flip]
  exact Or.comm

/-! ## Flows without their wall-clock members -/

/-- The flow without the time of its last action. -/
def Flow.timeless (f : Flow) : Flow := { f with lastActionSec := 0, lastActionUsec := 0 }

@[simp] theorem Flow.timeless_socket (f : Flow) : f.timeless.socket = f.socket := rfl

/-- The clock decides nothing. -/
theorem Flow.addPacket_timeless (f : Flow) (now : Clock) (packet : PacketT) (src : Bool) :
    (f.addPacket now packet src).verdict = (f.timeless.addPacket ⟨0, 0⟩ packet src).verdict ∧
      (f.addPacket now packet src).flow.timeless =
        (f.timeless.addPacket ⟨0, 0⟩ packet src).flow.timeless := by
  have hpkts : f.timeless.pktsSrc = f.pktsSrc := rfl
  unfold Flow.addPacket
  rw [hpkts]
  dsimp only
  split
  · split
    · exact ⟨rfl, rfl⟩
    · cases src <;> exact ⟨rfl, rfl⟩
  · split
    · cases src <;> exact ⟨rfl, rfl⟩
    · split
      · split
        · cases src <;> exact ⟨rfl, rfl⟩
        · cases src <;> exact ⟨rfl, rfl⟩
      · split
        · cases src <;> exact ⟨rfl, rfl⟩
        · cases src <;> exact ⟨rfl, rfl⟩

/-- Flows that differ in wall-clock members only stay so. -/
theorem Flow.addPacket_congr {f g : Flow} (h : f.timeless = g.timeless) (now now' : Clock)
    (packet : PacketT) (src : Bool) :
    (f.addPacket now packet src).verdict = (g.addPacket now' packet src).verdict ∧
      (f.addPacket now packet src).flow.timeless = (g.addPacket now' packet src).flow.timeless := by
  have hf := f.addPacket_timeless now packet src
  have hg := g.addPacket_timeless now' packet src
  rw [h] at hf
  exact ⟨hf.1.trans hg.1.symm, hf.2.trans hg.2.symm⟩

/-! ## The map, seen by one connection -/

namespace FlowMap

/-- Every flow is kept under its own socket. -/
def Keyed (m : FlowMap) : Prop := ∀ s f, m.flowAt s = some f → f.socket = s

/-- The flows of the connection of `c` that were enqueued. -/
def enqueued (c : FlowS) (m : FlowMap) : List Flow :=
  (m.queue.filter fun f => c.Of f.socket).map Flow.timeless

/-- Two maps that look the same to the connection of `c`. -/
structure Agree (c : FlowS) (m m' : FlowMap) : Prop where
  keyed : m.Keyed
  keyed' : m'.Keyed
  flowAt_eq : ∀ s, c.Of s → (m.flowAt s).map Flow.timeless = (m'.flowAt s).map Flow.timeless
  enqueued_eq : m.enqueued c = m'.enqueued c

theorem agree_empty (c : FlowS) : Agree c empty empty where
  keyed s f h := by cases h
  keyed' s f h := by cases h
  flowAt_eq _ _ := rfl
  enqueued_eq := rfl

/-- `put` in terms of its two effects. -/
theorem put_flowAt (m : FlowMap) (s : FlowS) (r : AddResult) :
    (m.put s r).flowAt =
      Function.update m.flowAt s (if r.verdict = .keep then some r.flow else none) := by
  cases hv : r.verdict <;> simp [put, hv, set]

theorem put_queue (m : FlowMap) (s : FlowS) (r : AddResult) :
    (m.put s r).queue = m.queue ++ if r.verdict = .finish then [r.flow] else [] := by
  cases hv : r.verdict <;> simp [put, hv, set]

/-- A packet changes nothing, or writes a flow under one of its two sockets. -/
theorem addPacket_cases {m : FlowMap} (hm : m.Keyed) (mem : Flow) (now : Clock)
    (packet : PacketT) :
    m.addPacket mem now packet = m ∨
      ∃ s r, (s = packet.socket ∨ s = packet.socket.flip) ∧ r.flow.socket = s ∧
        m.addPacket mem now packet = m.put s r := by
  have hsocket : ∀ f src, (Flow.addPacket f now packet src).flow.socket = f.socket :=
    fun f src => (f.addPacket_pairs now packet src).2.2.1
  unfold addPacket
  dsimp only
  cases hat : m.flowAt packet.socket.flip with
  | some f => exact .inr ⟨_, _, .inr rfl, (hsocket f false).trans (hm _ f hat), rfl⟩
  | none =>
      cases hfat : m.flowAt packet.socket with
      | some f => exact .inr ⟨_, _, .inl rfl, (hsocket f true).trans (hm _ f hfat), rfl⟩
      | none =>
          dsimp only
          split
          · exact .inr ⟨_, _, .inl rfl, hsocket _ true, rfl⟩
          split
          · exact .inr ⟨_, _, .inr rfl, hsocket _ false, rfl⟩
          · exact .inl rfl

theorem Keyed.put {m : FlowMap} (hm : m.Keyed) {s : FlowS} {r : AddResult}
    (hr : r.flow.socket = s) : (m.put s r).Keyed := by
  intro s' f hf
  rw [put_flowAt] at hf
  by_cases hs : s' = s
  · subst hs
    rw [Function.update_self] at hf
    split at hf
    · obtain rfl := Option.some.inj hf
      exact hr
    · cases hf
  · rw [Function.update_of_ne hs] at hf
    exact hm s' f hf

theorem Keyed.addPacket {m : FlowMap} (hm : m.Keyed) (mem : Flow) (now : Clock)
    (packet : PacketT) : (m.addPacket mem now packet).Keyed := by
  rcases addPacket_cases hm mem now packet with heq | ⟨s, r, -, hr, heq⟩
  · rwa [heq]
  · rw [heq]
    exact hm.put hr

/-- All flows are those of the connection of `c`. -/
def OnlyOf (c : FlowS) (m : FlowMap) : Prop := ∀ s f, m.flowAt s = some f → c.Of s

/-- A packet of the connection writes a flow of the connection. -/
theorem OnlyOf.addPacket {c : FlowS} {m : FlowMap} (h : m.OnlyOf c) (hm : m.Keyed)
    {packet : PacketT} (hof : c.Of packet.socket) (mem : Flow) (now : Clock) :
    (m.addPacket mem now packet).OnlyOf c := by
  rcases addPacket_cases hm mem now packet with heq | ⟨s, r, hs, -, heq⟩
  · rwa [heq]
  · have hof' : c.Of s := by
      rcases hs with rfl | rfl
      · exact hof
      · rwa [FlowS.of_flip]
    rw [heq]
    intro s' f hf
    rw [put_flowAt] at hf
    by_cases hs' : s' = s
    · exact hs' ▸ hof'
    · rw [Function.update_of_ne hs'] at hf
      exact h s' f hf

/-- A write outside the connection is not seen by it. -/
theorem Agree.put_other {c : FlowS} {m m' : FlowMap} (h : Agree c m m') {s : FlowS}
    {r : AddResult} (hs : ¬ c.Of s) (hr : r.flow.socket = s) : Agree c (m.put s r) m' where
  keyed := h.keyed.put hr
  keyed' := h.keyed'
  flowAt_eq s' hs' := by
    have hne : s' ≠ s := fun heq => hs (heq ▸ hs')
    rw [put_flowAt, Function.update_of_ne hne]
    exact h.flowAt_eq s' hs'
  enqueued_eq := by
    rw [← h.enqueued_eq]
    unfold enqueued
    rw [put_queue, List.filter_append]
    split
    · simp [hr, hs]
    · simp

/-- The same write in both maps. -/
theorem Agree.put_both {c : FlowS} {m m' : FlowMap} (h : Agree c m m') {s : FlowS}
    {r r' : AddResult} (hr : r.flow.socket = s) (hr' : r'.flow.socket = s)
    (hverdict : r.verdict = r'.verdict) (hflow : r.flow.timeless = r'.flow.timeless) :
    Agree c (m.put s r) (m'.put s r') where
  keyed := h.keyed.put hr
  keyed' := h.keyed'.put hr'
  flowAt_eq s' hs' := by
    rw [put_flowAt, put_flowAt, hverdict]
    by_cases hne : s' = s
    · subst hne
      rw [Function.update_self, Function.update_self]
      split
      · simp [hflow]
      · rfl
    · rw [Function.update_of_ne hne, Function.update_of_ne hne]
      exact h.flowAt_eq s' hs'
  enqueued_eq := by
    have hbefore := h.enqueued_eq
    unfold enqueued at hbefore ⊢
    rw [put_queue, put_queue, hverdict, List.filter_append, List.filter_append, List.map_append,
      List.map_append, hbefore]
    split
    · simp only [List.filter_cons, hr, hr', List.filter_nil]
      split <;> simp [hflow]
    · rfl

/-- A packet of another connection is not seen. -/
theorem Agree.skip {c : FlowS} {m m' : FlowMap} (h : Agree c m m') {packet : PacketT}
    (hother : ¬ c.Of packet.socket) (mem : Flow) (now : Clock) :
    Agree c (m.addPacket mem now packet) m' := by
  rcases addPacket_cases h.keyed mem now packet with heq | ⟨s, r, hs, hr, heq⟩
  · rwa [heq]
  · have hnot : ¬ c.Of s := by
      rcases hs with rfl | rfl
      · exact hother
      · rwa [FlowS.of_flip]
    rw [heq]
    exact h.put_other hnot hr

/-- A packet of the connection does the same in both maps. -/
theorem Agree.step {c : FlowS} {m m' : FlowMap} (h : Agree c m m') {packet : PacketT}
    (hof : c.Of packet.socket) (mem : Flow) (now now' : Clock) :
    Agree c (m.addPacket mem now packet) (m'.addPacket mem now' packet) := by
  have hrev := h.flowAt_eq packet.socket.flip ((FlowS.of_flip c _).mpr hof)
  have hfwd := h.flowAt_eq packet.socket hof
  -- `add_packet` on flows that differ in wall-clock members only
  have hput : ∀ (s : FlowS) (f g : Flow) (src : Bool), f.timeless = g.timeless →
      f.socket = s → g.socket = s →
      Agree c (m.put s (f.addPacket now packet src)) (m'.put s (g.addPacket now' packet src)) := by
    intro s f g src hfg hf hg
    obtain ⟨hverdict, hflow⟩ := Flow.addPacket_congr hfg now now' packet src
    exact h.put_both ((f.addPacket_pairs now packet src).2.2.1.trans hf)
      ((g.addPacket_pairs now' packet src).2.2.1.trans hg) hverdict hflow
  unfold addPacket
  dsimp only
  cases hat : m.flowAt packet.socket.flip with
  | some f =>
      rw [hat] at hrev
      obtain ⟨g, hat', hfg⟩ := Option.map_eq_some_iff.mp hrev.symm
      rw [hat']
      exact hput _ f g false hfg.symm (h.keyed _ f hat) (h.keyed' _ g hat')
  | none =>
      rw [hat] at hrev
      have hat' : m'.flowAt packet.socket.flip = none := by
        simpa using hrev.symm
      rw [hat']
      cases hfat : m.flowAt packet.socket with
      | some f =>
          rw [hfat] at hfwd
          obtain ⟨g, hfat', hfg⟩ := Option.map_eq_some_iff.mp hfwd.symm
          rw [hfat']
          exact hput _ f g true hfg.symm (h.keyed _ f hfat) (h.keyed' _ g hfat')
      | none =>
          rw [hfat] at hfwd
          have hfat' : m'.flowAt packet.socket = none := by
            simpa using hfwd.symm
          rw [hfat']
          dsimp only
          split
          · exact hput _ _ _ true rfl rfl rfl
          split
          · exact hput _ _ _ false rfl rfl rfl
          · exact h

end FlowMap

/-! ## Runs of the table -/

/-- A packet with the clock at its arrival in the run of all packets, and in the
run of its connection's packets. -/
structure PacketArrival where
  packet : PacketT
  now : Clock
  nowAlone : Clock
  deriving DecidableEq

namespace FlowHashTable

/-- `add_packet` of an arrival, in memory of zeros. -/
def arrive (t : FlowHashTable) (a : Clock × PacketT) : Option FlowHashTable :=
  t.addPacket Flow.zero a.1 a.2

/-- The flows of the connection of `c` that were enqueued. -/
def enqueued (c : FlowS) (t : FlowHashTable) : List Flow :=
  ((t.fq.map t.flows).filter fun f => c.Of f.socket).map Flow.timeless

/-- The flow that `find` answers, without its wall-clock members. -/
def found (t : FlowHashTable) (s : FlowS) : Option (Option Flow) :=
  (t.find s).map fun f => f.map fun f => (t.flows f).timeless

/-- What `find` answers and what was enqueued can be read off the map. -/
theorem found_eq {t : FlowHashTable} {m : FlowMap} (h : Represents t m) (hroomy : t.Roomy)
    (s : FlowS) : t.found s = some ((m.flowAt s).map Flow.timeless) := by
  obtain ⟨chain, h⟩ := h
  unfold found
  rcases h.find_eq hroomy s with ⟨f, -, hfind, -, hat⟩ | ⟨hfind, hat⟩
  · rw [hfind, hat]
    rfl
  · rw [hfind, hat]
    rfl

theorem enqueued_eq {t : FlowHashTable} {m : FlowMap} (h : Represents t m) (c : FlowS) :
    t.enqueued c = m.enqueued c := by
  obtain ⟨chain, h⟩ := h
  unfold enqueued FlowMap.enqueued
  rw [h.queue_eq]

/-- A run of the table that leaves it room represents the run of the map. -/
theorem run_represents {as : List (Clock × PacketT)} (hroomy : EveryState arrive Roomy .new as) :
    ∃ t, run arrive .new as = some t ∧
      Represents t (as.foldl (fun m a => m.addPacket Flow.zero a.1 a.2) .empty) :=
  @run_refine_guarded _ _ _ arrive (fun t _ => t.Roomy) Represents
    (fun m a => m.addPacket Flow.zero a.1 a.2) (fun _ _ => True)
    (fun _ _ a h hroomy _ => addPacket_represents h hroomy Flow.zero a.1 a.2) _ _ as new_represents
    hroomy.everyStep (fun _ _ _ _ _ => trivial)

/-- Fewer than 2^31 packets leave the table room. -/
theorem roomy_of_few {as : List (Clock × PacketT)} (hfew : as.length < 2 ^ 31) :
    EveryState arrive Roomy .new as := by
  intro before hbefore t hrun
  have hstep : ∀ t a t', (∃ chain, Shape t chain) → arrive t a = some t' →
      (∃ chain, Shape t' chain) ∧ t'.fresh ≤ t.fresh + 1 := by
    intro t a t' ⟨chain, h⟩ hadd
    obtain ⟨t₁, chain', hadd₁, h', hfresh, -⟩ := h.addPacket_eq Flow.zero a.1 a.2
    obtain rfl : t₁ = t' := Option.some.inj (hadd₁.symm.trans hadd)
    exact ⟨⟨chain', h'⟩, hfresh⟩
  obtain ⟨⟨chain, h⟩, hfresh⟩ := run_measure hstep ⟨_, Shape.new⟩ hrun
  have hzero : FlowHashTable.new.fresh = 0 := rfl
  have hlen := hbefore.length_le
  exact h.roomy_of_fresh (by omega)

/-- A table with the flows of one connection has room. -/
theorem roomy_of_one {t : FlowHashTable} {m : FlowMap} {c : FlowS} (h : Represents t m)
    (hone : m.OnlyOf c) : t.Roomy := by
  obtain ⟨chain, h⟩ := h
  refine h.shape.roomy_iff.mpr fun i => ?_
  have hnodup : ((chain i).map fun f => (t.flows f).socket).Nodup :=
    (h.shape.nodup i).map_on fun f hf g hg heq => h.unique i f hf g hg heq
  have hsub : ((chain i).map fun f => (t.flows f).socket) ⊆ [c, c.flip] := by
    intro s hs
    obtain ⟨f, hf, rfl⟩ := List.mem_map.mp hs
    have hof := hone _ _ (h.flowAt_socket hf)
    simpa [FlowS.Of] using hof
  have hlen := (List.subperm_of_subset hnodup hsub).length_le
  rw [List.length_map, List.length_cons, List.length_singleton] at hlen
  omega

/-- The run of the packets of one connection goes through and represents the run of the map,
with room to the end. -/
theorem run_represents_alone {c : FlowS} {as : List (Clock × PacketT)}
    (hof : ∀ a ∈ as, c.Of a.2.socket) :
    ∃ t, run arrive .new as = some t ∧
      Represents t (as.foldl (fun m a => m.addPacket Flow.zero a.1 a.2) .empty) ∧ t.Roomy := by
  have hstep : ∀ t m a, (Represents t m ∧ m.Keyed ∧ m.OnlyOf c) → c.Of a.2.socket → True →
      ∃ t', arrive t a = some t' ∧ Represents t' (m.addPacket Flow.zero a.1 a.2) ∧
        (m.addPacket Flow.zero a.1 a.2).Keyed ∧ (m.addPacket Flow.zero a.1 a.2).OnlyOf c := by
    intro t m a ⟨h, hkeyed, hone⟩ hof _
    obtain ⟨t', hadd, h'⟩ := addPacket_represents h (roomy_of_one h hone) Flow.zero a.1 a.2
    exact ⟨t', hadd, h', hkeyed.addPacket _ _ _, hone.addPacket hkeyed hof _ _⟩
  have hguard : EveryStep arrive (fun _ a => c.Of a.2.socket) .new as :=
    fun before a hbefore _ _ => hof a (hbefore.subset (by simp))
  have hkeyed : FlowMap.empty.Keyed := fun s f hf => by cases hf
  have hempty : FlowMap.empty.OnlyOf c := fun s f hf => by cases hf
  obtain ⟨t, hrun, h, -, hone⟩ := run_refine_guarded hstep ⟨new_represents, hkeyed, hempty⟩ hguard
    (fun _ _ _ _ _ => trivial)
  exact ⟨t, hrun, h, roomy_of_one h hone⟩

end FlowHashTable

/-- The run of all packets and the run of the connection's packets look the same to
the connection. -/
theorem agree_run (c : FlowS) (as : List PacketArrival) {m m' : FlowMap}
    (h : FlowMap.Agree c m m') :
    FlowMap.Agree c
      ((as.map fun a => (a.now, a.packet)).foldl
        (fun m a => m.addPacket Flow.zero a.1 a.2) m)
      (((as.filter fun a => c.Of a.packet.socket).map fun a => (a.nowAlone, a.packet)).foldl
        (fun m a => m.addPacket Flow.zero a.1 a.2) m') := by
  induction as generalizing m m' with
  | nil => exact h
  | cons a as ih =>
      by_cases hof : c.Of a.packet.socket
      · rw [List.filter_cons_of_pos (by simpa using hof)]
        exact ih (h.step hof Flow.zero a.now a.nowAlone)
      · rw [List.filter_cons_of_neg (by simpa using hof)]
        exact ih (h.skip hof Flow.zero a.now)

/-- **Connections are independent.**  For every sequence of packets in which no bucket ever
gets too full for its counter, every connection and every clock: the table after all packets
answers `find` for the sockets of the connection as the table after the connection's packets
alone does, and the same flows of the connection were enqueued. -/
theorem connections_independent (c : FlowS) (as : List PacketArrival)
    (hroomy : EveryState FlowHashTable.arrive FlowHashTable.Roomy .new
      (as.map fun a => (a.now, a.packet))) :
    ∃ t t', run FlowHashTable.arrive .new (as.map fun a => (a.now, a.packet)) = some t ∧
      run FlowHashTable.arrive .new
        ((as.filter fun a => c.Of a.packet.socket).map fun a => (a.nowAlone, a.packet)) = some t' ∧
      (∀ s, c.Of s → ∃ flow, t.found s = some flow ∧ t'.found s = some flow) ∧
      t.enqueued c = t'.enqueued c := by
  obtain ⟨t, hrun, hrep⟩ := FlowHashTable.run_represents hroomy
  have hof : ∀ a ∈ (as.filter fun a => c.Of a.packet.socket).map fun a => (a.nowAlone, a.packet),
      c.Of a.2.socket := by
    intro a ha
    obtain ⟨b, hb, rfl⟩ := List.mem_map.mp ha
    simpa using (List.mem_filter.mp hb).2
  obtain ⟨t', hrun', hrep', hroomy'⟩ := FlowHashTable.run_represents_alone hof
  have hagree := agree_run c as (FlowMap.agree_empty c)
  refine ⟨t, t', hrun, hrun', fun s hs => ?_, ?_⟩
  · exact ⟨_, FlowHashTable.found_eq hrep (hroomy.final hrun) s,
      by rw [FlowHashTable.found_eq hrep' hroomy' s, hagree.flowAt_eq s hs]⟩
  · rw [FlowHashTable.enqueued_eq hrep, FlowHashTable.enqueued_eq hrep', hagree.enqueued_eq]

/-- Two connections with their flows in one bucket: the first request of each, and the FIN of
the second one, which closes its flow. -/
def neighbours : List PacketArrival :=
  [⟨crowdPacket 0, ⟨1, 0⟩, ⟨10, 0⟩⟩, ⟨crowdPacket 1, ⟨2, 0⟩, ⟨20, 0⟩⟩,
    ⟨{ crowdPacket 1 with tcpFlags := TH_FIN }, ⟨3, 0⟩, ⟨30, 0⟩⟩]

theorem connections_independent_neighbours :
    ∃ t t', run FlowHashTable.arrive .new (neighbours.map fun a => (a.now, a.packet)) = some t ∧
      run FlowHashTable.arrive .new [(⟨10, 0⟩, crowdPacket 0)] = some t' ∧
      (∃ flow, t.found (crowdSocket 0) = some flow ∧ t'.found (crowdSocket 0) = some flow) ∧
      t.enqueued (crowdSocket 0) = t'.enqueued (crowdSocket 0) := by
  have hfilter : (neighbours.filter fun a => (crowdSocket 0).Of a.packet.socket).map
      (fun a => (a.nowAlone, a.packet)) = [(⟨10, 0⟩, crowdPacket 0)] := by decide +kernel
  obtain ⟨t, t', hrun, hrun', hfound, henq⟩ := connections_independent (crowdSocket 0) neighbours
    (FlowHashTable.roomy_of_few (by decide))
  rw [hfilter] at hrun'
  exact ⟨t, t', hrun, hrun', hfound _ (.inl rfl), henq⟩

/-! ## A bucket that is too full -/

/-- Connection 0 of the crowd is concerned by its own packet only. -/
theorem crowd_filter {n : ℕ} (hpos : 0 < n) (hn : n ≤ 2 ^ 31) :
    (List.range n).filter (fun i => (crowdSocket 0).Of (crowdPacket i).socket) = [0] := by
  have hof : ∀ i ∈ List.range n,
      decide ((crowdSocket 0).Of (crowdPacket i).socket) = (i == 0) := by
    intro i hi
    have hlt : i < 2 ^ 31 := (List.mem_range.mp hi).trans_le hn
    have hiff : (crowdSocket 0).Of (crowdPacket i).socket ↔ i = 0 := by
      constructor
      · rintro (heq | heq)
        · exact crowdSocket_inj hlt (by decide) heq
        · exact absurd heq (crowdSocket_ne_flip i 0)
      · rintro rfl
        exact .inl rfl
    rw [decide_eq_decide.mpr hiff]
    rfl
  rw [List.filter_congr hof, List.filter_beq,
    List.count_eq_one_of_mem List.nodup_range (List.mem_range.mpr hpos)]
  rfl

/-- After the first packets of 2^31 connections in one bucket, `find` does not find the flow of
any of them. -/
theorem crowd_disturbs :
    ¬ ∀ (c : FlowS) (as : List PacketArrival),
      ∃ t t', run FlowHashTable.arrive .new (as.map fun a => (a.now, a.packet)) = some t ∧
        run FlowHashTable.arrive .new
          ((as.filter fun a => c.Of a.packet.socket).map fun a => (a.nowAlone, a.packet)) =
            some t' ∧
        (∀ s, c.Of s → ∃ flow, t.found s = some flow ∧ t'.found s = some flow) ∧
        t.enqueued c = t'.enqueued c := by
  intro hall
  have hcrowd : ∀ n ≤ 2 ^ 31, ∃ t chain, run FlowHashTable.arrive .new
      ((List.range n).map fun i => ((⟨0, 0⟩ : Clock), crowdPacket i)) = some t ∧
        Crowded t n chain := by
    intro n hn
    exact @run_crowd _ _ FlowHashTable.arrive id (fun i => (⟨0, 0⟩, crowdPacket i))
      (fun t i t' hadd => ⟨t', hadd, rfl⟩) _ rfl n hn
  obtain ⟨t, t', hrun, hrun', hfound, -⟩ := hall (crowdSocket 0)
    ((List.range (2 ^ 31)).map fun i => ⟨crowdPacket i, ⟨0, 0⟩, ⟨0, 0⟩⟩)
  obtain ⟨t₁, chain₁, hrun₁, hfull⟩ := hcrowd (2 ^ 31) le_rfl
  obtain ⟨t₂, chain₂, hrun₂, halone⟩ := hcrowd 1 (by decide)
  rw [List.map_map] at hrun
  obtain rfl : t₁ = t := Option.some.inj (hrun₁.symm.trans hrun)
  rw [List.filter_map, List.map_map] at hrun'
  rw [show ((fun a : PacketArrival => decide ((crowdSocket 0).Of a.packet.socket)) ∘ fun i =>
    ⟨crowdPacket i, ⟨0, 0⟩, ⟨0, 0⟩⟩) = fun i => decide ((crowdSocket 0).Of (crowdPacket i).socket)
    from rfl, crowd_filter (by decide) le_rfl] at hrun'
  obtain rfl : t₂ = t' := Option.some.inj (hrun₂.symm.trans hrun')
  obtain ⟨flow, hnone, hsome⟩ := hfound (crowdSocket 0) (.inl rfl)
  obtain ⟨f, hf⟩ := halone.find_some (by decide) (show 0 < 1 by decide)
  rw [FlowHashTable.found, hfull.find_none, Option.map_some] at hnone
  rw [FlowHashTable.found, hf, Option.map_some] at hsome
  rw [← Option.some.inj hnone] at hsome
  cases hsome

end MonitoringTool.Sniffer
