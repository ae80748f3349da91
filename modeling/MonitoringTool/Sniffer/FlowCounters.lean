import Mathlib.Algebra.GroupWithZero.Nat
import MonitoringTool.Sniffer.PacketCustody

/-!
# The counters of a flow

For each direction a flow counts its packets and their bytes, and the packets on its chain.
`hook_packet` and `cal_packet` update the counters of the direction, and `reset` restarts
them all.  The constructor of a flow leaves the byte counters and the fronts of the chains
alone, so that they are what the memory holds.

`flow_counters_exact_iff` says exactly when the counters of a flow are right as long as it is
in its table: in memory that is zero there, and until a direction has 2^32 packets.
-/

namespace MonitoringTool.Sniffer

open Lib

/-! ## What is counted -/

/-- `payload_src` or `payload_dst`. -/
def Flow.payload (f : Flow) (src : Bool) : UInt32 := if src then f.payloadSrc else f.payloadDst

/-- `pkts_src` or `pkts_dst`. -/
def Flow.pkts (f : Flow) (src : Bool) : UInt32 := if src then f.pktsSrc else f.pktsDst

/-- The packets of them that were hooked. -/
def hookedOf (src : Bool) (accepted : List PacketT) : List PacketT :=
  accepted.filter fun packet => decide (Stored packet src)

/-- The counters of a direction are those of the packets accepted: the bytes modulo 2^32, the
packets, and those of them on the chain. -/
structure Flow.CountsExactly (f : Flow) (src : Bool) (accepted : List PacketT) : Prop where
  payload : (f.payload src).toNat = (accepted.map fun packet => packet.tcpDl.toNat).sum % 2 ^ 32
  pkts : (f.pkts src).toNat = accepted.length
  chainN : (f.chainN src).toNat = (hookedOf src accepted).length
  chain : (f.chain src).length = (hookedOf src accepted).length

/-! ## Runs -/

/-- A call of `add_packet`. -/
structure PacketCall where
  now : Clock
  packet : PacketT
  src : Bool

/-- A flow in its table, with the packets of each direction that it accepted since it was
created or reset. -/
structure Tallied where
  flow : Flow
  accepted : Bool → List PacketT

namespace Tallied

/-- A new flow. -/
def start (mem : Flow) (s : FlowS) : Tallied := { flow := Flow.new mem s, accepted := fun _ => [] }

/-- The packets since the reset, if the packet resets the flow. -/
def kept (s : Tallied) (c : PacketCall) (src : Bool) : List PacketT :=
  if RepeatedSyn s.flow c.packet c.src then [] else s.accepted src

/-- One call, as long as the flow is in its table. -/
def step (s : Tallied) (c : PacketCall) : Option Tallied :=
  let r := s.flow.addPacket c.now c.packet c.src
  match r.verdict with
  | .keep =>
      some
        { flow := r.flow
          accepted := fun src => s.kept c src ++ if src = c.src then [c.packet] else [] }
  | _ => none

/-- The counters of both directions are right. -/
def CountsExactly (s : Tallied) : Prop := ∀ src, s.flow.CountsExactly src (s.accepted src)

/-- A packet that the flow accepts and is kept with is not the 2^32nd of its direction. -/
def CountersFit (s : Tallied) (c : PacketCall) : Prop :=
  hasFlag c.packet.tcpFlags TH_RST = false → hasFlag c.packet.tcpFlags TH_FIN = false →
    (s.kept c c.src).length + 1 < 2 ^ 32

end Tallied

/-- The counters and chains that the constructor leaves alone are zero and null. -/
structure Flow.ZeroCounters (mem : Flow) : Prop where
  payload : ∀ src, mem.payload src = 0
  chain : ∀ src, mem.chain src = []

/-! ## One call -/

section AddPacket

variable (f : Flow) (now : Clock) (packet : PacketT) (src : Bool)

/-- The flow that a packet is added to: itself, or the flow that is reset. -/
def Flow.base : Flow := if RepeatedSyn f packet src then f.reset else f

theorem Flow.calPacket_counts (dir : Bool) :
    (f.calPacket now packet src).payload dir =
        (if dir = src then f.payload dir + packet.tcpDl.toUInt32 else f.payload dir) ∧
      (f.calPacket now packet src).pkts dir = if dir = src then f.pkts dir + 1 else f.pkts dir := by
  cases src <;> cases dir <;> exact ⟨rfl, rfl⟩

/-- The byte and packet counters after `add_packet`. -/
theorem Flow.addPacket_counts (h : ¬ DropsFlow f packet) (dir : Bool) :
    (f.addPacket now packet src).flow.payload dir =
        (if dir = src then (f.base packet src).payload dir + packet.tcpDl.toUInt32
        else (f.base packet src).payload dir) ∧
      (f.addPacket now packet src).flow.pkts dir =
        if dir = src then (f.base packet src).pkts dir + 1 else (f.base packet src).pkts dir := by
  have hsetSyn : ∀ g : Flow, (g.setSyn packet).payload dir = g.payload dir ∧
      (g.setSyn packet).pkts dir = g.pkts dir := fun g => ⟨rfl, rfl⟩
  have hhook : (f.hookPacket packet src).payload dir = f.payload dir ∧
      (f.hookPacket packet src).pkts dir = f.pkts dir := by
    cases src <;> exact ⟨rfl, rfl⟩
  have hclose : ∀ (g : Flow) b, ({ g with close := b } : Flow).payload dir = g.payload dir ∧
      ({ g with close := b } : Flow).pkts dir = g.pkts dir := fun g b => ⟨rfl, rfl⟩
  rcases Flow.addPacket_cases f now packet src with ⟨hd, -⟩ | ⟨-, hflag, hres⟩ |
    ⟨hsrc, hsyn, hres⟩ | ⟨hst, hres⟩ | ⟨-, -, -, hsyn, hres⟩
  · exact absurd hd h
  · have hbase : f.base packet src = f := if_neg (not_stored_of_flag f packet src hflag).2
    rw [hres, hbase, (hclose _ _).1, (hclose _ _).2]
    exact f.calPacket_counts now _ src dir
  · have hbase : f.base packet src = if f.pktsSrc = 0 then f else f.reset := by
      by_cases hn : f.pktsSrc = 0 <;> simp [Flow.base, RepeatedSyn, hsrc, hsyn, hn]
    rw [hres, hbase, ← (hsetSyn _).1, ← (hsetSyn _).2]
    exact Flow.calPacket_counts _ now _ src dir
  · have hbase : f.base packet src = f := if_neg (hst.not_repeatedSyn f)
    rw [hres, hbase, ← hhook.1, ← hhook.2]
    exact Flow.calPacket_counts _ now _ src dir
  · have hbase : f.base packet src = f := if_neg fun hrep => hsyn ⟨hrep.1, hrep.2.1⟩
    rw [hres, hbase]
    exact f.calPacket_counts now _ src dir

/-- The flow is kept unless the packet has RST or FIN. -/
theorem Flow.addPacket_keep_iff : (f.addPacket now packet src).verdict = .keep ↔
    hasFlag packet.tcpFlags TH_RST = false ∧ hasFlag packet.tcpFlags TH_FIN = false := by
  rcases Flow.addPacket_cases f now packet src with ⟨hd, hres⟩ | ⟨-, hflag, hres⟩ |
    ⟨-, hsyn, hres⟩ | ⟨hst, hres⟩ | ⟨-, hrst, hfin, -, hres⟩ <;> rw [hres]
  · simp [hd.1]
  · rcases hflag with h | h <;> simp [h]
  · exact iff_of_true rfl (hasFlag_of_syn packet hsyn)
  · exact iff_of_true rfl ⟨hst.2.1, hst.2.2.1⟩
  · exact iff_of_true rfl ⟨hrst, hfin⟩

/-- The chains after it, of the flow that the packet is added to. -/
theorem Flow.addPacket_chains (dir : Bool) :
    (f.addPacket now packet src).flow.chain dir =
        (if Stored packet src ∧ dir = src then
          hookChain ((f.base packet src).chain dir) ((f.base packet src).chainN dir) packet
        else (f.base packet src).chain dir) ∧
      (f.addPacket now packet src).flow.chainN dir =
        if Stored packet src ∧ dir = src then (f.base packet src).chainN dir + 1
        else (f.base packet src).chainN dir := by
  obtain ⟨hchain, hchainN⟩ := Flow.addPacket_chain f now packet src dir
  rw [hchain, hchainN]
  unfold Flow.base
  by_cases hrep : RepeatedSyn f packet src
  · have hnot : ¬ Stored packet src := fun hst => hst.not_repeatedSyn f hrep
    simp [hrep, hnot]
  · simp [hrep]

end AddPacket

section Counts

variable {f g : Flow} {accepted : List PacketT}

theorem length_hookedOf_le (src : Bool) (accepted : List PacketT) :
    (hookedOf src accepted).length ≤ accepted.length := List.length_filter_le _ _

theorem Flow.countsExactly_reset (f : Flow) (src : Bool) : f.reset.CountsExactly src [] := by
  cases src <;> exact ⟨rfl, rfl, rfl, rfl⟩

theorem Flow.countsExactly_new_iff (mem : Flow) (s : FlowS) (src : Bool) :
    (Flow.new mem s).CountsExactly src [] ↔ mem.payload src = 0 ∧ mem.chain src = [] := by
  have hpayload : (Flow.new mem s).payload src = mem.payload src := by cases src <;> rfl
  have hchain : (Flow.new mem s).chain src = mem.chain src := by cases src <;> rfl
  constructor
  · intro h
    have hbytes := h.payload
    have hlen := h.chain
    rw [hpayload] at hbytes
    rw [hchain] at hlen
    exact ⟨UInt32.toNat_inj.mp hbytes, List.length_eq_zero_iff.mp hlen⟩
  · rintro ⟨hzero, hnil⟩
    refine ⟨?_, ?_, ?_, ?_⟩
    · rw [hpayload, hzero]
      rfl
    · cases src <;> rfl
    · cases src <;> rfl
    · rw [hchain, hnil]
      rfl

/-- One more packet of the direction is counted exactly if there are fewer than 2^32 with
it. -/
theorem Flow.CountsExactly.count_iff {src : Bool} (hf : f.CountsExactly src accepted)
    {packet : PacketT} (hpayload : g.payload src = f.payload src + packet.tcpDl.toUInt32)
    (hpkts : g.pkts src = f.pkts src + 1)
    (hchain : g.chain src =
      if Stored packet src then hookChain (f.chain src) (f.chainN src) packet else f.chain src)
    (hchainN : g.chainN src = if Stored packet src then f.chainN src + 1 else f.chainN src) :
    g.CountsExactly src (accepted ++ [packet]) ↔ accepted.length + 1 < 2 ^ 32 := by
  have hlen : (accepted ++ [packet]).length = accepted.length + 1 := by simp
  constructor
  · intro hg
    rw [← hlen, ← hg.pkts]
    exact (g.pkts src).toNat_lt
  · intro hfit
    have hle := length_hookedOf_le src accepted
    have hone : (1 : UInt32).toNat = 1 := rfl
    refine ⟨?_, ?_, ?_, ?_⟩
    · rw [hpayload, UInt32.toNat_add, hf.payload, UInt16.toNat_toUInt32]
      simp [Nat.mod_add_mod]
    · rw [hpkts, UInt32.toNat_add, hf.pkts, hone, hlen]
      omega
    · rw [hchainN]
      by_cases hst : Stored packet src
      · rw [if_pos hst, UInt32.toNat_add, hf.chainN, hone]
        simp only [hookedOf, List.filter_append, List.length_append] at hle ⊢
        simp [hst]
        omega
      · rw [if_neg hst, hf.chainN]
        simp [hookedOf, List.filter_append, hst]
    · rw [hchain]
      by_cases hst : Stored packet src
      · have hhook : (hookChain (f.chain src) (f.chainN src) packet).length =
            (f.chain src).length + 1 := by
          unfold hookChain
          split
          · next hzero =>
            -- the counter is zero only when the chain is empty
            have hnil : (f.chain src).length = 0 := by
              rw [hf.chain, ← hf.chainN, hzero]
              rfl
            rw [hnil]
            rfl
          · simp
        rw [if_pos hst, hhook, hf.chain]
        simp [hookedOf, List.filter_append, hst]
      · rw [if_neg hst, hf.chain]
        simp [hookedOf, List.filter_append, hst]

end Counts

namespace Tallied

theorem base_countsExactly {s : Tallied} (h : s.CountsExactly) (c : PacketCall) (src : Bool) :
    (s.flow.base c.packet c.src).CountsExactly src (s.kept c src) := by
  unfold Flow.base kept
  split
  · exact s.flow.countsExactly_reset src
  · exact h src

/-- A flow that is kept was sent neither RST nor FIN. -/
theorem step_eq_some {s s' : Tallied} {c : PacketCall} (h : s.step c = some s') :
    ¬ DropsFlow s.flow c.packet ∧ hasFlag c.packet.tcpFlags TH_RST = false ∧
      hasFlag c.packet.tcpFlags TH_FIN = false ∧
      s' = { flow := (s.flow.addPacket c.now c.packet c.src).flow
             accepted := fun src => s.kept c src ++ if src = c.src then [c.packet] else [] } := by
  have hkeep : (s.flow.addPacket c.now c.packet c.src).verdict = .keep := by
    unfold step at h
    dsimp only at h
    split at h
    · next hkeep => exact hkeep
    · cases h
  obtain ⟨hrst, hfin⟩ := (Flow.addPacket_keep_iff _ _ _ _).mp hkeep
  refine ⟨(Flow.addPacket_keep _ _ _ _ hkeep).1, hrst, hfin, ?_⟩
  unfold step at h
  simp only [hkeep] at h
  exact (Option.some.inj h).symm

/-- A call keeps the counters right exactly if they fit. -/
theorem step_countsExactly_iff {s s' : Tallied} (h : s.CountsExactly) {c : PacketCall}
    (hstep : s.step c = some s') : s'.CountsExactly ↔ s.CountersFit c := by
  obtain ⟨hdrop, hrst, hfin, rfl⟩ := step_eq_some hstep
  have hbase := base_countsExactly h c
  have hfits : s.CountersFit c ↔ (s.kept c c.src).length + 1 < 2 ^ 32 := by
    simp [CountersFit, hrst, hfin]
  have hown : (s.flow.addPacket c.now c.packet c.src).flow.CountsExactly c.src
      (s.kept c c.src ++ [c.packet]) ↔ (s.kept c c.src).length + 1 < 2 ^ 32 := by
    obtain ⟨hpayload, hpkts⟩ := Flow.addPacket_counts s.flow c.now c.packet c.src hdrop c.src
    obtain ⟨hchain, hchainN⟩ := Flow.addPacket_chains s.flow c.now c.packet c.src c.src
    simp only [if_true, and_true] at hpayload hpkts hchain hchainN
    exact (hbase c.src).count_iff hpayload hpkts hchain hchainN
  have hother : ∀ src, src ≠ c.src →
      (s.flow.addPacket c.now c.packet c.src).flow.CountsExactly src (s.kept c src) := by
    intro src hne
    obtain ⟨hpayload, hpkts⟩ := Flow.addPacket_counts s.flow c.now c.packet c.src hdrop src
    obtain ⟨hchain, hchainN⟩ := Flow.addPacket_chains s.flow c.now c.packet c.src src
    simp only [hne, if_false, and_false] at hpayload hpkts hchain hchainN
    obtain ⟨h₁, h₂, h₃, h₄⟩ := hbase src
    exact ⟨hpayload ▸ h₁, hpkts ▸ h₂, hchainN ▸ h₃, hchain ▸ h₄⟩
  rw [hfits, ← hown]
  constructor
  · intro hall
    have hsrc := hall c.src
    simpa using hsrc
  · intro hsrc src
    by_cases hne : src = c.src
    · subst hne
      simpa using hsrc
    · simpa [hne] using hother src hne

end Tallied

/-- **The counters of a flow.**  For every memory that a flow is created in and every run of
`add_packet` on it: as long as the flow is in its table its counters are exactly those of the
packets accepted since it was created or reset, if and only if the counters and chains that
the constructor leaves alone are zero and null, and no direction accepts 2^32 packets. -/
theorem flow_counters_exact_iff (mem : Flow) (s : FlowS) (calls : List PacketCall) :
    EveryState Tallied.step Tallied.CountsExactly (.start mem s) calls ↔
      mem.ZeroCounters ∧ EveryStep Tallied.step Tallied.CountersFit (.start mem s) calls := by
  have hstart : (Tallied.start mem s).CountsExactly ↔ mem.ZeroCounters := by
    constructor
    · intro h
      exact ⟨fun src => ((mem.countsExactly_new_iff s src).mp (h src)).1,
        fun src => ((mem.countsExactly_new_iff s src).mp (h src)).2⟩
    · intro h src
      exact (mem.countsExactly_new_iff s src).mpr ⟨h.payload src, h.chain src⟩
  -- a packet that the flow is not kept with may have any number
  have hnone : ∀ t : Tallied, ∀ c, t.CountsExactly → t.step c = none → t.CountersFit c := by
    intro t c _ hstep hrst hfin
    have hkeep := (Flow.addPacket_keep_iff t.flow c.now c.packet c.src).mpr ⟨hrst, hfin⟩
    unfold Tallied.step at hstep
    simp [hkeep] at hstep
  have hruns : (Tallied.start mem s).CountsExactly →
      (EveryState Tallied.step Tallied.CountsExactly (.start mem s) calls ↔
        EveryStep Tallied.step Tallied.CountersFit (.start mem s) calls) := fun h =>
    everyState_iff_everyStep (fun t ht => ht) (fun t c t' ht => Tallied.step_countsExactly_iff ht)
      (fun t c t' _ _ ht' => ht') hnone h
  constructor
  · intro h
    have hfirst := h [] List.nil_prefix _ rfl
    exact ⟨hstart.mp hfirst, (hruns hfirst).mp h⟩
  · rintro ⟨hzero, hfit⟩
    exact (hruns (hstart.mpr hzero)).mpr hfit

/-- A new flow counts the bytes on from what the memory holds. -/
theorem flow_counters_uninitialised :
    ¬ ∀ (mem : Flow) (s : FlowS) (calls : List PacketCall),
        EveryState Tallied.step Tallied.CountsExactly (.start mem s) calls := by
  intro h
  have hstart := h { Flow.zero with payloadSrc := 7 } ⟨1, 2, 4000, 80⟩ [] [] List.nil_prefix _ rfl
  exact absurd (hstart true).payload (by decide)

end MonitoringTool.Sniffer
