import MonitoringTool.Lib.Custody
import MonitoringTool.Sniffer.FlowScrubber

/-!
# Who owns a packet

`FlowHashTable::add_packet` takes a packet over.  It frees it, or hooks it on a chain of
a flow, where `Flow::reset` and the destructor free it with the rest of the chain.  The
nodes of the order lists point to hooked packets.

A run here is any sequence of packets, scrubs and destructions of flows.  The packets are
numbered as they are handed over, since an address is used again after a `free`.

`packets_owned_iff` is the exact condition for a packet to be owned once at all times:
no chain grows past 2^32 packets.  The counter of such a chain is zero again, and
`hook_packet` takes a chain with that counter for an empty one.
-/

namespace MonitoringTool.Sniffer

open Lib Function

/-! ## What is freed -/

/-- The packet chain of a direction. -/
def Flow.chain (f : Flow) (src : Bool) : List ℕ := if src then f.pktSrc else f.pktDst

/-- The counter of that chain. -/
def Flow.chainN (f : Flow) (src : Bool) : UInt32 := if src then f.pktSrcN else f.pktDstN

/-- The packets that `Flow::~Flow` and `Flow::reset` free: the chain of the destination,
then that of the source. -/
def Flow.hooked (f : Flow) : List ℕ := f.pktDst ++ f.pktSrc

/-- The packets that the call of `reset` in `Flow::add_packet` frees. -/
def Flow.freedByReset (f : Flow) (packet : PacketT) (src : Bool) : List ℕ :=
  if RepeatedSyn f packet src then f.hooked else []

namespace FlowHashTable

/-- The flow that `add_packet` finds for a packet, and whether the packet is one of its
source. -/
def taker (t : FlowHashTable) (packet : PacketT) : Option (Option (ℕ × Bool)) := do
  match ← t.find packet.socket.flip with
  | some f => some (some (f, false))
  | none => some ((← t.find packet.socket).map fun f => (f, true))

/-- The flows that exist: in the table, on the queue, or in neither. -/
def alive (t : FlowHashTable) : List ℕ := (List.range t.fresh).filter (· ∉ t.deleted)

/-- What the flows hold. -/
def hooked (t : FlowHashTable) (f : ℕ) : List ℕ := (t.flows f).hooked

end FlowHashTable

/-! ## Runs -/

/-- Memory in which the chain pointers that the constructor leaves alone are null. -/
def Flow.nullChains (mem : Flow) : Flow := { mem with pktSrc := [], pktDst := [] }

/-- The packet under its number. -/
def PacketT.numbered (packet : PacketT) (addr : ℕ) : PacketT := { packet with addr := addr }

/-- The table, the number of packets handed to it, and the calls of `packet_free`. -/
structure Custody where
  table : FlowHashTable
  handed : ℕ
  freed : List ℕ

/-- What can happen to the packets. -/
inductive CustodyCall where
  /-- `FlowHashTable::add_packet`; a new flow is built in the memory `mem` -/
  | addPacket (mem : Flow) (now : Clock) (packet : PacketT) : CustodyCall
  /-- `FlowHashTable::flow_scrubber` -/
  | flowScrubber (now : ℕ → Int) (timeout : Int) : CustodyCall
  /-- the flow-queue thread deletes the first flow of the queue -/
  | deleteQueued : CustodyCall
  /-- `FlowHashTable::clear` -/
  | clear : CustodyCall

namespace Custody

/-- Before the first packet. -/
def start : Custody := { table := .new, handed := 0, freed := [] }

/-- The table after a call, with the destructors of the flows that the call deleted. -/
def destroy (s : Custody) (table : FlowHashTable) : Custody :=
  let gone := table.deleted.drop s.table.deleted.length
  { s with table := table, freed := s.freed ++ held table.hooked gone }

/-- The table after a call that took one more packet over; `reset` are the packets that
the call of `Flow::reset` freed. -/
def receive (s : Custody) (reset : List ℕ) (table : FlowHashTable) : Custody :=
  { s with
    handed := s.handed + 1
    freed := s.freed ++ reset ++ table.freed.drop s.table.freed.length }.destroy table

/-- `FlowHashTable::add_packet`. -/
def addPacket (s : Custody) (mem : Flow) (now : Clock) (packet : PacketT) : Option Custody := do
  let packet := packet.numbered s.handed
  let found ← s.table.taker packet
  let table ← s.table.addPacket mem.nullChains now packet
  match found with
  | some (f, src) => some (s.receive ((s.table.flows f).freedByReset packet src) table)
  | none => some (s.receive [] table)

/-- A call. -/
def step (s : Custody) : CustodyCall → Option Custody
  | .addPacket mem now packet => s.addPacket mem now packet
  | .flowScrubber now timeout => (s.table.flowScrubber now timeout).map fun r => s.destroy r.1
  | .deleteQueued =>
      match s.table.fq with
      | [] => some s
      | f :: fq => some (s.destroy { s.table with fq := fq, deleted := s.table.deleted ++ [f] })
  | .clear => s.table.clear.map s.destroy

/-- Every packet handed over was freed once, or is once on a chain of a flow; and the
nodes of a direction point to packets on the chain of that direction. -/
structure Owned (s : Custody) : Prop where
  once : Conserved (List.range s.handed) s.freed s.table.hooked s.table.alive
  nodes : ∀ f ∈ s.table.alive, ∀ src, ∀ n ∈ ((s.table.flows f).order.dir src).nodes,
    ∀ p, n.pkt = some p → p.addr ∈ (s.table.flows f).chain src

/-- A packet that is to be hooked on a chain finds fewer than 2^32 packets there. -/
def HasRoom (s : Custody) : CustodyCall → Prop
  | .addPacket _ _ packet =>
      ∀ f src, s.table.taker packet = some (some (f, src)) → Stored packet src →
        ((s.table.flows f).chain src).length < 2 ^ 32
  | _ => True

end Custody

/-! ## What `Flow::add_packet` does to the chains -/

section AddPacket

variable (f : Flow) (now : Clock) (packet : PacketT) (src : Bool)

@[simp] theorem Flow.calPacket_chain (dir : Bool) :
    (f.calPacket now packet src).chain dir = f.chain dir := by
  cases src <;> cases dir <;> rfl

@[simp] theorem Flow.calPacket_chainN (dir : Bool) :
    (f.calPacket now packet src).chainN dir = f.chainN dir := by
  cases src <;> cases dir <;> rfl

@[simp] theorem Flow.setSyn_chain (dir : Bool) : (f.setSyn packet).chain dir = f.chain dir := rfl

@[simp] theorem Flow.setSyn_chainN (dir : Bool) : (f.setSyn packet).chainN dir = f.chainN dir := rfl

@[simp] theorem Flow.reset_chain (dir : Bool) : f.reset.chain dir = [] := by
  cases dir <;> rfl

@[simp] theorem Flow.reset_chainN (dir : Bool) : f.reset.chainN dir = 0 := by
  cases dir <;> rfl

theorem Flow.hookPacket_chain (dir : Bool) :
    (f.hookPacket packet src).chain dir =
        (if dir = src then hookChain (f.chain dir) (f.chainN dir) packet else f.chain dir) ∧
      (f.hookPacket packet src).chainN dir =
        if dir = src then f.chainN dir + 1 else f.chainN dir := by
  cases src <;> cases dir <;> exact ⟨rfl, rfl⟩

/-- The chain of a direction and its counter after `add_packet`. -/
theorem Flow.addPacket_chain (dir : Bool) :
    (f.addPacket now packet src).flow.chain dir =
        (if Stored packet src ∧ dir = src then hookChain (f.chain dir) (f.chainN dir) packet
        else if RepeatedSyn f packet src then [] else f.chain dir) ∧
      (f.addPacket now packet src).flow.chainN dir =
        (if Stored packet src ∧ dir = src then f.chainN dir + 1
        else if RepeatedSyn f packet src then 0 else f.chainN dir) := by
  rcases Flow.addPacket_cases f now packet src with ⟨hd, hres⟩ | ⟨-, hflag, hres⟩ |
    ⟨hsrc, hsyn, hres⟩ | ⟨hst, hres⟩ | ⟨htype, -, -, hsyn, hres⟩ <;> rw [hres]
  · obtain ⟨hnot, hrep⟩ := not_stored_of_flag f packet src (.inl hd.1)
    simp [hnot, hrep]
  · obtain ⟨hnot, hrep⟩ := not_stored_of_flag f packet src hflag
    simp only [hnot, hrep, false_and, if_false]
    exact ⟨f.calPacket_chain now _ src dir, f.calPacket_chainN now _ src dir⟩
  · have hnot : ¬ Stored packet src := fun hst => hst.2.2.2 ⟨hsrc, hsyn⟩
    subst hsrc
    by_cases hn : f.pktsSrc = 0 <;> simp [hnot, RepeatedSyn, hsyn, hn]
  · have hrep := hst.not_repeatedSyn f
    simpa [hst, hrep] using Flow.hookPacket_chain f packet src dir
  · have hnot : ¬ Stored packet src := fun hst => hst.1 htype
    have hrep : ¬ RepeatedSyn f packet src := fun hrep => hsyn ⟨hrep.1, hrep.2.1⟩
    simp [hnot, hrep]

/-- `add_packet` frees the packet unless it stores it. -/
theorem Flow.addPacket_freed :
    (f.addPacket now packet src).freed = !decide (Stored packet src) := by
  rcases Flow.addPacket_cases f now packet src with ⟨hd, hres⟩ | ⟨-, hflag, hres⟩ |
    ⟨hsrc, hsyn, hres⟩ | ⟨hst, hres⟩ | ⟨htype, -, -, -, hres⟩ <;> rw [hres]
  · simp [(not_stored_of_flag f packet src (.inl hd.1)).1]
  · simp [(not_stored_of_flag f packet src hflag).1]
  · simp [Stored, hsrc, hsyn]
  · simp [hst]
  · simp [Stored, htype]

/-- A packet of a node after `add_packet` was one of a node before, or is the packet that
is stored. -/
theorem Flow.addPacket_nodes (hdrop : ¬ DropsFlow f packet) {dir : Bool} {n : SeqT} {p : PacketT}
    (hn : n ∈ ((f.addPacket now packet src).flow.order.dir dir).nodes) (hp : n.pkt = some p) :
    (n ∈ (f.order.dir dir).nodes ∧ ¬ RepeatedSyn f packet src) ∨
      (Stored packet src ∧ dir = src ∧ p.addr = packet.addr) := by
  obtain ⟨old, hold, hnodes⟩ := Flow.addPacket_perm f now packet src hdrop dir
  have hmem : n ∈ old → n ∈ (f.order.dir dir).nodes ∧ ¬ RepeatedSyn f packet src := by
    intro hn
    rcases hold with ⟨rfl, hrep⟩ | rfl
    · exact ⟨hn, hrep⟩
    · cases hn
  rcases hnodes with hsame | ⟨hdir, m, hm, hcut, hperm⟩
  · exact .inl (hmem (hsame ▸ hn))
  · rcases List.mem_cons.mp (hperm.mem_iff.mp hn) with rfl | hn
    · obtain ⟨dl, data, rfl⟩ := hcut p hp
      refine .inr ⟨?_, hdir, rfl⟩
      -- a packet that is not stored has a node without packet
      by_contra hnot
      have htype := hm.type
      simp [hp, arrivalSeq, hnot] at htype
    · exact .inl (hmem hn)

/-- With room in the chain, `add_packet` keeps what it holds unless it resets the flow, and
adds the packet it stores. -/
theorem Flow.addPacket_chain_of_room (dir : Bool)
    (hcount : f.chainN dir = UInt32.ofNat (f.chain dir).length)
    (hroom : Stored packet src → dir = src → (f.chain dir).length < 2 ^ 32) :
    (f.addPacket now packet src).flow.chain dir =
      (if RepeatedSyn f packet src then [] else f.chain dir) ++
        if Stored packet src ∧ dir = src then [packet.addr] else [] := by
  rw [(Flow.addPacket_chain f now packet src dir).1]
  by_cases hst : Stored packet src ∧ dir = src
  · have hrep := hst.1.not_repeatedSyn f
    have hlt := hroom hst.1 hst.2
    rw [if_pos hst, if_pos hst, if_neg hrep]
    unfold hookChain
    split
    · next hzero =>
        -- a counter of zero with room is an empty chain
        rw [hcount, ← UInt32.toNat_inj, UInt32.toNat_ofNat', Nat.mod_eq_of_lt hlt] at hzero
        rw [List.length_eq_zero_iff.mp hzero, List.nil_append]
    · rfl
  · simp [hst]

/-- With room in the chain, its counter does not wrap. -/
theorem Flow.addPacket_counted (dir : Bool) (hle : (f.chain dir).length ≤ 2 ^ 32)
    (hcount : f.chainN dir = UInt32.ofNat (f.chain dir).length)
    (hroom : Stored packet src → dir = src → (f.chain dir).length < 2 ^ 32) :
    ((f.addPacket now packet src).flow.chain dir).length ≤ 2 ^ 32 ∧
      (f.addPacket now packet src).flow.chainN dir =
        UInt32.ofNat ((f.addPacket now packet src).flow.chain dir).length := by
  rw [Flow.addPacket_chain_of_room f now packet src dir hcount hroom,
    (Flow.addPacket_chain f now packet src dir).2]
  by_cases hst : Stored packet src ∧ dir = src
  · have hrep := hst.1.not_repeatedSyn f
    have hlt := hroom hst.1 hst.2
    rw [if_neg hrep, if_pos hst, if_pos hst, hcount, List.length_append, List.length_singleton,
      UInt32.ofNat_add]
    exact ⟨hlt, rfl⟩
  · rw [if_neg hst, if_neg hst, List.append_nil]
    split
    · exact ⟨Nat.zero_le _, rfl⟩
    · exact ⟨hle, hcount⟩

/-- With room in the chain, the nodes still point into it. -/
theorem Flow.addPacket_points (dir : Bool) (hdrop : ¬ DropsFlow f packet)
    (hcount : f.chainN dir = UInt32.ofNat (f.chain dir).length)
    (hroom : Stored packet src → dir = src → (f.chain dir).length < 2 ^ 32)
    (hpoints : ∀ n ∈ (f.order.dir dir).nodes, ∀ p, n.pkt = some p → p.addr ∈ f.chain dir) :
    ∀ n ∈ ((f.addPacket now packet src).flow.order.dir dir).nodes, ∀ p, n.pkt = some p →
      p.addr ∈ (f.addPacket now packet src).flow.chain dir := by
  intro n hn p hp
  rw [Flow.addPacket_chain_of_room f now packet src dir hcount hroom, List.mem_append]
  rcases Flow.addPacket_nodes f now packet src hdrop hn hp with ⟨hn, hrep⟩ | ⟨hst, hdir, haddr⟩
  · rw [if_neg hrep]
    exact .inl (hpoints n hn p hp)
  · right
    rw [if_pos ⟨hst, hdir⟩]
    exact List.mem_singleton.mpr haddr

end AddPacket

/-- The flow has the same chains and nodes. -/
structure Flow.SamePackets (f f' : Flow) : Prop where
  chain_eq : ∀ src, f'.chain src = f.chain src
  chainN_eq : ∀ src, f'.chainN src = f.chainN src
  order_eq : f'.order = f.order

theorem Flow.SamePackets.hooked_eq {f f' : Flow} (h : f.SamePackets f') : f'.hooked = f.hooked :=
  congrArg₂ (· ++ ·) (h.chain_eq false) (h.chain_eq true)

/-! ## The flows that exist -/

namespace FlowHashTable

variable {t t' : FlowHashTable}

theorem mem_alive {f : ℕ} : f ∈ t.alive ↔ f < t.fresh ∧ f ∉ t.deleted := by
  simp [alive]

theorem nodup_alive : t.alive.Nodup := List.nodup_range.filter _

/-- The flows left after some were deleted. -/
theorem alive_of_deleted {gone : List ℕ} (hfresh : t'.fresh = t.fresh)
    (hdeleted : t'.deleted = t.deleted ++ gone) : t'.alive = t.alive.filter (· ∉ gone) := by
  unfold alive
  rw [hfresh, hdeleted, List.filter_filter]
  apply List.filter_congr
  intro f _
  simp [and_comm]

/-- The flows after one was created. -/
theorem alive_of_created (hfresh : t'.fresh = t.fresh + 1) (hdeleted : t'.deleted = t.deleted)
    (hnew : t.fresh ∉ t.deleted) : t'.alive = t.alive ++ [t.fresh] := by
  unfold alive
  rw [hfresh, hdeleted, List.range_succ, List.filter_append]
  simp [hnew]

end FlowHashTable

/-- The flow that takes the packet is linked, and gets it; or `find` finds none. -/
theorem Shape.taker_cases {t : FlowHashTable} {chain : ℕ → List ℕ} (h : Shape t chain)
    (packet : PacketT) :
    (∃ i f src, f ∈ chain i ∧ (t.flows f).socket = packet.flowSocket src ∧
      t.taker packet = some (some (f, src)) ∧
      ∀ mem now, t.addPacket mem now packet = t.flowAddPacket f now packet src) ∨
    (t.taker packet = some none ∧ t.find packet.socket.flip = some none ∧
      t.find packet.socket = some none ∧ (t.Roomy → NoFlow t chain packet)) := by
  unfold FlowHashTable.taker FlowHashTable.addPacket
  rcases h.find_cases packet.socket.flip with ⟨f, hf, hrev, hsocket⟩ | ⟨hrev, hnorev⟩
  · exact .inl ⟨_, f, false, hf, hsocket, by simp [hrev], by simp [hrev]⟩
  rcases h.find_cases packet.socket with ⟨f, hf, hfwd, hsocket⟩ | ⟨hfwd, hnofwd⟩
  · exact .inl ⟨_, f, true, hf, hsocket, by simp [hrev, hfwd], by simp [hrev, hfwd]⟩
  · exact .inr ⟨by simp [hrev, hfwd], hrev, hfwd, fun hroomy i f hf =>
      ⟨hnofwd hroomy i f hf, hnorev hroomy i f hf⟩⟩

/-! ## What every call keeps -/

namespace Custody

/-- Linked and queued flows exist, and the counters of the linked ones have not wrapped. -/
structure InvBy (s : Custody) (chain : ℕ → List ℕ) : Prop where
  shape : Shape s.table chain
  linked : ∀ i, ∀ f ∈ chain i, f ∈ s.table.alive ∧ f ∉ s.table.fq
  queued : ∀ f ∈ s.table.fq, f ∈ s.table.alive
  queued_once : s.table.fq.Nodup
  deleted_lt : ∀ f ∈ s.table.deleted, f < s.table.fresh
  counted : ∀ i, ∀ f ∈ chain i, ∀ src, ((s.table.flows f).chain src).length ≤ 2 ^ 32 ∧
    (s.table.flows f).chainN src = UInt32.ofNat ((s.table.flows f).chain src).length
  owned : s.Owned

@[simp] theorem destroy_table (s : Custody) (table : FlowHashTable) :
    (s.destroy table).table = table := rfl

@[simp] theorem receive_table (s : Custody) (reset : List ℕ) (table : FlowHashTable) :
    (s.receive reset table).table = table := rfl

@[simp] theorem receive_handed (s : Custody) (reset : List ℕ) (table : FlowHashTable) :
    (s.receive reset table).handed = s.handed + 1 := rfl

/-- The invariant of the packets. -/
def Inv (s : Custody) : Prop := ∃ chain, s.InvBy chain

theorem invBy_start : start.InvBy fun _ => [] where
  shape := Shape.new
  linked := by simp
  queued := by simp [start, FlowHashTable.new]
  queued_once := List.nodup_nil
  deleted_lt := by simp [start, FlowHashTable.new]
  counted := by simp
  owned := ⟨List.Perm.refl _, by simp [start, FlowHashTable.alive, FlowHashTable.new]⟩

theorem inv_start : start.Inv := ⟨_, invBy_start⟩

namespace InvBy

variable {s : Custody} {chain chain' : ℕ → List ℕ} {t' : FlowHashTable}

/-- Flows go, with what is hooked on them, or move to the queue. -/
theorem destroyed (h : s.InvBy chain) {gone : List ℕ} (hshape : Shape t' chain')
    (hmem : ∀ i, ∀ f ∈ chain' i, f ∈ chain i ∧ f ∉ gone ∧ f ∉ t'.fq)
    (hsame : ∀ f, (s.table.flows f).SamePackets (t'.flows f))
    (hfq : ∀ f ∈ t'.fq, f ∈ s.table.alive ∧ f ∉ gone) (honce : t'.fq.Nodup)
    (hfresh : t'.fresh = s.table.fresh) (hdeleted : t'.deleted = s.table.deleted ++ gone)
    (hgone : gone.Nodup) (hsub : ∀ f ∈ gone, f ∈ s.table.alive) : (s.destroy t').InvBy chain' := by
  have halive : t'.alive = s.table.alive.filter (· ∉ gone) :=
    FlowHashTable.alive_of_deleted hfresh hdeleted
  have hin : ∀ f, f ∈ t'.alive ↔ f ∈ s.table.alive ∧ f ∉ gone := by
    intro f
    rw [halive, List.mem_filter, decide_eq_true_eq]
  have hhooked : t'.hooked = s.table.hooked := funext fun f => (hsame f).hooked_eq
  exact
    { shape := hshape
      linked := fun i f hf =>
        ⟨(hin f).mpr ⟨(h.linked i f (hmem i f hf).1).1, (hmem i f hf).2.1⟩, (hmem i f hf).2.2⟩
      queued := fun f hf => (hin f).mpr (hfq f hf)
      queued_once := honce
      deleted_lt := by
        intro f hf
        rw [destroy_table, hdeleted] at hf
        rw [destroy_table, hfresh]
        rcases List.mem_append.mp hf with hf | hf
        · exact h.deleted_lt f hf
        · exact (FlowHashTable.mem_alive.mp (hsub f hf)).1
      counted := by
        intro i f hf src
        rw [destroy_table, (hsame f).chain_eq, (hsame f).chainN_eq]
        exact h.counted i f (hmem i f hf).1 src
      owned :=
        { once := by
            have hretire := h.owned.once.retire FlowHashTable.nodup_alive hgone hsub
            unfold destroy
            dsimp only
            rw [hdeleted, List.drop_left, hhooked, halive]
            exact hretire
          nodes := by
            intro f hf src
            rw [destroy_table, (hsame f).order_eq, (hsame f).chain_eq]
            exact h.owned.nodes f ((hin f).mp hf).1 src } }

/-- The scrubber moves flows to the queue. -/
theorem scrubbed (h : s.InvBy chain) {now : ℕ → Int} {timeout : Int} {out : List ℕ}
    (hs : Swept now timeout s.table t' chain chain' out) : (s.destroy t').InvBy chain' := by
  have hout : ∀ f ∈ out, f ∈ s.table.alive ∧ f ∉ s.table.fq := by
    intro f hf
    obtain ⟨i, hi⟩ := hs.linked f hf
    exact h.linked i f hi
  refine h.destroyed hs.shape (fun i f hf => ?_) (fun f => ?_) (fun f hf => ?_) ?_
    hs.fresh_eq (by simp [hs.deleted_eq]) List.nodup_nil (by simp)
  · have hold := (hs.mem_iff i f).mp hf
    refine ⟨hold.1, by simp, fun hq => ?_⟩
    rcases List.mem_append.mp (hs.fq_eq ▸ hq) with hq | hq
    · exact (h.linked i f hold.1).2 hq
    · exact hold.2 hq
  · rw [hs.flows_eq]
    split
    · exact ⟨fun _ => rfl, fun _ => rfl, rfl⟩
    · exact ⟨fun _ => rfl, fun _ => rfl, rfl⟩
  · refine ⟨?_, by simp⟩
    rcases List.mem_append.mp (hs.fq_eq ▸ hf) with hf | hf
    · exact h.queued f hf
    · exact (hout f hf).1
  · rw [hs.fq_eq]
    exact List.nodup_append.mpr ⟨h.queued_once, hs.nodup,
      fun f hf g hg heq => (hout g hg).2 (heq ▸ hf)⟩

/-- The flow-queue thread deletes the first flow of the queue. -/
theorem deletedQueued (h : s.InvBy chain) {f : ℕ} {fq : List ℕ} (hfq : s.table.fq = f :: fq) :
    (s.destroy { s.table with fq := fq, deleted := s.table.deleted ++ [f] }).InvBy chain := by
  have honce := List.nodup_cons.mp (hfq ▸ h.queued_once)
  have hlinked : ∀ i, ∀ g ∈ chain i, g ∉ f :: fq := fun i g hg => hfq ▸ (h.linked i g hg).2
  refine h.destroyed (h.shape.logs _ _ _) (fun i g hg => ?_) (fun g => ?_)
    (fun g hg => ?_) honce.2 rfl rfl (List.nodup_singleton f) ?_
  · have hnot := hlinked i g hg
    rw [List.mem_cons, not_or] at hnot
    exact ⟨hg, by simpa using hnot.1, hnot.2⟩
  · exact ⟨fun _ => rfl, fun _ => rfl, rfl⟩
  · refine ⟨h.queued g (by simp [hfq, hg]), ?_⟩
    rw [List.mem_singleton]
    rintro rfl
    exact honce.1 hg
  · intro g hg
    exact h.queued g (by simp [hfq, List.mem_singleton.mp hg])

/-- `clear` deletes the flows of the table. -/
theorem cleared (h : s.InvBy chain) (hshape : Shape t' fun _ => [])
    (hc : Cleared s.table t' ((List.range HASH_SIZE).flatMap chain)) :
    (s.destroy t').InvBy fun _ => [] := by
  have hgone : ∀ f, f ∈ (List.range HASH_SIZE).flatMap chain → ∃ i, f ∈ chain i := by
    intro f hf
    obtain ⟨i, -, hi⟩ := List.mem_flatMap.mp hf
    exact ⟨i, hi⟩
  refine h.destroyed hshape (by simp)
    (fun f => ?_) (fun f hf => ?_) (by rw [hc.fq_eq]; exact h.queued_once) hc.fresh_eq
    hc.deleted_eq ?_ (fun f hf => ?_)
  · rw [hc.flows_eq]
    exact ⟨fun _ => rfl, fun _ => rfl, rfl⟩
  · rw [hc.fq_eq] at hf
    refine ⟨h.queued f hf, fun hin => ?_⟩
    obtain ⟨i, hi⟩ := hgone f hin
    exact (h.linked i f hi).2 hf
  · refine List.nodup_flatMap.mpr ⟨fun i _ => h.shape.nodup i, ?_⟩
    refine List.nodup_range.pairwise_of_forall_ne fun i _ j _ hij f hi hj => ?_
    exact hij (h.shape.bucket_unique hi hj)
  · obtain ⟨i, hi⟩ := hgone f hf
    exact (h.linked i f hi).1

/-- A new flow has nothing hooked on it. -/
theorem created (h : s.InvBy chain) {mem : Flow} {sock : FlowS} (hsrc : mem.pktSrc = [])
    (hdst : mem.pktDst = []) (hnew : Shape.Created s.table t' chain chain' mem sock) :
    ({ s with table := t' } : Custody).InvBy chain' := by
  have hapart : s.table.fresh ∉ s.table.deleted := fun hd => Nat.lt_irrefl _ (h.deleted_lt _ hd)
  have halive : t'.alive = s.table.alive ++ [s.table.fresh] :=
    FlowHashTable.alive_of_created hnew.fresh_eq hnew.deleted_eq hapart
  have hold : ∀ f ∈ s.table.alive, t'.flows f = s.table.flows f := by
    intro f hf
    rw [hnew.flows_eq, update_of_ne (Nat.ne_of_lt (FlowHashTable.mem_alive.mp hf).1)]
  have hself : t'.flows s.table.fresh = Flow.new mem sock := by
    rw [hnew.flows_eq, update_self]
  have hempty : ∀ src, (Flow.new mem sock).chain src = [] := by
    intro src
    cases src
    · exact hdst
    · exact hsrc
  exact
    { shape := hnew.shape
      linked := by
        intro i f hf
        show f ∈ t'.alive ∧ f ∉ t'.fq
        rw [halive, hnew.fq_eq, List.mem_append, List.mem_singleton]
        rcases hnew.mem_chain i f hf with hf | ⟨rfl, -⟩
        · exact ⟨.inl (h.linked i f hf).1, (h.linked i f hf).2⟩
        · refine ⟨.inr rfl, fun hq => ?_⟩
          exact Nat.lt_irrefl _ (FlowHashTable.mem_alive.mp (h.queued _ hq)).1
      queued := by
        intro f hf
        show f ∈ t'.alive
        rw [halive]
        exact List.mem_append_left _ (h.queued f (hnew.fq_eq ▸ hf))
      queued_once := by
        show t'.fq.Nodup
        rw [hnew.fq_eq]
        exact h.queued_once
      deleted_lt := by
        intro f hf
        show f < t'.fresh
        rw [hnew.fresh_eq]
        exact Nat.lt_succ_of_lt (h.deleted_lt f (hnew.deleted_eq ▸ hf))
      counted := by
        intro i f hf src
        show ((t'.flows f).chain src).length ≤ 2 ^ 32 ∧ (t'.flows f).chainN src = _
        rcases hnew.mem_chain i f hf with hf | ⟨rfl, -⟩
        · rw [hold f (h.linked i f hf).1]
          exact h.counted i f hf src
        · rw [hself, hempty]
          cases src <;> exact ⟨Nat.zero_le _, rfl⟩
      owned :=
        { once := by
            show Conserved (List.range s.handed) s.freed t'.hooked t'.alive
            rw [halive]
            refine h.owned.once.enter ?_ fun f hf => ?_
            · show (t'.flows s.table.fresh).hooked = []
              rw [hself]
              exact congrArg₂ (· ++ ·) hdst hsrc
            · show (t'.flows f).hooked = _
              rw [hold f hf]
              rfl
          nodes := by
            intro f hf src n hn p hp
            change n ∈ ((t'.flows f).order.dir src).nodes at hn
            show p.addr ∈ (t'.flows f).chain src
            change f ∈ t'.alive at hf
            rw [halive, List.mem_append, List.mem_singleton] at hf
            rcases hf with hf | rfl
            · rw [hold f hf] at hn ⊢
              exact h.owned.nodes f hf src n hn p hp
            · rw [hself] at hn
              cases src <;> cases hn } }

/-- What is freed when the table took the packet over. -/
theorem receive_freed {f : ℕ} {r : AddResult} {packet : PacketT} (reset : List ℕ)
    (hadded : Shape.Added s.table t' chain chain' f r packet) :
    (s.receive reset t').freed = s.freed ++ reset ++ (if r.freed then [packet.addr] else []) ++
      held t'.hooked (if r.verdict = .drop then [f] else []) := by
  unfold receive destroy
  dsimp only
  rw [hadded.freed_eq, hadded.deleted_eq, List.drop_left, List.drop_left]

/-- A packet that no flow takes is freed. -/
theorem passed (h : s.InvBy chain) :
    (s.receive [] { s.table with freed := s.table.freed ++ [s.handed] }).InvBy chain where
  shape := h.shape.logs _ _ _
  linked := h.linked
  queued := h.queued
  queued_once := h.queued_once
  deleted_lt := h.deleted_lt
  counted := h.counted
  owned :=
    { once := by
        have hpass := h.owned.once.pass s.handed
        have hfreed : (s.receive [] { s.table with freed := s.table.freed ++ [s.handed] }).freed =
            s.freed ++ [s.handed] := by
          simp [receive, destroy, held]
        rw [hfreed, receive_handed, List.range_succ]
        exact hpass
      nodes := h.owned.nodes }

/-- What the flows hold after one of them took the packet. -/
theorem hooked_received {f : ℕ} {r : AddResult} {packet : PacketT}
    (hadded : Shape.Added s.table t' chain chain' f r packet) :
    t'.hooked = update s.table.hooked f r.flow.hooked := by
  funext g
  unfold FlowHashTable.hooked
  rw [hadded.flows_eq]
  by_cases hg : g = f
  · subst hg
    simp
  · simp [hg]

/-- Before a flow that the packet ends is deleted, all packets are accounted for. -/
theorem received_once (h : s.InvBy chain) {i f : ℕ} (hf : f ∈ chain i) (now : Clock)
    {packet : PacketT} {src : Bool} (haddr : packet.addr = s.handed)
    (hroom : Stored packet src → ((s.table.flows f).chain src).length < 2 ^ 32) :
    Conserved (List.range (s.handed + 1))
      (s.freed ++ (s.table.flows f).freedByReset packet src ++
        if ((s.table.flows f).addPacket now packet src).freed then [packet.addr] else [])
      (update s.table.hooked f ((s.table.flows f).addPacket now packet src).flow.hooked)
      s.table.alive := by
  have hin := (h.linked i f hf).1
  have hchain : ∀ dir, ((s.table.flows f).addPacket now packet src).flow.chain dir = _ :=
    fun dir => Flow.addPacket_chain_of_room _ now packet src dir (h.counted i f hf dir).2
      fun hst hdir => hdir ▸ hroom hst
  rw [List.range_succ, Flow.addPacket_freed, haddr]
  unfold Flow.freedByReset
  by_cases hst : Stored packet src
  · have hrep := hst.not_repeatedSyn (s.table.flows f)
    have hhook : ((s.table.flows f).addPacket now packet src).flow.hooked.Perm
        (s.table.hooked f ++ [s.handed]) := by
      show (Flow.chain _ false ++ Flow.chain _ true).Perm _
      rw [hchain, hchain, haddr]
      cases src with
      | true =>
          simp only [hst, hrep, if_false, Bool.false_eq_true, and_false, and_self, if_true,
            List.append_nil]
          exact List.Perm.of_eq (List.append_assoc _ _ _).symm
      | false =>
          simp only [hst, hrep, if_false, Bool.true_eq_false, and_false, and_self, if_true,
            List.append_nil, List.append_assoc]
          show (Flow.chain _ false ++ _).Perm (Flow.chain _ false ++ Flow.chain _ true ++ _)
          rw [List.append_assoc]
          exact List.perm_append_comm.append_left _
    simpa [hst, hrep] using h.owned.once.take FlowHashTable.nodup_alive hin hhook
  · by_cases hrep : RepeatedSyn (s.table.flows f) packet src
    · have hempty : ((s.table.flows f).addPacket now packet src).flow.hooked = [] := by
        show Flow.chain _ false ++ Flow.chain _ true = []
        rw [hchain, hchain]
        simp [hst, hrep]
      have hpass : Conserved _ (s.freed ++ (s.table.flows f).hooked ++ [s.handed]) _ _ :=
        (h.owned.once.release FlowHashTable.nodup_alive hin).pass s.handed
      rw [hempty]
      simpa [hst, hrep] using hpass
    · have hsame : ((s.table.flows f).addPacket now packet src).flow.hooked = s.table.hooked f := by
        show Flow.chain _ false ++ Flow.chain _ true = _
        rw [hchain, hchain]
        simp only [hst, hrep, false_and, if_false, List.append_nil]
        rfl
      rw [hsame, update_eq_self]
      simpa [hst, hrep] using h.owned.once.pass s.handed

/-- The flows that are left when one of them took the packet. -/
theorem alive_received {f : ℕ} {r : AddResult} {packet : PacketT}
    (hadded : Shape.Added s.table t' chain chain' f r packet) (g : ℕ) :
    g ∈ t'.alive ↔ g ∈ s.table.alive ∧ (g = f → r.verdict ≠ .drop) := by
  rw [FlowHashTable.mem_alive, FlowHashTable.mem_alive, hadded.fresh_eq, hadded.mem_deleted_iff,
    not_or, not_and, and_assoc]

section Received

variable {i f : ℕ} {now : Clock} {packet : PacketT} {src : Bool}

/-- The other flows are as they were, and the counters of the flow that takes the packet have not
wrapped. -/
theorem received_counted (h : s.InvBy chain) (hf : f ∈ chain i)
    (hadded : Shape.Added s.table t' chain chain' f
      ((s.table.flows f).addPacket now packet src) packet)
    (hroom : Stored packet src → ((s.table.flows f).chain src).length < 2 ^ 32) {j g : ℕ}
    (hg : g ∈ chain j) (dir : Bool) : ((t'.flows g).chain dir).length ≤ 2 ^ 32 ∧
      (t'.flows g).chainN dir = UInt32.ofNat ((t'.flows g).chain dir).length := by
  rw [hadded.flows_eq]
  by_cases hgf : g = f
  · subst hgf
    rw [update_self]
    obtain ⟨hle, hcount⟩ := h.counted i g hf dir
    exact Flow.addPacket_counted _ now packet src dir hle hcount
      fun hst hdir => hdir ▸ hroom hst
  · rw [update_of_ne hgf]
    exact h.counted j g hg dir

/-- The nodes still point into the chains. -/
theorem received_points (h : s.InvBy chain) (hf : f ∈ chain i)
    (hadded : Shape.Added s.table t' chain chain' f
      ((s.table.flows f).addPacket now packet src) packet)
    (hroom : Stored packet src → ((s.table.flows f).chain src).length < 2 ^ 32) :
    ∀ g ∈ t'.alive, ∀ dir, ∀ n ∈ ((t'.flows g).order.dir dir).nodes, ∀ p, n.pkt = some p →
      p.addr ∈ (t'.flows g).chain dir := by
  intro g hg dir
  obtain ⟨hold, hkeep⟩ := (alive_received hadded g).mp hg
  rw [hadded.flows_eq]
  by_cases hgf : g = f
  · subst hgf
    rw [update_self]
    refine Flow.addPacket_points _ now packet src dir (fun hd => hkeep rfl ?_)
      (h.counted i g hf dir).2 (fun hst hdir => hdir ▸ hroom hst) (h.owned.nodes g hold dir)
    rw [Flow.addPacket_drop _ now packet src hd]
  · rw [update_of_ne hgf]
    exact h.owned.nodes g hold dir

/-- **The flow that takes the packet** hooks it, where the chain has room, or frees it. -/
theorem received (h : s.InvBy chain) (hf : f ∈ chain i) (haddr : packet.addr = s.handed)
    (hadded : Shape.Added s.table t' chain chain' f
      ((s.table.flows f).addPacket now packet src) packet)
    (hroom : Stored packet src → ((s.table.flows f).chain src).length < 2 ^ 32) :
    (s.receive ((s.table.flows f).freedByReset packet src) t').InvBy chain' := by
  have hlinked := h.linked i f hf
  have honce := h.received_once hf now haddr hroom
  have hfreed := receive_freed ((s.table.flows f).freedByReset packet src) hadded
  have hhooked := hooked_received hadded
  have hin := alive_received hadded
  have hleft := hadded.mem_chain_iff
  have hqueue := hadded.mem_fq_iff
  have halive := FlowHashTable.alive_of_deleted hadded.fresh_eq hadded.deleted_eq
  exact
    { shape := hadded.shape
      linked := by
        intro j g hg
        obtain ⟨hold, hkeep⟩ := (hleft j g).mp hg
        obtain ⟨hgalive, hnot⟩ := h.linked j g hold
        refine ⟨(hin g).mpr ⟨hgalive, fun heq => by rw [hkeep heq]; decide⟩, fun hq => ?_⟩
        rcases (hqueue g).mp hq with hq | ⟨heq, hfinish⟩
        · exact hnot hq
        · rw [hkeep heq] at hfinish
          cases hfinish
      queued := by
        intro g hg
        rcases (hqueue g).mp hg with hg | ⟨rfl, hfinish⟩
        · exact (hin g).mpr ⟨h.queued g hg, fun heq => absurd (heq ▸ hg) hlinked.2⟩
        · exact (hin g).mpr ⟨hlinked.1, fun _ => by rw [hfinish]; decide⟩
      queued_once := by
        rw [receive_table, hadded.fq_eq]
        split
        · exact List.nodup_append.mpr ⟨h.queued_once, List.nodup_singleton f,
            fun g hg g' hg' heq => hlinked.2 (List.mem_singleton.mp hg' ▸ heq ▸ hg)⟩
        · rw [List.append_nil]
          exact h.queued_once
      deleted_lt := by
        intro g hg
        rw [receive_table, hadded.fresh_eq]
        rcases (hadded.mem_deleted_iff g).mp hg with hg | ⟨rfl, -⟩
        · exact h.deleted_lt g hg
        · exact (FlowHashTable.mem_alive.mp hlinked.1).1
      counted := fun j g hg => h.received_counted hf hadded hroom ((hleft j g).mp hg).1
      owned :=
        { once := by
            unfold Conserved
            rw [hfreed, receive_table, halive, hhooked]
            refine honce.retire FlowHashTable.nodup_alive ?_ ?_
            · split
              · exact List.nodup_singleton f
              · exact List.nodup_nil
            · intro g hg
              split at hg
              · exact List.mem_singleton.mp hg ▸ hlinked.1
              · cases hg
          nodes := h.received_points hf hadded hroom } }

end Received

/-- **A full chain** is dropped by the flow that takes the packet. -/
theorem overflows (h : s.InvBy chain) {i f : ℕ} (hf : f ∈ chain i) {now : Clock}
    {packet : PacketT} {src : Bool}
    (hadded : Shape.Added s.table t' chain chain' f
      ((s.table.flows f).addPacket now packet src) packet)
    (hst : Stored packet src) (hfull : ¬ ((s.table.flows f).chain src).length < 2 ^ 32) :
    ¬ (s.receive ((s.table.flows f).freedByReset packet src) t').Owned := by
  intro howned
  have hle := (h.counted i f hf src).1
  have hlen : ((s.table.flows f).chain src).length = 2 ^ 32 := by omega
  have hzero : (s.table.flows f).chainN src = 0 := by
    rw [(h.counted i f hf src).2, hlen]
    rfl
  have hrep := hst.not_repeatedSyn (s.table.flows f)
  have hkeep := Flow.addPacket_stored (s.table.flows f) now packet src hst
  have hchain : ∀ dir, ((s.table.flows f).addPacket now packet src).flow.chain dir = _ :=
    fun dir => (Flow.addPacket_chain (s.table.flows f) now packet src dir).1
  have hless : ((s.table.flows f).addPacket now packet src).flow.hooked.length ≤
      (s.table.hooked f).length := by
    show (Flow.chain _ false ++ Flow.chain _ true).length ≤
      ((s.table.flows f).chain false ++ (s.table.flows f).chain true).length
    rw [hchain, hchain, List.length_append, List.length_append]
    unfold hookChain
    cases src <;> simp [hst, hrep, hzero, hlen]
  have halive : t'.alive = s.table.alive := by
    rw [FlowHashTable.alive_of_deleted hadded.fresh_eq hadded.deleted_eq, hkeep]
    simp
  have honce := howned.once
  rw [receive_freed _ hadded, receive_table, receive_handed, hooked_received hadded, halive,
    List.range_succ, Flow.addPacket_freed, hkeep] at honce
  simp only [Flow.freedByReset, hrep, hst, if_false, decide_true, Bool.not_true, Bool.false_eq_true,
    reduceCtorEq, List.append_nil, held, List.flatMap_nil] at honce
  exact h.owned.once.forget FlowHashTable.nodup_alive (h.linked i f hf).1 hless honce

end InvBy

/-- `add_packet` on the flow that takes the packet, on a flow it creates, or on none. -/
theorem addPacket_cases {s : Custody} {chain : ℕ → List ℕ} (h : Shape s.table chain) (mem : Flow)
    (now : Clock) (packet : PacketT) :
    (∃ i f src t' chain', f ∈ chain i ∧ (s.table.flows f).socket = packet.flowSocket src ∧
      s.table.taker packet = some (some (f, src)) ∧
      Shape.Added s.table t' chain chain' f
        ((s.table.flows f).addPacket now (packet.numbered s.handed) src)
        (packet.numbered s.handed) ∧
      s.addPacket mem now packet =
        some (s.receive ((s.table.flows f).freedByReset packet src) t')) ∨
    (s.table.taker packet = some none ∧ (s.table.Roomy → Shape.NoFlow s.table chain packet) ∧
      ∃ src t₁ chain₁ t' chain',
      packet.type = (if src then REQ else RSP) ∧
      Shape.Created s.table t₁ chain chain₁ mem.nullChains (packet.flowSocket src) ∧
      Shape.Added t₁ t' chain₁ chain' s.table.fresh
        ((t₁.flows s.table.fresh).addPacket now (packet.numbered s.handed) src)
        (packet.numbered s.handed) ∧
      s.addPacket mem now packet = some (s.receive [] t')) ∨
    (s.table.taker packet = some none ∧ (s.table.Roomy → Shape.NoFlow s.table chain packet) ∧
      packet.type ≠ REQ ∧ s.addPacket mem now packet =
      some (s.receive [] { s.table with freed := s.table.freed ++ [s.handed] })) := by
  unfold addPacket
  dsimp only
  rcases h.taker_cases (packet.numbered s.handed) with
    ⟨i, f, src, hf, hsocket, htaker, hadd⟩ | ⟨htaker, hrev, hfwd, hno⟩
  · obtain ⟨t', chain', hflow, hadded⟩ :=
      h.flowAddPacket_eq hf now (packet.numbered s.handed) src
    refine .inl ⟨i, f, src, t', chain', hf, hsocket, htaker, hadded, ?_⟩
    rw [htaker, hadd, hflow]
    rfl
  · right
    rcases h.addPacket_of_missed hrev hfwd mem.nullChains now with
      ⟨src, t₁, chain₁, t', chain', htype, hnew, hadd, hadded⟩ | ⟨htype, -, hadd⟩
    · refine .inl ⟨htaker, hno, src, t₁, chain₁, t', chain', htype, hnew, ?_, ?_⟩
      · rw [hnew.flows_eq, update_self]
        exact hadded
      · rw [htaker, hadd]
        rfl
    · refine .inr ⟨htaker, hno, htype, ?_⟩
      rw [htaker, hadd]
      rfl

/-- Receiving a packet does not depend on the flow created for it. -/
theorem receive_created {s : Custody} {t₁ t' : FlowHashTable} {chain chain₁ : ℕ → List ℕ}
    {mem : Flow} {sock : FlowS} (hnew : Shape.Created s.table t₁ chain chain₁ mem sock)
    (reset : List ℕ) :
    ({ s with table := t₁ } : Custody).receive reset t' = s.receive reset t' := by
  unfold receive destroy
  dsimp only
  rw [hnew.freed_eq, hnew.deleted_eq]

/-- Every call has a result, with the pointers those of some lists. -/
theorem step_defined {s : Custody} {chain : ℕ → List ℕ} (h : Shape s.table chain)
    (c : CustodyCall) : ∃ s' chain', s.step c = some s' ∧ Shape s'.table chain' := by
  cases c with
  | addPacket mem now packet =>
      rcases addPacket_cases h mem now packet with ⟨_, f, src, t', chain', -, -, -, hadded, hadd⟩ |
        ⟨-, -, _, _, _, t', chain', -, -, hadded, hadd⟩ | ⟨-, -, -, hadd⟩
      · exact ⟨_, chain', hadd, hadded.shape⟩
      · exact ⟨_, chain', hadd, hadded.shape⟩
      · exact ⟨_, chain, hadd, h.logs _ _ _⟩
  | flowScrubber now timeout =>
      obtain ⟨t', hscrub, hs⟩ := h.flowScrubber_eq now timeout
      exact ⟨s.destroy t', _, by simp [step, hscrub], hs.shape⟩
  | deleteQueued =>
      unfold step
      cases hfq : s.table.fq with
      | nil => exact ⟨s, chain, rfl, h⟩
      | cons f fq => exact ⟨_, chain, rfl, h.logs _ _ _⟩
  | clear =>
      obtain ⟨t', hclear, hshape, -, -⟩ := h.clear_eq
      exact ⟨s.destroy t', _, by simp [step, hclear], hshape⟩

/-- After a call the packets are owned exactly when the call found room, and then the
invariant holds again. -/
theorem step_owned_iff {s s' : Custody} {c : CustodyCall} (h : s.Inv) (hstep : s.step c = some s') :
    (s'.Owned ↔ s.HasRoom c) ∧ (s'.Owned → s'.Inv) := by
  obtain ⟨chain, h⟩ := h
  have hkept : ∀ chain', s'.InvBy chain' → s.HasRoom c →
      (s'.Owned ↔ s.HasRoom c) ∧ (s'.Owned → s'.Inv) :=
    fun chain' h' hroom => ⟨iff_of_true h'.owned hroom, fun _ => ⟨chain', h'⟩⟩
  cases c with
  | addPacket mem now packet =>
      rcases addPacket_cases h.shape mem now packet with
        ⟨i, f, src, t', chain', hf, -, htaker, hadded, hadd⟩ |
        ⟨htaker, -, src, t₁, chain₁, t', chain', -, hnew, hadded, hadd⟩ | ⟨htaker, -, -, hadd⟩
      · obtain rfl := Option.some.inj (hadd.symm.trans hstep)
        by_cases hroom : Stored packet src → ((s.table.flows f).chain src).length < 2 ^ 32
        · have hreceived := h.received hf rfl hadded hroom
          refine hkept chain' hreceived fun g dir hg hst => ?_
          obtain ⟨rfl, rfl⟩ : f = g ∧ src = dir := by simpa using htaker.symm.trans hg
          exact hroom hst
        · have hnot : ¬ s.HasRoom (.addPacket mem now packet) :=
            fun hr => hroom (hr f src htaker)
          rw [Classical.not_imp] at hroom
          have hlost := h.overflows hf hadded hroom.1 hroom.2
          exact ⟨iff_of_false hlost hnot, fun howned => absurd howned hlost⟩
      · obtain rfl := Option.some.inj (hadd.symm.trans hstep)
        have hcreated := h.created rfl rfl hnew
        have hnone : (t₁.flows s.table.fresh).freedByReset packet src = [] := by
          rw [hnew.flows_eq, update_self]
          exact if_neg fun hrep => hrep.2.2 rfl
        have hempty : ∀ dir, ((t₁.flows s.table.fresh).chain dir).length = 0 := by
          intro dir
          rw [hnew.flows_eq, update_self]
          cases dir <;> rfl
        have hreceived := hcreated.received hnew.linked rfl hadded fun _ => by rw [hempty]; decide
        refine hkept chain' ?_ fun g dir hg _ => ?_
        · rw [receive_created hnew] at hreceived
          rw [← hnone]
          exact hreceived
        · simp [htaker] at hg
      · obtain rfl := Option.some.inj (hadd.symm.trans hstep)
        refine hkept chain h.passed fun g dir hg _ => ?_
        simp [htaker] at hg
  | flowScrubber now timeout =>
      obtain ⟨t', hscrub, hs⟩ := h.shape.flowScrubber_eq now timeout
      obtain rfl : s.destroy t' = s' := by simpa [step, hscrub] using hstep
      exact hkept _ (h.scrubbed hs) trivial
  | deleteQueued =>
      cases hfq : s.table.fq with
      | nil =>
          obtain rfl : s = s' := by simpa [step, hfq] using hstep
          exact hkept chain h trivial
      | cons f fq =>
          have hdone := h.deletedQueued hfq
          simp only [step, hfq, Option.some.injEq] at hstep
          subst hstep
          exact hkept chain hdone trivial
  | clear =>
      obtain ⟨t', hclear, hshape, -, hc⟩ := h.shape.clear_eq
      obtain rfl : s.destroy t' = s' := by simpa [step, hclear] using hstep
      exact hkept _ (h.cleared hshape hc) trivial

end Custody

/-- **Every packet is owned once at all times exactly when** no packet is hooked on a
chain of 2^32 packets. -/
theorem packets_owned_iff (calls : List CustodyCall) :
    EveryState Custody.step Custody.Owned .start calls ↔
      EveryStep Custody.step Custody.HasRoom .start calls := by
  refine everyState_iff_everyStep (fun s hs => ?_)
    (fun s c s' hs hstep => (Custody.step_owned_iff hs hstep).1)
    (fun s c s' hs hstep => (Custody.step_owned_iff hs hstep).2) (fun s c hs hnone => ?_)
    Custody.inv_start
  · obtain ⟨chain, h⟩ := hs
    exact h.owned
  · obtain ⟨chain, h⟩ := hs
    obtain ⟨s', chain', hstep, -⟩ := Custody.step_defined h.shape c
    rw [hnone] at hstep
    cases hstep

/-! ## One packet too many -/

/-- A request packet. -/
def requestPacket : PacketT := webPacket 0 true 100 15 20 REQ

/-- That packet, `n` times. -/
def manyRequests (n : ℕ) : List CustodyCall :=
  List.replicate n (.addPacket Flow.zero ⟨0, 0⟩ requestPacket)

theorem requestPacket_stored (n : ℕ) : Stored (requestPacket.numbered n) true :=
  show Stored requestPacket true by decide

namespace Custody

/-- The flow of that packet is the only one, and holds `n` packets of its source. -/
structure Holds (s : Custody) (chain : ℕ → List ℕ) (n : ℕ) : Prop where
  inv : s.InvBy chain
  linked : ∃ i, 0 ∈ chain i
  only : ∀ i, ∀ f ∈ chain i, f = 0
  socket : (s.table.flows 0).socket = requestPacket.socket
  holds : ((s.table.flows 0).chain true).length = n

section ManyRequests

variable {s : Custody} {chain chain' : ℕ → List ℕ} {t' : FlowHashTable} {n : ℕ}

/-- The flow takes one more packet. -/
theorem Holds.hook (h : s.Holds chain n) (hlt : n < 2 ^ 32)
    (hadded : Shape.Added s.table t' chain chain' 0
      ((s.table.flows 0).addPacket ⟨0, 0⟩ (requestPacket.numbered s.handed) true)
      (requestPacket.numbered s.handed)) : (s.receive [] t').Holds chain' (n + 1) := by
  obtain ⟨i, hi⟩ := h.linked
  have hst := requestPacket_stored s.handed
  have hkeep := Flow.addPacket_stored (s.table.flows 0) ⟨0, 0⟩ _ true hst
  have hmem : ∀ j g, g ∈ chain' j ↔ g ∈ chain j := by
    intro j g
    rw [hadded.mem_iff, hkeep]
    simp
  have hflow : t'.flows 0 = ((s.table.flows 0).addPacket ⟨0, 0⟩
      (requestPacket.numbered s.handed) true).flow := by
    rw [hadded.flows_eq, update_self]
  have hreset := hst.not_repeatedSyn (s.table.flows 0)
  have hreceived := h.inv.received hi rfl hadded fun _ => by rw [h.holds]; exact hlt
  rw [Flow.freedByReset, if_neg hreset] at hreceived
  exact
    { inv := hreceived
      linked := ⟨i, (hmem i 0).mpr hi⟩
      only := fun j g hg => h.only j g ((hmem j g).mp hg)
      socket := by
        rw [receive_table, hflow, (Flow.addPacket_pairs _ _ _ _).2.2.1]
        exact h.socket
      holds := by
        rw [receive_table, hflow, Flow.addPacket_chain_of_room _ _ _ _ _
          (h.inv.counted i 0 hi true).2 fun _ _ => by rw [h.holds]; exact hlt]
        simp [hst, hreset, h.holds] }

/-- The first request makes the flow. -/
theorem holds_one : ∃ s chain, run step start (manyRequests 1) = some s ∧ s.Holds chain 1 := by
  rcases addPacket_cases (s := start) Shape.new Flow.zero ⟨0, 0⟩ requestPacket with
    ⟨_, _, _, _, _, hf, -⟩ | ⟨-, -, src, t₁, chain₁, t', chain', htype, hnew, hadded, hadd⟩ |
    ⟨-, -, htype, -⟩
  · cases hf
  · obtain rfl : src = true := by
      cases src
      · exact absurd htype (by decide)
      · rfl
    have hchain : ∀ j g, g ∈ chain₁ j ↔ g = 0 ∧ j = hashFlow requestPacket.socket := by
      intro j g
      rw [hnew.mem_iff (Shape.new.roomy_of_fresh (by decide))]
      simp [start, FlowHashTable.new, PacketT.flowSocket]
    have hself : t₁.flows 0 = Flow.new Flow.zero.nullChains requestPacket.socket := by
      rw [hnew.flows_eq]
      exact update_self _ _ _
    have hholds : ({ start with table := t₁ } : Custody).Holds chain₁ 0 :=
      { inv := invBy_start.created rfl rfl hnew
        linked := ⟨_, (hchain _ 0).mpr ⟨rfl, rfl⟩⟩
        only := fun j g hg => ((hchain j g).mp hg).1
        socket := by
          show (t₁.flows 0).socket = _
          rw [hself, Flow.new_socket]
        holds := by
          show ((t₁.flows 0).chain true).length = 0
          rw [hself]
          rfl }
    have hone := hholds.hook (by decide) hadded
    rw [receive_created hnew] at hone
    refine ⟨_, chain', ?_, hone⟩
    show (start.addPacket Flow.zero ⟨0, 0⟩ requestPacket).bind _ = _
    rw [hadd]
    rfl
  · exact absurd rfl htype

/-- The next request goes to that flow. -/
theorem Holds.next (h : s.Holds chain n) : ∃ t' chain',
    Shape.Added s.table t' chain chain' 0
      ((s.table.flows 0).addPacket ⟨0, 0⟩ (requestPacket.numbered s.handed) true)
      (requestPacket.numbered s.handed) ∧
    s.step (.addPacket Flow.zero ⟨0, 0⟩ requestPacket) = some (s.receive [] t') := by
  obtain ⟨i, hi⟩ := h.linked
  have hroomy : s.table.Roomy := h.inv.shape.roomy_iff.mpr fun j => by
    have hsub : chain j ⊆ [0] := fun f hf => List.mem_singleton.mpr (h.only j f hf)
    have hlen := (List.subperm_of_subset (h.inv.shape.nodup j) hsub).length_le
    rw [List.length_singleton] at hlen
    omega
  have hnot : ¬ Shape.NoFlow s.table chain requestPacket := fun hno => (hno i 0 hi).1 h.socket
  rcases addPacket_cases h.inv.shape Flow.zero ⟨0, 0⟩ requestPacket with
    ⟨j, f, src, t', chain', hf, hsocket, -, hadded, hadd⟩ | ⟨-, hno, -⟩ | ⟨-, hno, -⟩
  · obtain rfl := h.only j f hf
    obtain rfl : src = true := by
      cases src
      · rw [h.socket] at hsocket
        exact absurd hsocket (by decide)
      · rfl
    have hst := requestPacket_stored 0
    have hreset : (s.table.flows 0).freedByReset requestPacket true = [] :=
      if_neg (hst.not_repeatedSyn _)
    rw [hreset] at hadd
    exact ⟨t', chain', hadded, hadd⟩
  · exact absurd (hno hroomy) hnot
  · exact absurd (hno hroomy) hnot

/-- From the first request on there is the flow, up to 2^32 packets. -/
theorem holds_manyRequests (hle : n + 1 ≤ 2 ^ 32) :
    ∃ s chain, run step start (manyRequests (n + 1)) = some s ∧ s.Holds chain (n + 1) := by
  induction n with
  | zero => exact holds_one
  | succ n ih =>
      obtain ⟨s, chain, hrun, h⟩ := ih (by omega)
      obtain ⟨t', chain', hadded, hstep⟩ := h.next
      refine ⟨_, chain', ?_, h.hook (by omega) hadded⟩
      rw [manyRequests, List.replicate_succ', run_append]
      have hbefore : run step start (List.replicate (n + 1) _) = some s := hrun
      rw [hbefore, Option.bind_some, run_cons, hstep]
      rfl

end ManyRequests

end Custody

/-- The 2^32 packets on a chain are lost with the next one. -/
theorem packet_chain_lost :
    ¬ ∀ calls : List CustodyCall, EveryState Custody.step Custody.Owned .start calls := by
  intro hall
  obtain ⟨n, hn⟩ : ∃ n, n + 1 = 2 ^ 32 := ⟨2 ^ 32 - 1, by omega⟩
  obtain ⟨s, chain, hrun, h⟩ := Custody.holds_manyRequests hn.le
  obtain ⟨t', chain', hadded, hstep⟩ := h.next
  obtain ⟨i, hi⟩ := h.linked
  have hst := requestPacket_stored s.handed
  have hlost := h.inv.overflows hi hadded hst (by rw [h.holds]; omega)
  have hreset : (s.table.flows 0).freedByReset (requestPacket.numbered s.handed) true = [] :=
    if_neg (hst.not_repeatedSyn _)
  rw [hreset] at hlost
  refine hlost
    ((hall (manyRequests (n + 1) ++ [.addPacket Flow.zero ⟨0, 0⟩ requestPacket])).final ?_)
  rw [run_append, hrun, Option.bind_some, run_cons, hstep]
  rfl

end MonitoringTool.Sniffer
