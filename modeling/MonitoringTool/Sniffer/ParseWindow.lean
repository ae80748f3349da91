import MonitoringTool.Sniffer.ExtractPair
import MonitoringTool.Sniffer.TcpOrderOrdered

/-!
# When a node's packet still describes the node

A stored segment is represented three times: by the node (`seq`, `nxt_seq`), by
the packet (`tcp_seq`, `tcp_dl`, `tcp_data`) and by the bytes that `extractPair`
hands to `getRequest` and `getResponse`, which are the first `tcp_dl` bytes from
`tcp_odata`.

The front trim of `tcp_order` moves `seq` and `tcp_data` and shortens `tcp_dl`,
but `tcp_seq` and `tcp_odata` stay, so afterwards the three disagree.  The back
trim keeps them in step unless the node is cut below its own start, where
`tcp_dl` underflows.  `KeepsWindow` excludes both;
`addPacket_windows_consistent_iff` shows it exact.
-/

namespace MonitoringTool.Sniffer

open Lib

/-! ## Consistency -/

/-- The payload bytes of stream range `[lo, hi)`. -/
def streamRange (stream : Nat → UInt8) (lo hi : Nat) : List UInt8 :=
  (List.range' lo (hi - lo)).map stream

/-- The bytes from `tcp_odata` to `tcp_odata + tcp_dl`. -/
def PacketT.window (p : PacketT) : Option (List UInt8) :=
  p.tcpOdata.map (List.take p.tcpDl.toNat)

/-- The packet describes the node that holds it. -/
structure WindowConsistent (stream : Nat → UInt8) (n : SeqT) (p : PacketT) : Prop where
  /-- `tcp_dl` is `nxt_seq - seq`. -/
  range : n.start + p.tcpDl.toNat = n.stop
  /-- `tcp_seq + tcp_dl` is `nxt_seq`. -/
  seq_dl : p.tcpSeq.toNat + p.tcpDl.toNat = n.stop
  /-- The bytes handed out are those of `[seq, nxt_seq)`. -/
  bytes : p.window = some (streamRange stream n.start n.stop)
  /-- A request made of the packet stores the node's `nxt_seq`. -/
  request : (getRequest p).nxtSeq = n.nxtSeq

/-- Every node of the flow that has a packet is described by it; `stream` gives
the payload bytes of each direction. -/
def WindowsConsistent (stream : Bool → Nat → UInt8) (f : Flow) : Prop :=
  ∀ dir, ∀ n ∈ (f.order.dir dir).nodes, ∀ p, n.pkt = some p → WindowConsistent (stream dir) n p

/-- A packet given to `add_packet`: no SYN flag, a range that does not wrap, and,
where it has a payload to store, the bytes of its stream. -/
structure Arrival (stream : Bool → Nat → UInt8) where
  packet : PacketT
  src : Bool
  now : Clock
  no_syn : hasFlag packet.tcpFlags TH_SYN = false
  no_wrap : packet.tcpSeq.toNat + packet.tcpDl.toNat < 2 ^ 32
  carries : packet.type ≠ 0 → packet.window =
    some (streamRange (stream src) packet.tcpSeq.toNat (packet.tcpSeq.toNat + packet.tcpDl.toNat))

/-- One call of `add_packet` on a flow. -/
def receiveStep {stream : Bool → Nat → UInt8} (f : Flow) (a : Arrival stream) : Option Flow :=
  f.receive a.now a.packet a.src

/-! ## The guard -/

/-- `tcp_order` links the segment with its front as it is and, where it cuts the
back, not below the start. -/
def LinkedInStep (lst : SeqList) (newSeq : SeqT) : Prop :=
  ∀ last fr cp, lst = .withLast last → placeOf newSeq last = .within fr cp →
    ¬ IsRetransmission newSeq fr cp →
      ¬ InRun fr (cp.node.nxtSeq - 1) newSeq ∧ ∀ aft ∈ cp.after.head?, newSeq.seq ≤ aft.seq

/-- The guard of one `add_packet`: a stored packet is linked in step. -/
def KeepsWindow {stream : Bool → Nat → UInt8} (f : Flow) (a : Arrival stream) : Prop :=
  Stored a.packet a.src → LinkedInStep (f.order.dir a.src) (seqPkt a.packet)

/-! ## Trims -/

theorem streamRange_take (stream : Nat → UInt8) {lo hi k : Nat} (h : lo + k ≤ hi) :
    (streamRange stream lo hi).take k = streamRange stream lo (lo + k) := by
  have hk : lo + k - lo = k := by omega
  unfold streamRange
  rw [← List.map_take, List.take_range'_of_length_ge (by omega), hk]

theorem request_of_seq_dl {n : SeqT} {p : PacketT}
    (h : p.tcpSeq.toNat + p.tcpDl.toNat = n.stop) : (getRequest p).nxtSeq = n.nxtSeq := by
  have hlt : n.stop < 2 ^ 32 := n.nxtSeq.toNat_lt
  apply UInt32.toNat_inj.mp
  show (p.tcpSeq + p.tcpDl.toUInt32).toNat = n.stop
  rw [UInt32.toNat_add, UInt16.toNat_toUInt32]
  omega

/-- `tcp_dl` after a back trim that stays at or above the start. -/
private theorem trimBack_dl {n : SeqT} {dl : UInt16} {aft : UInt32}
    (hrange : n.start + dl.toNat = n.stop) (hle : n.start ≤ aft.toNat) (hcut : aft.toNat ≤ n.stop) :
    n.start + (dl.toUInt32 - (n.nxtSeq - aft)).toUInt16.toNat = aft.toNat := by
  have hdl : dl.toNat < 2 ^ 16 := dl.toNat_lt
  have haft : aft ≤ n.nxtSeq := UInt32.le_iff_toNat_le.mpr hcut
  have hover : (n.nxtSeq - aft).toNat = n.stop - aft.toNat := UInt32.toNat_sub_of_le _ _ haft
  have hkeep : n.nxtSeq - aft ≤ dl.toUInt32 := by
    rw [UInt32.le_iff_toNat_le, hover, UInt16.toNat_toUInt32]
    omega
  rw [UInt32.toNat_toUInt16, UInt32.toNat_sub_of_le _ _ hkeep, hover, UInt16.toNat_toUInt32]
  omega

/-- Cut to `[seq, aft)` with `seq <= aft`, a segment stays in step. -/
theorem WindowConsistent.trimBack {stream : Nat → UInt8} {n : SeqT} {p q : PacketT} {aft : UInt32}
    (h : WindowConsistent stream n p) (hpkt : n.pkt = some p) (hle : n.start ≤ aft.toNat)
    (hcut : aft.toNat ≤ n.stop) (hq : (n.trimBack aft).pkt = some q) :
    WindowConsistent stream (n.trimBack aft) q := by
  have hdl := trimBack_dl h.range hle hcut
  obtain rfl : { p with tcpDl := (p.tcpDl.toUInt32 - (n.nxtSeq - aft)).toUInt16 } = q := by
    simpa [SeqT.trimBack, hpkt] using hq
  have hseq : p.tcpSeq.toNat = n.start := by
    have hr := h.range
    have hs := h.seq_dl
    omega
  have hseq_dl : p.tcpSeq.toNat + (p.tcpDl.toUInt32 - (n.nxtSeq - aft)).toUInt16.toNat =
      (n.trimBack aft).stop := hseq ▸ hdl
  refine ⟨hdl, hseq_dl, ?_, request_of_seq_dl hseq_dl⟩
  obtain ⟨bytes, hodata, hbytes⟩ := Option.map_eq_some_iff.mp h.bytes
  have hshort : (p.tcpDl.toUInt32 - (n.nxtSeq - aft)).toUInt16.toNat ≤ p.tcpDl.toNat := by
    have hr := h.range
    omega
  have htake : bytes.take (p.tcpDl.toUInt32 - (n.nxtSeq - aft)).toUInt16.toNat =
      streamRange stream n.start aft.toNat := by
    rw [← hdl, ← @streamRange_take stream n.start n.stop _ (by omega), ← hbytes, List.take_take,
      Nat.min_eq_left hshort]
  show p.tcpOdata.map (List.take _) = some (streamRange stream n.start aft.toNat)
  rw [hodata, Option.map_some, htake]

/-! ## The new node -/

section NewNode

variable {stream : Bool → Nat → UInt8} (a : Arrival stream)

/-- Not a repeated SYN, so the flow is not reset. -/
theorem Arrival.not_repeatedSyn (f : Flow) : ¬ RepeatedSyn f a.packet a.src := by
  rintro ⟨-, hsyn, -⟩
  have hno := a.no_syn
  rw [hsyn] at hno
  exact absurd hno (by decide)

theorem Arrival.stop_eq (h : Stored a.packet a.src) :
    (seqPkt a.packet).stop = a.packet.tcpSeq.toNat + a.packet.tcpDl.toNat := by
  have hnowrap := a.no_wrap
  show (seqPkt a.packet).nxtSeq.toNat = _
  rw [seqPkt_nxtSeq_of_plain a.no_syn h.2.2.1, UInt32.toNat_add, UInt16.toNat_toUInt32]
  omega

/-- The untrimmed segment is in step. -/
theorem Arrival.consistent (h : Stored a.packet a.src) :
    WindowConsistent (stream a.src) (seqPkt a.packet) a.packet where
  range := (a.stop_eq h).symm
  seq_dl := (a.stop_eq h).symm
  bytes := by
    rw [a.stop_eq h]
    exact a.carries h.1
  request := (seqPkt_nxtSeq_of_plain a.no_syn h.2.2.1).symm

/-- A trim changes neither the payload copy nor `tcp_seq`. -/
theorem fitted_pkt (p : PacketT) (fr : UInt32) (cp : Cursor) :
    ∃ q, (fitted (seqPkt p) fr cp).pkt = some q ∧ q.tcpSeq = p.tcpSeq := by
  unfold fitted
  by_cases hin : InRun fr (cp.node.nxtSeq - 1) (seqPkt p) <;> cases cp.after <;>
    simp only [hin, if_true, if_false, SeqT.fitBefore] <;> (try split) <;>
    simp [SeqT.trimFront, SeqT.trimBack]

/-- Behind a node that ends at zero the run covers everything. -/
private theorem stop_pos_of_linked {newSeq : SeqT} {fr : UInt32} {cp : Cursor}
    (hin : InRun fr (cp.node.nxtSeq - 1) newSeq) (hnot : ¬ IsRetransmission newSeq fr cp) :
    0 < cp.node.stop := by
  by_contra hzero
  have hnxt : cp.node.nxtSeq = 0 := UInt32.toNat_inj.mp (Nat.eq_zero_of_not_pos hzero)
  refine hnot ⟨hin, ?_⟩
  rw [hnxt, UInt32.le_iff_toNat_le]
  exact Nat.le_of_lt_succ (newSeq.nxtSeq - 1).toNat_lt

/-- **The linked node.**  It is in step with its packet exactly when its front is
not trimmed and it is not cut below its start. -/
theorem Arrival.fitted_consistent_iff (h : Stored a.packet a.src) {fr : UInt32} {cp : Cursor}
    (hnot : ¬ IsRetransmission (seqPkt a.packet) fr cp) :
    (∀ q, (fitted (seqPkt a.packet) fr cp).pkt = some q →
        WindowConsistent (stream a.src) (fitted (seqPkt a.packet) fr cp) q) ↔
      ¬ InRun fr (cp.node.nxtSeq - 1) (seqPkt a.packet) ∧
        ∀ aft ∈ cp.after.head?, (seqPkt a.packet).seq ≤ aft.seq := by
  have hwhole := a.consistent h
  constructor
  · intro hall
    obtain ⟨q, hq, hseq⟩ := fitted_pkt a.packet fr cp
    have hw := hall q hq
    have hrange := hw.range
    -- the two equations of `hw` say that the node still begins at `tcp_seq`
    have hstart : (fitted (seqPkt a.packet) fr cp).start = (seqPkt a.packet).start := by
      have hs := hw.seq_dl
      rw [hseq] at hs
      show _ = a.packet.tcpSeq.toNat
      omega
    have hin : ¬ InRun fr (cp.node.nxtSeq - 1) (seqPkt a.packet) := by
      intro hin
      rw [fitted_start, if_pos hin] at hstart
      have hlt := ((inRun_iff (stop_pos_of_linked hin hnot)).mp hin).2
      omega
    refine ⟨hin, ?_⟩
    intro aft haft
    rw [hstart, fitted_stop] at hrange
    rw [UInt32.le_iff_toNat_le]
    show (seqPkt a.packet).start ≤ aft.start
    cases hafter : cp.after with
    | nil => simp [hafter] at haft
    | cons next rest =>
        obtain rfl : next = aft := by simpa [hafter] using haft
        simp only [hafter] at hrange
        omega
  · rintro ⟨hin, haft⟩ q
    unfold fitted
    cases hafter : cp.after with
    | nil =>
        simp only [if_neg hin]
        intro hq
        obtain rfl : a.packet = q := by simpa using hq
        exact hwhole
    | cons aft rest =>
        have hle := UInt32.le_iff_toNat_le.mp (haft aft (by simp [hafter]))
        simp only [if_neg hin, SeqT.fitBefore]
        split
        · intro hq
          obtain rfl : a.packet = q := by simpa using hq
          exact hwhole
        · next hcut =>
          rw [UInt32.le_iff_toNat_le] at hcut
          exact hwhole.trimBack (seqPkt_pkt _) hle (Nat.le_of_not_le hcut)

end NewNode

/-! ## Runs -/

section Runs

variable {stream : Bool → Nat → UInt8}

/-- The nodes after a step are those before it and, perhaps, a new one. -/
private theorem consistent_insert_iff {stream : Nat → UInt8} {L R : List SeqT} {x n : SeqT}
    (h : ∀ m ∈ L ++ x :: R, ∀ p, m.pkt = some p → WindowConsistent stream m p) :
    (∀ m ∈ L ++ x :: n :: R, ∀ p, m.pkt = some p → WindowConsistent stream m p) ↔
      ∀ p, n.pkt = some p → WindowConsistent stream n p := by
  constructor
  · intro hall
    exact hall n (by simp)
  · intro hn m hm
    simp only [List.mem_append, List.mem_cons] at hm h
    rcases hm with hm | rfl | rfl | hm
    · exact h m (.inl hm)
    · exact h _ (.inr (.inl rfl))
    · exact hn
    · exact h m (.inr (.inr hm))

/-- The lists after `add_packet`: one node inserted in the packet's direction. -/
theorem receiveStep_dir {f f' : Flow} {a : Arrival stream} (h : receiveStep f a = some f')
    (dir : Bool) :
    f'.order.dir dir =
      if dir = a.src then
        (tcpOrderDir (f.order.dir a.src) f.order.num (arrivalSeq a.packet a.src)).list
      else f.order.dir dir := by
  obtain ⟨hdrop, rfl⟩ := (Flow.receive_eq_some f a.now a.packet a.src).mp h
  rw [Flow.addPacket_order f a.now a.packet a.src hdrop, if_neg (a.not_repeatedSyn f), tcpOrder_dir]

/-- **One packet.**  The nodes stay in step with their packets exactly when a
stored packet is linked in step. -/
theorem receiveStep_consistent_iff {f f' : Flow} {a : Arrival stream}
    (hf : WindowsConsistent stream f) (hstep : receiveStep f a = some f') :
    WindowsConsistent stream f' ↔ KeepsWindow f a := by
  have hdir := receiveStep_dir hstep
  -- only the list of the packet's direction changes
  have hone : WindowsConsistent stream f' ↔
      ∀ n ∈ (f'.order.dir a.src).nodes, ∀ p, n.pkt = some p →
        WindowConsistent (stream a.src) n p := by
    refine ⟨fun h => h a.src, fun h dir => ?_⟩
    by_cases hd : dir = a.src
    · exact hd ▸ h
    · rw [hdir dir, if_neg hd]
      exact hf dir
  rw [hone, hdir a.src, if_pos rfl]
  by_cases hst : Stored a.packet a.src
  · have hseq : arrivalSeq a.packet a.src = seqPkt a.packet := if_pos hst
    rw [hseq]
    rcases tcpOrderDir_cases (f.order.dir a.src) f.order.num (seqPkt a.packet) with
      ⟨last, fr, cp, hlst, hplace, hre, hres⟩ | ⟨hend, hres, -⟩ |
      ⟨last, fr, cp, hlst, hplace, hre, hnodes, hres, -⟩
    · -- retransmission
      rw [hres]
      refine iff_of_true (hf a.src) fun _ last' fr' cp' hlst' hplace' hre' => ?_
      obtain rfl : last = last' := by simpa [hlst] using hlst'
      obtain ⟨rfl, rfl⟩ : fr = fr' ∧ cp = cp' := by simpa [hplace] using hplace'
      exact absurd hre hre'
    · -- behind every node
      rw [hres]
      refine iff_of_true ?_ fun _ last fr cp hlst hplace _ => ?_
      · intro n hn p hp
        rcases List.mem_append.mp hn with hn | hn
        · exact hf a.src n hn p hp
        · obtain rfl := List.mem_singleton.mp hn
          obtain rfl : a.packet = p := by simpa using hp
          exact a.consistent hst
      · rcases hend with hnull | ⟨last', hlst', hplace'⟩
        · simp [hnull] at hlst
        · obtain rfl : last = last' := by simpa [hlst] using hlst'
          simp [hplace] at hplace'
    · -- behind the run found
      have hold := hf a.src
      rw [hnodes] at hold
      rw [hres, consistent_insert_iff hold, a.fitted_consistent_iff hst hre]
      constructor
      · intro hin _ last' fr' cp' hlst' hplace' _
        obtain rfl : last = last' := by simpa [hlst] using hlst'
        obtain ⟨rfl, rfl⟩ : fr = fr' ∧ cp = cp' := by simpa [hplace] using hplace'
        exact hin
      · intro hkeep
        exact hkeep hst last fr cp hlst hplace hre
  · -- a node without a packet
    refine iff_of_true ?_ fun h => absurd h hst
    have hpkt : (arrivalSeq a.packet a.src).pkt = none := by simp [arrivalSeq, hst]
    intro n hn p hp
    rcases mem_tcpOrderDir hn with hn | hnew
    · exact hf a.src n hn p hp
    · have htype := hnew.type
      simp [hpkt, hp] at htype

/-- **When packets and nodes stay in step.**  In every run of `add_packet` on a
new flow, every state has its nodes in step with their packets exactly when
every stored packet of the run is linked in step. -/
theorem addPacket_windows_consistent_iff (mem : Flow) (s : FlowS) (as : List (Arrival stream)) :
    EveryState receiveStep (WindowsConsistent stream) (Flow.new mem s) as ↔
      EveryStep receiveStep KeepsWindow (Flow.new mem s) as := by
  have hnew : WindowsConsistent stream (Flow.new mem s) := by
    intro dir
    cases dir <;> simp [OrderT.new, OrderT.dir, SeqList.nodes]
  refine everyState_iff_everyStep (fun f hf => hf) (fun f a f' hf h => ?_) (fun f a f' _ _ h => h)
    (fun f a _ h => ?_) hnew
  · exact receiveStep_consistent_iff hf h
  · -- a packet that drops the flow is not stored
    intro hst
    unfold receiveStep Flow.receive at h
    split at h
    · next hdrop => exact absurd hdrop.1 (by simp [hst.2.1])
    · cases h

end Runs

/-! ## A trimmed front -/

/-- A request of four zero bytes from `seq` on, as it arrives in a stream of
zeros. -/
def zeroRequest (addr : Nat) (seq : UInt32) (h : seq.toNat + 4 < 2 ^ 32) :
    Arrival (fun _ _ => 0) where
  packet :=
    ⟨addr, 0, 0, 58, 1, 2, 4000, 80, 20, 44, 6, seq, 1, TH_ACK, 20, 4, REQ, some [0, 0, 0, 0],
      some 0⟩
  src := true
  now := ⟨0, 0⟩
  no_syn := by
    show hasFlag TH_ACK TH_SYN = false
    decide
  no_wrap := h
  carries := by
    intro _
    have hrange : seq.toNat + 4 - seq.toNat = 4 := by omega
    show some [0, 0, 0, 0] = some (List.map _ (List.range' _ (seq.toNat + 4 - seq.toNat)))
    rw [hrange]
    rfl

/-- `[10, 14)` and then `[12, 16)`: the second node becomes `[14, 16)`, but its
packet says `tcp_seq = 12`, and the two bytes handed out are those of
`[12, 14)`. -/
theorem addPacket_trims_front_out_of_step :
    ¬ ∀ (stream : Bool → Nat → UInt8) (mem : Flow) (s : FlowS) (as : List (Arrival stream)),
      EveryState receiveStep (WindowsConsistent stream) (Flow.new mem s) as := by
  intro h
  have hbad : ((run receiveStep (Flow.new Flow.zero ⟨1, 2, 4000, 80⟩)
      [zeroRequest 1 10 (by decide), zeroRequest 2 12 (by decide)]).any fun f =>
      (f.order.dir true).nodes.any fun n => n.pkt.any fun p =>
        p.tcpSeq.toNat + p.tcpDl.toNat ≠ n.stop) = true := by
    decide
  simp only [Option.any_eq_true, List.any_eq_true, decide_eq_true_eq] at hbad
  obtain ⟨f, hf, n, hn, p, hp, hne⟩ := hbad
  have hall := h (fun _ _ => 0) Flow.zero ⟨1, 2, 4000, 80⟩
    [zeroRequest 1 10 (by decide), zeroRequest 2 12 (by decide)]
  exact hne ((hall.final hf) true n hn p hp).seq_dl

end MonitoringTool.Sniffer
