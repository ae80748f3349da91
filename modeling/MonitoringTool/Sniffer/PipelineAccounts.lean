import MonitoringTool.Lib.ListModify
import MonitoringTool.Sniffer.Pipeline

/-!
# What passes through the pipeline

Each queue is accounted for: what was put on it was passed on, is in the hand of the thread
that takes it off, or is still on it.  `Accounts` says so for the raw queue, and for the
packet queue and the flow queue of every protocol; every step keeps it (`Accounts.step`).
-/

namespace MonitoringTool.Sniffer

open Lib

/-! ## What the threads hold -/

/-- The frame `process_packet` has in hand. -/
def RawThread.held : RawThread → List RawPkt
  | .dequeued (some rpkt) => [rpkt]
  | _ => []

/-- The packet of protocol `k` that `process_packet_queue` has in hand. -/
def PacketQueueThread.held (t : PacketQueueThread) (k : ℕ) : List PacketT :=
  match t with
  | .dequeued j pkt => if j = k then [pkt] else []
  | .adding j pkt => if j = k then [pkt] else []
  | _ => []

/-- Every packet put on the queue was added, is in hand or is on the queue, and so is every
flow; a flow is in hand only while the flow-queue thread works on the protocol. -/
structure ProtocolQueues.Balanced (p : ProtocolQueues) (held : List PacketT)
    (working : Prop) : Prop where
  packets : p.queued = p.added ++ held ++ p.pq
  flows : p.threads.enqueued =
    p.processed ++ p.threads.flowThread.pending ++ p.threads.table.fq
  idle : ¬ working → p.threads.flowThread = .idle

/-- Putting flows on the flow queue keeps the balance. -/
theorem ProtocolQueues.Balanced.fill {p : ProtocolQueues} {held held' : List PacketT}
    {working : Prop} {threads : Threads} {new : List ℕ} {added : List PacketT}
    (h : p.Balanced held working) (hfills : p.threads.Fills threads new)
    (hadded : p.added ++ held = added ++ held') :
    ProtocolQueues.Balanced { p with threads := threads, added := added } held' working where
  packets := by rw [h.packets, hadded]
  flows := by
    rw [hfills.enqueued_eq, h.flows, hfills.fq_eq, hfills.flowThread_eq]
    simp only [List.append_assoc]
  idle hnot := by rw [hfills.flowThread_eq, h.idle hnot]

/-- Working on the flow queue keeps the balance. -/
theorem ProtocolQueues.Balanced.work {rspHdlen : ℕ → Option (List UInt8) → UInt16 → Int}
    {flt : ℕ → FlowFilter} {p p' : ProtocolQueues} {held : List PacketT}
    {working working' : Prop} {k : ℕ} (h : p.Balanced held working)
    (hwork : Pipeline.workOn rspHdlen flt p k = some p')
    (hidle : ¬ working' → p'.threads.flowThread = .idle) : p'.Balanced held working' := by
  obtain ⟨threads, hstep, rfl⟩ := Option.map_eq_some_iff.mp hwork
  obtain ⟨-, henqueued, hfq⟩ := Threads.flowQueue_takes hstep
  refine ⟨h.packets, ?_, hidle⟩
  rw [henqueued, h.flows, hfq]
  simp only [List.append_assoc]

namespace Pipeline

/-- Every frame put on the raw queue was preprocessed, is in hand or is on the queue. -/
structure Accounts (s : Pipeline) : Prop where
  frames : s.captured = s.preprocessed ++ s.rawThread.held ++ s.rpq
  protocols : ∀ (k : ℕ) p, s.protocols[k]? = some p →
    p.Balanced (s.packetThread.held k) (s.flowThread = .working k)

theorem accounts_start (protocols : List Protocol) : (start protocols).Accounts where
  frames := rfl
  protocols k p hk := by
    simp only [start, List.getElem?_map, Option.map_eq_some_iff] at hk
    obtain ⟨protocol, -, rfl⟩ := hk
    exact ⟨rfl, rfl, fun _ => rfl⟩

/-! ## Every step keeps the accounts -/

section Steps

variable {rspHdlen : ℕ → Option (List UInt8) → UInt16 → Int} {flt : ℕ → FlowFilter}
  {s s' : Pipeline}

/-- Only protocol `k` changes. -/
theorem Accounts.setProtocol (h : s.Accounts) {k : ℕ} {p p' : ProtocolQueues}
    (hk : s.protocols[k]? = some p) {packetThread : PacketQueueThread}
    {flowThread : FlowQueueThread}
    (hbalanced : p'.Balanced (packetThread.held k) (flowThread = .working k))
    (hheld : ∀ j, j ≠ k → packetThread.held j = s.packetThread.held j)
    (hworking : ∀ j, j ≠ k → s.flowThread = .working j → flowThread = .working j) :
    Accounts { s.setProtocol k p' with
      packetThread := packetThread, flowThread := flowThread } where
  frames := h.frames
  protocols := (forall_getElem?_set hk).mpr ⟨hbalanced, fun j q hj hq => by
    obtain ⟨hpackets, hflows, hidle⟩ := h.protocols j q hq
    exact ⟨by rw [hheld j hj]; exact hpackets, hflows,
      fun hnot => hidle fun hworks => hnot (hworking j hj hworks)⟩⟩

namespace Accounts

theorem captureStep (h : s.Accounts) (hstep : s.CaptureStep s') : s'.Accounts := by
  cases hstep with
  | moves capture hpc => exact ⟨h.frames, h.protocols⟩
  | enqueues rpkt hpc =>
      have hframes := h.frames
      exact ⟨by simp [hframes], h.protocols⟩

theorem rawStep (h : s.Accounts) (hstep : s.RawStep s') : s'.Accounts := by
  have hframes := h.frames
  cases hstep with
  | takes rpkt rpq hpc hrpq =>
      exact ⟨by simpa [RawThread.held, hpc, hrpq] using hframes, h.protocols⟩
  | findsNothing hpc hrpq =>
      exact ⟨by simpa [RawThread.held, hpc] using hframes, h.protocols⟩
  | ends hpc hstop => exact ⟨by simpa [RawThread.held, hpc] using hframes, h.protocols⟩
  | sleeps hpc hstop => exact ⟨by simpa [RawThread.held, hpc] using hframes, h.protocols⟩
  | drops rpkt hpc hpayload =>
      exact ⟨by simpa [RawThread.held, hpc] using hframes, h.protocols⟩
  | enqueues rpkt k p pkt hpc hpayload hk =>
      have hp := h.protocols k p hk
      have hset : Accounts (s.setProtocol k { p with
          pq := p.pq ++ [pkt], queued := p.queued ++ [pkt] }) :=
        h.setProtocol hk ⟨by rw [hp.packets]; simp only [List.append_assoc], hp.flows, hp.idle⟩
          (fun _ _ => rfl) fun _ _ hworking => hworking
      exact ⟨by simpa [Pipeline.setProtocol, RawThread.held, hpc] using hframes, hset.protocols⟩

theorem packetStep (h : s.Accounts) (hstep : s.PacketStep s') : s'.Accounts := by
  have hprotocols := h.protocols
  cases hstep with
  | ends hpc hstop =>
      rw [hpc] at hprotocols
      exact ⟨h.frames, hprotocols⟩
  | starts hpc hstop =>
      rw [hpc] at hprotocols
      exact ⟨h.frames, hprotocols⟩
  | moves k packetThread hpc hto =>
      rw [hpc] at hprotocols
      refine ⟨h.frames, ?_⟩
      rcases hto with rfl | rfl <;> exact hprotocols
  | takes k p pkt pq hpc hk hpq =>
      obtain ⟨hpackets, hflows, hidle⟩ := hprotocols k p hk
      refine h.setProtocol hk ⟨?_, hflows, hidle⟩ ?_ fun _ _ hworking => hworking
      · rw [hpackets, hpq, hpc]
        simp [PacketQueueThread.held]
      · intro j hj
        simp [PacketQueueThread.held, hpc, Ne.symm hj]
  | begins k p pkt threads hpc hk hfills =>
      rw [hpc] at hprotocols
      refine h.setProtocol hk ((hprotocols k p hk).fill hfills rfl) ?_ fun _ _ hworking => hworking
      intro j hj
      simp [PacketQueueThread.held, hpc]
  | goesOn k p pkt threads new hpc hk hfills hnew =>
      exact h.setProtocol hk ((hprotocols k p hk).fill hfills rfl) (fun _ _ => rfl)
        fun _ _ hworking => hworking
  | adds k p pkt threads new hpc hk hfills hnew =>
      rw [hpc] at hprotocols
      refine h.setProtocol hk ((hprotocols k p hk).fill hfills ?_) ?_ fun _ _ hworking => hworking
      · simp [PacketQueueThread.held]
      · intro j hj
        simp [PacketQueueThread.held, hpc, Ne.symm hj]

/-- While it works on no protocol, the flow-queue thread may go anywhere. -/
theorem flowThread_moves (h : s.Accounts) (flowThread : FlowQueueThread)
    (hpc : ∀ k, s.flowThread ≠ .working k) :
    Accounts { s with flowThread := flowThread } where
  frames := h.frames
  protocols k p hk := by
    obtain ⟨hpackets, hflows, hidle⟩ := h.protocols k p hk
    exact ⟨hpackets, hflows, fun _ => hidle (hpc k)⟩

theorem flowStep (h : s.Accounts) (hstep : s.FlowStep rspHdlen flt s') : s'.Accounts := by
  have hbalanced := h.protocols
  cases hstep with
  | ends hpc hstop => exact h.flowThread_moves _ (by simp [hpc])
  | starts hpc hstop => exact h.flowThread_moves _ (by simp [hpc])
  | moves k flowThread hpc hto => exact h.flowThread_moves _ (by simp [hpc])
  | takes k p p' hpc hk hwork =>
      exact h.setProtocol hk ((hbalanced k p hk).work hwork fun hnot => absurd rfl hnot)
        (fun _ _ => rfl) (by simp [hpc])
  | goesOn k p p' hpc hk hwork =>
      exact h.setProtocol hk ((hbalanced k p hk).work hwork fun hnot => absurd hpc hnot)
        (fun _ _ => rfl) fun _ _ hworking => hworking
  | finishes k p p' hpc hk hwork hidle =>
      refine h.setProtocol hk ((hbalanced k p hk).work hwork fun _ => hidle) (fun _ _ => rfl) ?_
      intro j hj hworking
      rw [hpc] at hworking
      exact absurd (FlowQueueThread.working.inj hworking).symm hj

theorem scrubStep {now : ℕ → Int} (h : s.Accounts) (hstep : s.ScrubStep now s') :
    s'.Accounts := by
  cases hstep with
  | moves scrubThread hpc hto => exact ⟨h.frames, h.protocols⟩
  | scrubs k cleanse p threads new scrubThread hpc hk hfills hnew hto =>
      have hset := h.setProtocol hk ((h.protocols k p hk).fill hfills rfl) (fun _ _ => rfl)
        fun _ _ hworking => hworking
      exact ⟨hset.frames, hset.protocols⟩
  | ends hpc => exact ⟨h.frames, h.protocols⟩

theorem timerStep (h : s.Accounts) (hstep : s.TimerStep s') : s'.Accounts := by
  cases hstep with
  | scans k p table hk htable hfq =>
      obtain ⟨hpackets, hflows, hidle⟩ := h.protocols k p hk
      exact h.setProtocol hk ⟨hpackets, by rw [hflows, hfq], hidle⟩ (fun _ _ => rfl)
        fun _ _ hworking => hworking

/-- Every step keeps the accounts. -/
theorem step {a : PipelineAction} (h : s.Accounts) (hstep : s.step rspHdlen flt a = some s') :
    s'.Accounts := by
  cases a with
  | stop =>
      obtain rfl := Option.some.inj hstep
      exact ⟨h.frames, h.protocols⟩
  | frame frame addr =>
      simp only [Pipeline.step] at hstep
      split at hstep
      · obtain rfl := Option.some.inj hstep
        exact ⟨h.frames, h.protocols⟩
      · cases hstep
  | capture => exact h.captureStep (captureStep_cases hstep)
  | rawPacket => exact h.rawStep (rawStep_cases hstep)
  | packetQueue now mem => exact h.packetStep (packetStep_cases hstep)
  | flowQueue => exact h.flowStep (flowStep_cases hstep)
  | scrubber now => exact h.scrubStep (scrubStep_cases hstep)
  | timer k i => exact h.timerStep (timerStep_cases hstep)

end Accounts

end Steps

end Pipeline

end MonitoringTool.Sniffer
