import MonitoringTool.Sniffer.PipelineAccounts

/-!
# Shutting down

When `Analysis::stop` is called the threads notice it one after the other, each at its own
test.  `process_packet_queue` and `process_flow_queue` break off at once, whatever their
queues hold, and the last scrubbing takes no flow: its timeout -1 is the largest unsigned
number.  Besides, it is done for one protocol only.

`shutdown_loses_nothing_iff` says exactly which runs lose nothing, once the four threads
have ended: those in which no thread ends with work in its queues, and none is handed work
after its end.
-/

namespace MonitoringTool.Sniffer

open Lib

/-! ## What is lost -/

/-- The table has no flow. -/
def FlowHashTable.Empty (t : FlowHashTable) : Prop := ∀ i, (t.table i).first = none

namespace Pipeline

/-- `Analysis::stop` was called, and the four threads have ended. -/
structure Over (s : Pipeline) : Prop where
  stopped : s.stopped = true
  raw : s.rawThread = .ended
  packets : s.packetThread = .ended
  flows : s.flowThread = .ended
  scrubber : s.scrubThread = .ended

/-- All queues and tables are empty: every frame on the raw queue was preprocessed, every
packet on a packet queue was added, every flow on a flow queue was passed to `extractPair` and
`extractData`, and no flow was left in a table. -/
structure LosesNothing (s : Pipeline) : Prop where
  rpq : s.rpq = []
  preprocessed : s.preprocessed = s.captured
  pq : ∀ p ∈ s.protocols, p.pq = []
  added : ∀ p ∈ s.protocols, p.added = p.queued
  table : ∀ p ∈ s.protocols, p.threads.table.Empty
  fq : ∀ p ∈ s.protocols, p.threads.table.fq = []
  processed : ∀ p ∈ s.protocols, p.processed = p.threads.enqueued

/-- The step strands nothing.  A thread that ends has emptied its queues; a thread that puts
something on a queue does so before the thread that takes it off has ended; and the tables are
empty when the second of the two threads that work on them ends. -/
def InTime (s : Pipeline) : PipelineAction → Prop
  | .capture => s.rawThread = .ended → ∀ rpkt, s.capture ≠ .copied rpkt
  | .rawPacket =>
      match s.rawThread with
      | .dequeued none => s.stopped = true → s.rpq = []
      | .dequeued (some rpkt) =>
          s.packetThread = .ended → payloadOf (s.protocols.map (·.protocol)) rpkt = none
      | _ => True
  | .packetQueue _ _ =>
      match s.packetThread with
      | .testStop =>
          s.stopped = true → (∀ p ∈ s.protocols, p.pq = []) ∧
            (s.scrubThread = .ended → ∀ p ∈ s.protocols, p.threads.table.Empty)
      | .adding k _ =>
          s.flowThread = .ended → ∀ p, s.protocols[k]? = some p → ¬ p.threads.Closes
      | _ => True
  | .flowQueue =>
      match s.flowThread with
      | .testStop => s.stopped = true → ∀ p ∈ s.protocols, p.threads.table.fq = []
      | _ => True
  | .scrubber now =>
      match s.scrubThread with
      | .scrubbing k cleanse =>
          s.flowThread = .ended → ∀ p, s.protocols[k]? = some p →
            ∀ f ∈ p.threads.table.bucket p.threads.scrubAt,
              timedOut (now f) (if cleanse then -1 else 60 * 10) (p.threads.table.flows f) = false
      | .exiting =>
          s.packetThread = .ended → ∀ p ∈ s.protocols, p.threads.table.Empty
      | _ => True
  | _ => True

/-- What has ended has nothing left to do. -/
@[mk_iff nothingStranded_iff]
structure NothingStranded (s : Pipeline) : Prop where
  raw : s.rawThread = .ended → s.rpq = []
  packets : s.packetThread = .ended → ∀ p ∈ s.protocols, p.pq = []
  tables : s.packetThread = .ended → s.scrubThread = .ended →
    ∀ p ∈ s.protocols, p.threads.table.Empty
  flows : s.flowThread = .ended → ∀ p ∈ s.protocols, p.threads.table.fq = []

theorem nothingStranded_start (protocols : List Protocol) : (start protocols).NothingStranded where
  raw _ := rfl
  packets h := by cases h
  tables h := by cases h
  flows h := by cases h

/-! ## What a step strands -/

section Steps

variable {rspHdlen : ℕ → Option (List UInt8) → UInt16 → Int} {flt : ℕ → FlowFilter}
  {s s' : Pipeline}

theorem captureStep_iff (h : s.CaptureStep s') :
    s'.NothingStranded ↔ s.NothingStranded ∧ s.InTime .capture := by
  simp only [nothingStranded_iff, InTime]
  cases h with
  | moves capture hpc => simp [hpc]
  | enqueues rpkt hpc =>
      simp only [List.append_eq_nil_iff, List.cons_ne_self, and_false, imp_false, hpc, ne_eq,
        CaptureThread.copied.injEq, forall_eq']
      tauto

theorem rawStep_iff (h : s.RawStep s') :
    s'.NothingStranded ↔ s.NothingStranded ∧ s.InTime .rawPacket := by
  simp only [nothingStranded_iff, InTime]
  cases h with
  | takes rpkt rpq hpc hrpq => simp [hpc]
  | findsNothing hpc hrpq => simp [hpc]
  | ends hpc hstop =>
      simp only [forall_const, hpc, reduceCtorEq, IsEmpty.forall_iff, true_and, hstop]
      tauto
  | sleeps hpc hstop => simp [hpc, hstop]
  | drops rpkt hpc hpayload => simp [hpc, hpayload]
  | enqueues rpkt k p pkt hpc hpayload hk =>
      have hlost : ¬ ∀ q ∈ s.protocols.set k { p with
          pq := p.pq ++ [pkt], queued := p.queued ++ [pkt] }, q.pq = [] := by
        intro hall
        have hempty := hall _ (mem_set_self _ hk)
        simp at hempty
      have hfq := forall_mem_set (P := fun q : ProtocolQueues => q.threads.table.fq = [])
        (b := { p with pq := p.pq ++ [pkt], queued := p.queued ++ [pkt] }) hk Iff.rfl
      have htable := forall_mem_set (P := fun q : ProtocolQueues => q.threads.table.Empty)
        (b := { p with pq := p.pq ++ [pkt], queued := p.queued ++ [pkt] }) hk Iff.rfl
      simp only [setProtocol, hpc, hpayload, hlost, hfq, htable]
      simp only [reduceCtorEq, IsEmpty.forall_iff, imp_false, true_and]
      tauto

/-- The flow queues are empty after flows were put on one of them, if they were before and
the flows are none. -/
theorem fills_all (p' : ProtocolQueues) {p : ProtocolQueues} {k : ℕ} {new : List ℕ}
    (hk : s.protocols[k]? = some p) (hfills : p.threads.Fills p'.threads new) :
    (∀ q ∈ s.protocols.set k p', q.threads.table.fq = []) ↔
      (∀ q ∈ s.protocols, q.threads.table.fq = []) ∧ new = [] := by
  cases new with
  | nil =>
      have hsame : p'.threads.table.fq = [] ↔ p.threads.table.fq = [] := by
        rw [hfills.fq_eq, List.append_nil]
      simp [forall_mem_set (P := fun q : ProtocolQueues => q.threads.table.fq = []) hk hsame]
  | cons f new =>
      have hlost : ¬ ∀ q ∈ s.protocols.set k p', q.threads.table.fq = [] := by
        intro hall
        have hempty := hall p' (mem_set_self p' hk)
        rw [hfills.fq_eq] at hempty
        simp at hempty
      simp [hlost]

theorem packetStep_iff (now : Clock) (mem : Flow) (h : s.PacketStep s') :
    s'.NothingStranded ↔ s.NothingStranded ∧ s.InTime (.packetQueue now mem) := by
  simp only [nothingStranded_iff, InTime]
  cases h with
  | ends hpc hstop =>
      simp only [forall_const, hpc, reduceCtorEq, IsEmpty.forall_iff, true_and, hstop]
      tauto
  | starts hpc hstop => simp [hpc, hstop]
  | moves k packetThread hpc hto => rcases hto with rfl | rfl <;> simp [hpc]
  | takes k p pkt pq hpc hk hpq => simp [setProtocol, forall_mem_set hk, hpc]
  | begins k p pkt threads hpc hk hfills =>
      have hfq := fills_all { p with threads := threads } hk hfills
      simp [setProtocol, hfq, hpc]
  | goesOn k p pkt threads new hpc hk hfills hnew =>
      have hfq := fills_all { p with threads := threads } hk hfills
      simp only [hpc, hk, Option.some.injEq, forall_eq', ← hnew]
      simp [setProtocol, hfq, hpc, imp_and, and_assoc]
  | adds k p pkt threads new hpc hk hfills hnew =>
      have hfq := fills_all { p with threads := threads, added := p.added ++ [pkt] } hk hfills
      simp only [hpc, hk, Option.some.injEq, forall_eq', ← hnew]
      simp [setProtocol, hfq, imp_and, and_assoc]

/-- The flow-queue thread leaves the packet queues and the lists of the tables. -/
theorem workOn_keeps {k : ℕ} {p p' : ProtocolQueues} (hk : s.protocols[k]? = some p)
    (hwork : workOn rspHdlen flt p k = some p') :
    ((∀ q ∈ s.protocols.set k p', q.pq = []) ↔ ∀ q ∈ s.protocols, q.pq = []) ∧
      ((∀ q ∈ s.protocols.set k p', q.threads.table.Empty) ↔
        ∀ q ∈ s.protocols, q.threads.table.Empty) := by
  obtain ⟨threads, hstep, rfl⟩ := Option.map_eq_some_iff.mp hwork
  obtain ⟨htable, -, -⟩ := Threads.flowQueue_takes hstep
  refine ⟨forall_mem_set (P := fun q : ProtocolQueues => q.pq = []) hk Iff.rfl,
    forall_mem_set (P := fun q : ProtocolQueues => q.threads.table.Empty) hk ?_⟩
  unfold FlowHashTable.Empty
  rw [htable]

theorem flowStep_iff (h : s.FlowStep rspHdlen flt s') :
    s'.NothingStranded ↔ s.NothingStranded ∧ s.InTime .flowQueue := by
  simp only [nothingStranded_iff, InTime]
  cases h with
  | ends hpc hstop => simp [hpc, hstop, and_assoc]
  | starts hpc hstop => simp [hpc, hstop]
  | moves k flowThread hpc hto => rcases hto with rfl | rfl <;> simp [hpc]
  | takes k p p' hpc hk hwork =>
      obtain ⟨hpq, htable⟩ := workOn_keeps hk hwork
      simp [setProtocol, hpq, htable, hpc]
  | goesOn k p p' hpc hk hwork =>
      obtain ⟨hpq, htable⟩ := workOn_keeps hk hwork
      simp [setProtocol, hpq, htable, hpc]
  | finishes k p p' hpc hk hwork hidle =>
      obtain ⟨hpq, htable⟩ := workOn_keeps hk hwork
      simp [setProtocol, hpq, htable, hpc]

theorem scrubStep_iff {now : ℕ → Int} (h : s.ScrubStep now s') :
    s'.NothingStranded ↔ s.NothingStranded ∧ s.InTime (.scrubber now) := by
  simp only [nothingStranded_iff, InTime]
  cases h with
  | moves scrubThread hpc hto =>
      rcases hpc with hpc | ⟨k, hpc⟩ <;> simp [hpc, hto]
  | scrubs k cleanse p threads new scrubThread hpc hk hfills hnew hto =>
      have hfq := fills_all { p with threads := threads } hk hfills
      have hpq := forall_mem_set (P := fun q : ProtocolQueues => q.pq = [])
        (b := { p with threads := threads }) hk Iff.rfl
      simp only [hpc, hk, Option.some.injEq, forall_eq', ← hnew]
      simp only [setProtocol, hfq, hpq, hto, imp_and, and_assoc, reduceCtorEq, false_imp_iff,
        implies_true, true_and]
  | ends hpc =>
      simp only [forall_const, hpc, reduceCtorEq, IsEmpty.forall_iff, implies_true, true_and]
      tauto

theorem timerStep_iff (h : s.TimerStep s') : s'.NothingStranded ↔ s.NothingStranded := by
  cases h with
  | scans k p table hk htable hfq =>
      have hfqs := forall_mem_set (P := fun q : ProtocolQueues => q.threads.table.fq = [])
        (b := { p with threads := { p.threads with table := table } }) hk (by rw [hfq])
      have htables := forall_mem_set (P := fun q : ProtocolQueues => q.threads.table.Empty)
        (b := { p with threads := { p.threads with table := table } }) hk
        (by unfold FlowHashTable.Empty; rw [htable])
      have hpqs := forall_mem_set (P := fun q : ProtocolQueues => q.pq = [])
        (b := { p with threads := { p.threads with table := table } }) hk Iff.rfl
      simp only [nothingStranded_iff, setProtocol, hfqs, htables, hpqs]

/-- **A step strands nothing exactly when** it is in time. -/
theorem step_iff {a : PipelineAction} (h : s.step rspHdlen flt a = some s') :
    s'.NothingStranded ↔ s.NothingStranded ∧ s.InTime a := by
  cases a with
  | stop =>
      obtain rfl := Option.some.inj h
      simp [nothingStranded_iff, InTime]
  | frame frame addr =>
      simp only [step] at h
      split at h
      · obtain rfl := Option.some.inj h
        simp [nothingStranded_iff, InTime]
      · cases h
  | capture => exact captureStep_iff (captureStep_cases h)
  | rawPacket => exact rawStep_iff (rawStep_cases h)
  | packetQueue now mem => exact packetStep_iff now mem (packetStep_cases h)
  | flowQueue => exact flowStep_iff (flowStep_cases h)
  | scrubber now => exact scrubStep_iff (scrubStep_cases h)
  | timer k i => simpa [InTime] using timerStep_iff (timerStep_cases h)

/-- When the threads have ended, nothing is lost exactly when nothing is stranded. -/
theorem losesNothing_iff (h : s.Accounts) (hover : s.Over) :
    s.LosesNothing ↔ s.NothingStranded := by
  constructor
  · intro hlost
    exact ⟨fun _ => hlost.rpq, fun _ => hlost.pq, fun _ _ => hlost.table, fun _ => hlost.fq⟩
  · intro hclean
    have hrpq := hclean.raw hover.raw
    have hpq := hclean.packets hover.packets
    have hfq := hclean.flows hover.flows
    have hbalanced : ∀ p ∈ s.protocols, ∃ k, p.Balanced (s.packetThread.held k) False := by
      intro p hp
      obtain ⟨k, hk⟩ := List.mem_iff_getElem?.mp hp
      obtain ⟨hpackets, hflows, hidle⟩ := h.protocols k p hk
      exact ⟨k, hpackets, hflows, fun _ => hidle (by simp [hover.flows])⟩
    exact {
      rpq := hrpq
      preprocessed := by
        have hframes := h.frames
        simpa [hover.raw, RawThread.held, hrpq] using hframes.symm
      pq := hpq
      added := by
        intro p hp
        obtain ⟨k, hb⟩ := hbalanced p hp
        have hpackets := hb.packets
        simpa [hover.packets, PacketQueueThread.held, hpq p hp] using hpackets.symm
      table := hclean.tables hover.packets hover.scrubber
      fq := hfq
      processed := by
        intro p hp
        obtain ⟨k, hb⟩ := hbalanced p hp
        have hflows := hb.flows
        simpa [hb.idle id, FlowThread.pending, hfq p hp] using hflows.symm }

end Steps

end Pipeline

/-! ## The last scrubbing of empty tables -/

section LastScrubbing

variable (rspHdlen : ℕ → Option (List UInt8) → UInt16 → Int) (flt : ℕ → FlowFilter)

/-- Scrubbing an empty table only goes on to the next bucket. -/
theorem Threads.scrub_empty {rspHdlen : Option (List UInt8) → UInt16 → Int} {flt : FlowFilter}
    {s : Threads} (hempty : s.table.Empty) (now : ℕ → Int) (timeout : Int) :
    s.step rspHdlen flt (.scrub now timeout) =
      some { s with scrubAt := (s.scrubAt + 1) % HASH_SIZE } := by
  have hbucket : s.table.scrubBucket s.scrubAt now timeout = some (s.table, []) := by
    unfold FlowHashTable.scrubBucket
    rw [hempty s.scrubAt]
    unfold FlowHashTable.scrubLoop
    rfl
  simp [Threads.step, hbucket]

/-- The scrubber stands before bucket `i`. -/
def ProtocolQueues.scrubAt (p : ProtocolQueues) (i : ℕ) : ProtocolQueues :=
  { p with threads := { p.threads with scrubAt := i } }

namespace Pipeline

/-- One bucket of the last scrubbing of an empty table. -/
theorem cleanse_step (now : ℕ → Int) {k : ℕ} {s : Pipeline} {p : ProtocolQueues}
    (hk : s.protocols[k]? = some p) (hempty : p.threads.table.Empty)
    (hpc : s.scrubThread = .scrubbing k true) : step rspHdlen flt s (.scrubber now) =
      some { s.setProtocol k (p.scrubAt ((p.threads.scrubAt + 1) % HASH_SIZE)) with
        scrubThread := if (p.threads.scrubAt + 1) % HASH_SIZE = 0 then .exiting
          else .scrubbing k true } := by
  simp only [step, scrubStep, hpc, hk, Threads.scrub_empty hempty, Option.bind_eq_bind,
    Option.bind_some, if_true]
  split
  · rfl
  · simp [setProtocol, hpc, ProtocolQueues.scrubAt]

/-- The rest of the last scrubbing of an empty table. -/
theorem cleanse_rest (now : ℕ → Int) {k n : ℕ} {s : Pipeline} {p : ProtocolQueues}
    (hk : s.protocols[k]? = some p) (hempty : p.threads.table.Empty)
    (hpc : s.scrubThread = .scrubbing k true)
    (hat : p.threads.scrubAt + (n + 1) = HASH_SIZE) :
    run (step rspHdlen flt) s (List.replicate (n + 1) (.scrubber now)) =
      some { s.setProtocol k (p.scrubAt 0) with scrubThread := .exiting } := by
  have hstep := cleanse_step rspHdlen flt now hk hempty hpc
  induction n generalizing s p with
  | zero =>
      have hwrap : (p.threads.scrubAt + 1) % HASH_SIZE = 0 := by
        rw [show p.threads.scrubAt + 1 = HASH_SIZE from hat, Nat.mod_self]
      rw [List.replicate_one, run_cons, hstep, hwrap]
      rfl
  | succ n ih =>
      have hmod : (p.threads.scrubAt + 1) % HASH_SIZE = p.threads.scrubAt + 1 :=
        Nat.mod_eq_of_lt (by omega)
      have hne : ¬ p.threads.scrubAt + 1 = 0 := by omega
      have hlt : k < s.protocols.length := (List.getElem?_eq_some_iff.mp hk).1
      rw [hmod, if_neg hne] at hstep
      have hk' : ({ s.setProtocol k (p.scrubAt (p.threads.scrubAt + 1)) with
          scrubThread := .scrubbing k true } : Pipeline).protocols[k]? =
            some (p.scrubAt (p.threads.scrubAt + 1)) := List.getElem?_set_self hlt
      have hat' : (p.scrubAt (p.threads.scrubAt + 1)).threads.scrubAt + (n + 1) = HASH_SIZE := by
        rw [← hat]
        simp only [ProtocolQueues.scrubAt]
        omega
      rw [List.replicate_succ, run_cons, hstep, Option.bind_some,
        ih hk' hempty rfl hat' (cleanse_step rspHdlen flt now hk' hempty rfl)]
      simp [setProtocol, ProtocolQueues.scrubAt]

/-- The analysis of one protocol is over but for the last scrubbing, which will find the
table empty. -/
structure Settled (s : Pipeline) (p : ProtocolQueues) : Prop where
  protocols : s.protocols = [p]
  stopped : s.stopped = true
  raw : s.rawThread = .ended
  packets : s.packetThread = .ended
  flows : s.flowThread = .ended
  scrubber : s.scrubThread = .asleep
  scrubAt : p.threads.scrubAt = 0
  empty : p.threads.table.Empty

/-- The last scrubbing, from the end of the sleep to the thread's own end. -/
def lastScrubbing : List PipelineAction := List.replicate (HASH_SIZE + 3) (.scrubber fun _ => 0)

theorem Settled.run_lastScrubbing {s : Pipeline} {p : ProtocolQueues} (h : s.Settled p) :
    run (step rspHdlen flt) s lastScrubbing = some { s with scrubThread := .ended } := by
  obtain ⟨n, hn⟩ : ∃ n, HASH_SIZE = n + 1 := ⟨13199, rfl⟩
  have hk : s.protocols[0]? = some p := by
    rw [h.protocols]
    rfl
  have hp : p.scrubAt 0 = p := by
    rw [← h.scrubAt]
    rfl
  have hset : s.protocols.set 0 p = s.protocols := by
    rw [h.protocols]
    rfl
  have hscrub : run (step rspHdlen flt) { s with scrubThread := .scrubbing 0 true }
      (List.replicate (n + 1) (.scrubber fun _ => 0)) =
        some { s with scrubThread := .exiting } := by
    have hrest := cleanse_rest rspHdlen flt (fun _ => 0) (n := n)
      (s := { s with scrubThread := .scrubbing 0 true }) hk h.empty rfl
      (by rw [h.scrubAt, hn, Nat.zero_add])
    rw [hp] at hrest
    simpa only [setProtocol, hset] using hrest
  have hsplit : lastScrubbing = .scrubber (fun _ => 0) :: .scrubber (fun _ => 0) ::
      (List.replicate (n + 1) (.scrubber fun _ => 0) ++ [.scrubber fun _ => 0]) := by
    unfold lastScrubbing
    rw [hn, ← List.replicate_succ', List.replicate_succ, List.replicate_succ]
  have hwake : step rspHdlen flt s (.scrubber fun _ => 0) =
      some { s with scrubThread := .turn 0 } := by
    simp [step, scrubStep, h.scrubber]
  have hturn : step rspHdlen flt { s with scrubThread := .turn 0 } (.scrubber fun _ => 0) =
      some { s with scrubThread := .scrubbing 0 true } := by
    simp [step, scrubStep, hk, h.stopped]
  rw [hsplit, run_cons, hwake, Option.bind_some, run_cons, hturn, Option.bind_some, run_append,
    hscrub]
  rfl

/-- A run that settles goes on to the end. -/
theorem Settled.run_to_end {s s₀ : Pipeline} {p : ProtocolQueues} {actions : List PipelineAction}
    (h : s.Settled p) (hrun : run (step rspHdlen flt) s₀ actions = some s) :
    run (step rspHdlen flt) s₀ (actions ++ lastScrubbing) =
      some { s with scrubThread := .ended } := by
  rw [run_append, hrun, Option.bind_some, h.run_lastScrubbing]

theorem Settled.over {s : Pipeline} {p : ProtocolQueues} (h : s.Settled p) :
    Over { s with scrubThread := .ended } :=
  ⟨h.stopped, h.raw, h.packets, h.flows, rfl⟩

end Pipeline

end LastScrubbing

/-- **Shutdown loses nothing exactly when** every step is in time: for any number of
protocols and every interleaving after which the analysis is stopped and the four threads
have ended. -/
theorem shutdown_loses_nothing_iff (rspHdlen : ℕ → Option (List UInt8) → UInt16 → Int)
    (flt : ℕ → FlowFilter) (protocols : List Protocol) (actions : List PipelineAction)
    {s : Pipeline} (hrun : run (Pipeline.step rspHdlen flt) (.start protocols) actions = some s)
    (hover : s.Over) : s.LosesNothing ↔
      EveryStep (Pipeline.step rspHdlen flt) Pipeline.InTime (.start protocols) actions := by
  have hstart := Pipeline.nothingStranded_start protocols
  have haccounts : s.Accounts :=
    run_inv (fun _ _ _ h hstep => h.step hstep) (Pipeline.accounts_start protocols) hrun
  have hfinal := final_iff_everyStep (fun _ _ _ hstep => Pipeline.step_iff hstep) hrun
  rw [Pipeline.losesNothing_iff haccounts hover, hfinal]
  exact and_iff_right hstart

/-! ## Two runs -/

/-- A MySQL server's segment of four bytes, with a FIN. -/
def finFrame : Frame where
  raw := List.replicate 12 0 ++ [0x08, 0x00] ++
    ([0x45, 0x00, 0x00, 44] ++ List.replicate 5 0 ++ [0x06] ++ List.replicate 10 0) ++
    ([0x0c, 0xea, 0x12, 0x34] ++ List.replicate 8 0 ++ [0x50, 0x11] ++ List.replicate 6 0) ++
    [0x00, 0x00, 0x00, 0x01]
  len := 58
  tvSec := 0
  tvUsec := 0
  captured := by decide

/-- The frame is captured and preprocessed. -/
def received : List PipelineAction :=
  [.frame finFrame 0, .capture, .capture, .rawPacket, .rawPacket]

/-- `process_packet_queue` goes on `n` times. -/
def packetQueueSteps (n : ℕ) : List PipelineAction :=
  List.replicate n (.packetQueue { tvSec := 0, tvUsec := 0 } Flow.zero)

/-- The analysis is stopped when `process_packet_queue` and `process_flow_queue` have gone once
through the protocols; then the threads notice it. -/
def stoppedAfterwards : List PipelineAction :=
  received ++ packetQueueSteps 7 ++ List.replicate 5 .flowQueue ++ [.stop] ++ packetQueueSteps 1 ++
    [.flowQueue, .rawPacket, .rawPacket]

/-- The analysis is stopped when the packet is on the packet queue. -/
def stoppedBetween : List PipelineAction :=
  received ++ [.stop] ++ packetQueueSteps 1 ++ [.flowQueue, .rawPacket, .rawPacket]

theorem run_stoppedAfterwards : ∃ s p,
    run (Pipeline.step (fun _ _ _ => 0) fun _ => noFilter) (.start [Protocol.mySql])
        stoppedAfterwards = some s ∧
      s.Settled p ∧ s.rpq = [] ∧ p.pq = [] ∧ p.threads.table.fq = [] ∧ p.processed = [0] := by
  refine ⟨_, _, rfl, ⟨rfl, rfl, rfl, rfl, rfl, rfl, rfl, fun i => ?_⟩, rfl, rfl, rfl, rfl⟩
  -- the flow was put into its bucket and taken out again
  change (Function.update (Function.update FlowHashTable.new.table 7156 ⟨some 0, some 0, 1⟩) 7156
    ⟨none, none, 0⟩ i).first = none
  by_cases hi : i = 7156 <;> simp [hi, FlowHashTable.new]

theorem shutdown_loses_nothing_iff_afterwards : ∃ s,
    run (Pipeline.step (fun _ _ _ => 0) fun _ => noFilter) (.start [Protocol.mySql])
        (stoppedAfterwards ++ Pipeline.lastScrubbing) = some s ∧
      s.Over ∧ EveryStep (Pipeline.step (fun _ _ _ => 0) fun _ => noFilter) Pipeline.InTime
        (.start [Protocol.mySql]) (stoppedAfterwards ++ Pipeline.lastScrubbing) := by
  obtain ⟨s, p, hbefore, hsettled, hrpq, hpq, hfq, -⟩ := run_stoppedAfterwards
  have hrun := hsettled.run_to_end _ _ hbefore
  have honly : ∀ q ∈ s.protocols, q = p := by
    rw [hsettled.protocols]
    simp
  have hclean : Pipeline.NothingStranded { s with scrubThread := .ended } :=
    ⟨fun _ => hrpq, fun _ q hq => honly q hq ▸ hpq, fun _ _ q hq => honly q hq ▸ hsettled.empty,
      fun _ q hq => honly q hq ▸ hfq⟩
  have haccounts := run_inv (fun _ _ _ h hstep => Pipeline.Accounts.step h hstep)
    (Pipeline.accounts_start [Protocol.mySql]) hrun
  exact ⟨_, hrun, hsettled.over, (shutdown_loses_nothing_iff _ _ _ _ hrun hsettled.over).mp
    ((Pipeline.losesNothing_iff haccounts hsettled.over).mpr hclean)⟩

theorem run_stoppedBetween : ∃ s p,
    run (Pipeline.step (fun _ _ _ => 0) fun _ => noFilter) (.start [Protocol.mySql])
        stoppedBetween = some s ∧
      s.Settled p ∧ p.pq ≠ [] := by
  refine ⟨_, _, rfl, ⟨rfl, rfl, rfl, rfl, rfl, rfl, rfl, fun _ => rfl⟩, ?_⟩
  simp

/-- **A packet on its queue is lost at the stop**: `process_packet_queue` breaks off and
leaves it there. -/
theorem shutdown_loses_packet :
    ¬ ∀ (rspHdlen : ℕ → Option (List UInt8) → UInt16 → Int) (flt : ℕ → FlowFilter)
      (protocols : List Protocol) (actions : List PipelineAction) (s : Pipeline),
      run (Pipeline.step rspHdlen flt) (.start protocols) actions = some s → s.Over →
        s.LosesNothing := by
  intro h
  obtain ⟨s, p, hbefore, hsettled, hpq⟩ := run_stoppedBetween
  have hrun := hsettled.run_to_end _ _ hbefore
  have hkept := h _ _ _ _ _ hrun hsettled.over
  exact hpq (hkept.pq p (by simp [hsettled.protocols]))

end MonitoringTool.Sniffer
