import MonitoringTool.Lib.Run
import MonitoringTool.Sniffer.FlowHashTable

/-!
# A bucket that is too full

`HASH_FLOW` looks at the last bytes of the addresses and ports only, so there are more than
2^31 connections whose flows are all in one bucket.  `run_crowd` adds the first request of
each, to any system that has the table as a part of its state: after 2^31 of them the counter
of the bucket is negative, and `find` answers none of its flows (`Crowded.find_none`).
-/

namespace MonitoringTool.Sniffer

open Lib Function

/-! ## The connections -/

/-- The socket of connection `n` of the crowd: only the last bytes of its addresses, which are
0, and those of its ports are hashed. -/
def crowdSocket (n : ℕ) : FlowS where
  saddr := UInt32.ofNat (256 * (n % 2 ^ 24))
  daddr := UInt32.ofNat (256 * (n / 2 ^ 24))
  sport := 4000
  dport := 80

/-- The first request of connection `n`. -/
def crowdPacket (n : ℕ) : PacketT :=
  { webPacket n true 100 15 20 REQ with
    saddr := (crowdSocket n).saddr
    daddr := (crowdSocket n).daddr }

theorem lowByte_mul (n : ℕ) : lowByte (UInt32.ofNat (256 * n)) = 0 := by
  have hmod : (256 * n) % 2 ^ 32 % 2 ^ 8 = 0 := by omega
  rw [← UInt32.toNat_inj, lowByte, UInt32.toNat_and, UInt32.toNat_ofNat']
  exact (Nat.and_two_pow_sub_one_eq_mod _ 8).trans hmod

/-- The bucket of all these connections. -/
def crowdBucket : ℕ := hashFlow (crowdSocket 0)

theorem hashFlow_crowdSocket (n : ℕ) : hashFlow (crowdSocket n) = crowdBucket := by
  unfold crowdBucket hashFlow crowdSocket
  simp only [lowByte_mul]

theorem crowdSocket_inj {m n : ℕ} (hm : m < 2 ^ 31) (hn : n < 2 ^ 31)
    (h : crowdSocket m = crowdSocket n) : m = n := by
  have hsaddr := congrArg (fun s => s.saddr.toNat) h
  have hdaddr := congrArg (fun s => s.daddr.toNat) h
  simp only [crowdSocket, UInt32.toNat_ofNat'] at hsaddr hdaddr
  omega

/-- No connection is the other direction of one. -/
theorem crowdSocket_ne_flip (m n : ℕ) : crowdSocket m ≠ (crowdSocket n).flip := by
  intro h
  have hport : (4000 : UInt16) = 80 := congrArg FlowS.sport h
  exact absurd hport (by decide)

theorem crowdPacket_stored (n : ℕ) : Stored (crowdPacket n) true :=
  show Stored (webPacket 0 true 100 15 20 REQ) true by decide

/-! ## The table -/

/-- The flows of the first `n` connections are linked in the bucket, and there are no others. -/
structure Crowded (t : FlowHashTable) (n : ℕ) (chain : ℕ → List ℕ) : Prop where
  shape : Shape t chain
  fresh_eq : t.fresh = n
  linked : ∀ i < n, i ∈ chain crowdBucket
  socket_eq : ∀ i < n, (t.flows i).socket = crowdSocket i

namespace Crowded

variable {t : FlowHashTable} {n : ℕ} {chain : ℕ → List ℕ}

theorem new : Crowded .new 0 fun _ => [] where
  shape := Shape.new
  fresh_eq := rfl
  linked _ hi := absurd hi (Nat.not_lt_zero _)
  socket_eq _ hi := absurd hi (Nat.not_lt_zero _)

theorem roomy (h : Crowded t n chain) (hn : n < 2 ^ 31) : t.Roomy :=
  h.shape.roomy_of_fresh (h.fresh_eq ▸ hn)

/-- The first packet of the next connection makes it a flow. -/
theorem next (h : Crowded t n chain) (hn : n < 2 ^ 31) :
    ∃ t' chain', t.addPacket Flow.zero ⟨0, 0⟩ (crowdPacket n) = some t' ∧
      Crowded t' (n + 1) chain' := by
  have hother : ∀ {i f : ℕ}, f ∈ chain i → ∃ m < n, (t.flows f).socket = crowdSocket m := by
    intro i f hf
    have hlt := h.fresh_eq ▸ h.shape.lt_fresh i f hf
    exact ⟨f, hlt, h.socket_eq f hlt⟩
  rcases h.shape.addPacket_cases Flow.zero ⟨0, 0⟩ (crowdPacket n) with
    ⟨i, f, src, -, -, hf, hsocket, -⟩ |
    ⟨-, src, t₁, chain₁, t', chain', htype, hnew, hadd, hadded⟩ | ⟨-, htype, -⟩
  · -- no flow has the socket of connection `n`
    obtain ⟨m, hm, hflow⟩ := hother hf
    rw [hsocket] at hflow
    cases src with
    | true => exact absurd (crowdSocket_inj hn (hm.trans hn) hflow) (Nat.ne_of_gt hm)
    | false => exact absurd hflow.symm (crowdSocket_ne_flip m n)
  · obtain rfl : src = true := by
      cases src with
      | true => rfl
      | false => exact absurd (show REQ = RSP from htype) (by decide)
    have hkeep := Flow.addPacket_stored (Flow.new Flow.zero (crowdSocket n)) ⟨0, 0⟩ _ true
      (crowdPacket_stored n)
    have hmem : ∀ j g, g ∈ chain' j ↔ g ∈ chain j ∨ (g = n ∧ j = crowdBucket) := by
      intro j g
      rw [hadded.mem_chain_iff, hnew.mem_iff (h.roomy hn), h.fresh_eq]
      have hbucket : hashFlow ((crowdPacket n).flowSocket true) = crowdBucket :=
        hashFlow_crowdSocket n
      rw [hbucket]
      exact and_iff_left fun _ => hkeep
    have hold : ∀ i < n, t'.flows i = t.flows i := by
      intro i hi
      have hne : i ≠ t.fresh := h.fresh_eq ▸ Nat.ne_of_lt hi
      rw [hadded.flows_eq, update_of_ne hne, hnew.flows_eq, update_of_ne hne]
    refine ⟨t', chain', hadd, hadded.shape, ?_, ?_, ?_⟩
    · rw [hadded.fresh_eq, hnew.fresh_eq, h.fresh_eq]
    · intro i hi
      rcases Nat.lt_succ_iff_lt_or_eq.mp hi with hi | rfl
      · exact (hmem _ i).mpr (.inl (h.linked i hi))
      · exact (hmem _ i).mpr (.inr ⟨rfl, rfl⟩)
    · intro i hi
      rcases Nat.lt_succ_iff_lt_or_eq.mp hi with hi | rfl
      · rw [hold i hi, h.socket_eq i hi]
      · rw [hadded.flows_eq, h.fresh_eq, update_self, (Flow.addPacket_pairs _ _ _ _).2.2.1]
        rfl
  · exact absurd rfl htype

theorem length_bucket (h : Crowded t n chain) : n ≤ (chain crowdBucket).length := by
  have hsub : List.range n ⊆ chain crowdBucket := fun i hi => h.linked i (List.mem_range.mp hi)
  simpa using (List.subperm_of_subset List.nodup_range hsub).length_le

/-- In a full bucket `find` finds nothing. -/
theorem find_none (h : Crowded t (2 ^ 31) chain) (i : ℕ) : t.find (crowdSocket i) = some none := by
  rw [h.shape.find_eq, hashFlow_crowdSocket, if_neg (Nat.not_lt.mpr h.length_bucket)]

/-- The other directions of the connections have no flow. -/
theorem find_flip (h : Crowded t n chain) (i : ℕ) : t.find (crowdSocket i).flip = some none := by
  obtain ⟨found, hfind⟩ : ∃ found, t.find (crowdSocket i).flip = some found :=
    ⟨_, h.shape.find_eq _⟩
  cases found with
  | none => exact hfind
  | some f =>
      obtain ⟨hf, hsocket⟩ := h.shape.find_mem hfind
      have hlt := h.fresh_eq ▸ h.shape.lt_fresh _ f hf
      rw [h.socket_eq f hlt] at hsocket
      exact absurd hsocket (crowdSocket_ne_flip f i)

/-- As long as the bucket is not full, `find` finds its flows. -/
theorem find_some (h : Crowded t n chain) (hn : n < 2 ^ 31) {i : ℕ} (hi : i < n) :
    ∃ f, t.find (crowdSocket i) = some (some f) := by
  rcases h.shape.find_cases (crowdSocket i) with ⟨f, -, hfind, -⟩ | ⟨-, hnone⟩
  · exact ⟨f, hfind⟩
  · exact absurd (h.socket_eq i hi) (hnone (h.roomy hn) _ i (h.linked i hi))

end Crowded

/-- The first packets of the connections reach the table through the calls of a system. -/
theorem run_crowd {σ ε : Type*} {step : σ → ε → Option σ} {table : σ → FlowHashTable}
    {call : ℕ → ε}
    (hstep : ∀ s n t', (table s).addPacket Flow.zero ⟨0, 0⟩ (crowdPacket n) = some t' →
      ∃ s', step s (call n) = some s' ∧ table s' = t')
    {s : σ} (hstart : table s = .new) {n : ℕ} (hn : n ≤ 2 ^ 31) :
    ∃ s' chain, run step s ((List.range n).map call) = some s' ∧ Crowded (table s') n chain := by
  induction n with
  | zero => exact ⟨s, _, rfl, hstart ▸ Crowded.new⟩
  | succ n ih =>
      obtain ⟨s₁, chain, hrun, h⟩ := ih (by omega)
      obtain ⟨t', chain', hadd, h'⟩ := h.next hn
      obtain ⟨s', hs', rfl⟩ := hstep s₁ n t' hadd
      refine ⟨s', chain', ?_, h'⟩
      rw [List.range_succ, List.map_append, run_append, hrun, Option.bind_some, List.map_singleton,
        run_cons, hs']
      rfl

end MonitoringTool.Sniffer
