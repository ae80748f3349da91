import MonitoringTool.Sniffer.Pipeline

/-!
# The capture loop

`capture_main` reads frames until the analysis is stopped.  When there is no frame to read
it goes on at once, before it tests whether the analysis is stopped, and does so as well for
a frame that is too short.  So the branch that ends the analysis after the last frame of a
trace is never taken, and the loop is left only in a turn that reads a frame of full length.

`capture_loop_ends_iff` says exactly for which sequences of reads the loop ends as it should.
The capture thread of the pipeline takes its frames one by one: `captureLoop_turn` says that this
is what a turn of the loop does with a frame.
-/

namespace MonitoringTool.Sniffer

open Lib

/-! ## The loop -/

/-- What one turn of the loop meets: whether another thread calls `Analysis::stop` before
the turn tests it, what `pcap_next` returns, and where the copy would be allocated. -/
structure CaptureTurn where
  stop : Bool
  raw : Option Frame
  addr : ℕ

/-- `capture_main` between two turns of its loop. -/
structure CaptureLoop where
  /-- `isStopped` -/
  stopped : Bool
  rpq : List RawPkt
  /-- `capture_main` called `Analysis::stop` -/
  calledStop : Bool
  /-- the loop was left -/
  left : Bool

namespace CaptureLoop

/-- `capture_main` in front of its loop. -/
def start : CaptureLoop := { stopped := false, rpq := [], calledStop := false, left := false }

/-- The body of the loop. -/
def body (livemode : Int) (s : CaptureLoop) (raw : Option Frame) (addr : ℕ) :
    Option CaptureLoop :=
  match raw with
  | none => some s
  | some frame =>
      if frame.len < 54 then some s
      else if s.stopped then some { s with left := true }
      else if raw.isSome then
        (captureMain frame addr).map fun rpkt => { s with rpq := s.rpq ++ rpkt.toList }
      else if livemode = 0 then some { s with stopped := true, calledStop := true }
      else some s

/-- One turn; after the loop nothing is done any more. -/
def turn (livemode : Int) (s : CaptureLoop) (t : CaptureTurn) : Option CaptureLoop :=
  let s := { s with stopped := s.stopped || t.stop }
  if s.left then some s else s.body livemode t.raw t.addr

/-- The loop after `n` turns, unless a copy has read outside of a frame. -/
def after (livemode : Int) (turns : ℕ → CaptureTurn) (n : ℕ) : Option CaptureLoop :=
  run (turn livemode) start ((List.range n).map turns)

/-- A frame of full length, which the loop does not skip. -/
def IsLong (raw : Option Frame) : Prop := ∃ frame, raw = some frame ∧ 54 ≤ frame.len

/-! ## When the loop ends as it should -/

/-- `pcap_next` returns finitely many frames, and `NULL` ever after. -/
def FiniteTrace (turns : ℕ → CaptureTurn) : Prop := ∃ n, ∀ m, n ≤ m → (turns m).raw = none

/-- The loop is left at some time, and has called `Analysis::stop`. -/
def EndsAnalysis (livemode : Int) (turns : ℕ → CaptureTurn) : Prop :=
  ∃ n s, after livemode turns n = some s ∧ s.left = true ∧ s.calledStop = true

/-- Once the analysis is stopped, the next turn leaves the loop. -/
def LeftOnceStopped (livemode : Int) (turns : ℕ → CaptureTurn) : Prop :=
  ∀ n s, after livemode turns n = some s → s.left = false → s.stopped = true →
    ∃ s', after livemode turns (n + 1) = some s' ∧ s'.left = true

/-- The loop ends: in offline mode after the last frame, and in either mode when the analysis
is stopped. -/
def Ends (livemode : Int) (turns : ℕ → CaptureTurn) : Prop :=
  (livemode = 0 → FiniteTrace turns → EndsAnalysis livemode turns) ∧
    LeftOnceStopped livemode turns

/-! ## Turns -/

section Turns

variable {livemode : Int} {turns : ℕ → CaptureTurn} {s s' : CaptureLoop}

theorem after_succ (livemode : Int) (turns : ℕ → CaptureTurn) (n : ℕ) :
    after livemode turns (n + 1) =
      (after livemode turns n).bind fun s => turn livemode s (turns n) := by
  unfold after
  rw [List.range_succ, List.map_append, run_append]
  simp

/-- The branch that calls `Analysis::stop` is never taken. -/
theorem body_calledStop {raw : Option Frame} {addr : ℕ} (h : s.body livemode raw addr = some s') :
    s'.calledStop = s.calledStop := by
  unfold body at h
  cases raw with
  | none =>
      obtain rfl := Option.some.inj h
      rfl
  | some frame =>
      dsimp only at h
      split at h
      · obtain rfl := Option.some.inj h
        rfl
      · split at h
        · obtain rfl := Option.some.inj h
          rfl
        · -- there is a frame, since a read without one went on
          rw [if_pos (by rfl)] at h
          obtain ⟨rpkt, -, rfl⟩ := Option.map_eq_some_iff.mp h
          rfl

theorem turn_calledStop {t : CaptureTurn} (h : turn livemode s t = some s') :
    s'.calledStop = s.calledStop := by
  unfold turn at h
  dsimp only at h
  split at h
  · obtain rfl := Option.some.inj h
    rfl
  · have hcalled := body_calledStop h
    exact hcalled

theorem after_calledStop {n : ℕ} (h : after livemode turns n = some s) :
    s.calledStop = false := by
  unfold after at h
  have hstep : ∀ s t s', s.calledStop = false → turn livemode s t = some s' →
      s'.calledStop = false := fun s t s' hs hturn => (turn_calledStop hturn).trans hs
  exact run_inv hstep rfl h

/-- When the analysis is stopped, a turn leaves the loop exactly if it reads a frame of full
length, and such a turn reads nothing else. -/
theorem turn_stopped (hleft : s.left = false) (hstopped : s.stopped = true) (t : CaptureTurn) :
    ∃ s', turn livemode s t = some s' ∧ (s'.left = true ↔ IsLong t.raw) := by
  unfold turn body
  simp only [hleft, hstopped, Bool.true_or, Bool.false_eq_true, if_false, if_true]
  cases hraw : t.raw with
  | none => exact ⟨_, rfl, by simp [IsLong]⟩
  | some frame =>
      by_cases hshort : frame.len < 54
      · refine ⟨_, if_pos hshort, ?_⟩
        have hnot : ¬ 54 ≤ frame.len := UInt32.not_le.mpr hshort
        simp [IsLong, hnot]
      · refine ⟨_, if_neg hshort, ?_⟩
        have hlong : 54 ≤ frame.len := UInt32.not_lt.mp hshort
        simp [IsLong, hlong]

end Turns

end CaptureLoop

/-! ## The pipeline's capture thread -/

namespace Pipeline

/-- The loop of a pipeline that is between two turns, or has left it. -/
def captureLoop (s : Pipeline) (calledStop left : Bool) : CaptureLoop :=
  { stopped := s.stopped, rpq := s.rpq, calledStop := calledStop, left := left }

/-- A turn that reads a frame is what the capture thread of the pipeline does with it. -/
theorem captureLoop_turn (rspHdlen : ℕ → Option (List UInt8) → UInt16 → Int)
    (flt : ℕ → FlowFilter) {s : Pipeline} (hnext : s.capture = .next) (livemode : Int)
    (calledStop : Bool) (frame : Frame) (addr : ℕ) {t : CaptureLoop}
    (h : (s.captureLoop calledStop false).body livemode (some frame) addr = some t) :
    ∃ s', (run (step rspHdlen flt) s [.frame frame addr, .capture] = some s' ∨
        run (step rspHdlen flt) s [.frame frame addr, .capture, .capture] = some s') ∧
      t = s'.captureLoop calledStop t.left ∧ (t.left = true ↔ s'.capture = .ended) ∧
      (t.left = false ↔ s'.capture = .next) := by
  unfold CaptureLoop.body at h
  by_cases hshort : frame.len < 54
  · have hskip : captureMain frame addr = some none := by simp [captureMain, hshort]
    have hnot : ¬ (54 ≤ frame.len ∧ s.stopped = true) := fun hlong =>
      UInt32.not_le.mpr hshort hlong.1
    obtain rfl := Option.some.inj ((if_pos hshort).symm.trans h)
    refine ⟨{ s with capture := .next }, .inl ?_, rfl, by simp [captureLoop], by
      simp [captureLoop]⟩
    simp [step, hnext, captureStep, hnot, hskip]
  · have hlong : 54 ≤ frame.len := UInt32.not_lt.mp hshort
    simp only [if_neg hshort, captureLoop, Option.isSome_some, if_true] at h
    by_cases hstopped : s.stopped = true
    · rw [if_pos hstopped] at h
      obtain rfl := Option.some.inj h
      refine ⟨{ s with capture := .ended }, .inl ?_, rfl, by simp, by simp⟩
      simp [step, hnext, captureStep, hlong, hstopped]
    · rw [if_neg hstopped] at h
      obtain ⟨rpkt, hcopy, rfl⟩ := Option.map_eq_some_iff.mp h
      have hsome : ∃ copy, rpkt = some copy := by
        unfold captureMain at hcopy
        rw [if_neg hshort] at hcopy
        obtain ⟨r, -, heq⟩ := Option.bind_eq_some_iff.mp hcopy
        exact ⟨_, (Option.some.inj heq).symm⟩
      obtain ⟨copy, rfl⟩ := hsome
      refine ⟨{ s with
        rpq := s.rpq ++ [copy], captured := s.captured ++ [copy], capture := .next },
        .inr ?_, rfl, by simp, by simp⟩
      simp [step, hnext, captureStep, hlong, hstopped, hcopy]

end Pipeline

/-- **The end of the capture loop.**  For both modes and all reads: the loop ends as it should
if and only if it does not read a finite trace in offline mode, and each turn that begins with
the analysis stopped reads a frame of full length. -/
theorem capture_loop_ends_iff (livemode : Int) (turns : ℕ → CaptureTurn) :
    CaptureLoop.Ends livemode turns ↔
      ¬ (livemode = 0 ∧ CaptureLoop.FiniteTrace turns) ∧
        ∀ n s, CaptureLoop.after livemode turns n = some s → s.left = false →
          s.stopped = true → CaptureLoop.IsLong (turns n).raw := by
  have hfirst : (livemode = 0 → CaptureLoop.FiniteTrace turns →
      CaptureLoop.EndsAnalysis livemode turns) ↔
        ¬ (livemode = 0 ∧ CaptureLoop.FiniteTrace turns) := by
    have hnever : ¬ CaptureLoop.EndsAnalysis livemode turns := by
      rintro ⟨n, s, hs, -, hcalled⟩
      have hno := CaptureLoop.after_calledStop hs
      rw [hcalled] at hno
      exact absurd hno (by decide)
    tauto
  have hsecond : ∀ n s, CaptureLoop.after livemode turns n = some s → s.left = false →
      s.stopped = true → ((∃ s', CaptureLoop.after livemode turns (n + 1) = some s' ∧
        s'.left = true) ↔ CaptureLoop.IsLong (turns n).raw) := by
    intro n s hs hleft hstopped
    obtain ⟨s', hturn, hiff⟩ : ∃ s', CaptureLoop.turn livemode s (turns n) = some s' ∧
        (s'.left = true ↔ CaptureLoop.IsLong (turns n).raw) :=
      CaptureLoop.turn_stopped hleft hstopped (turns n)
    rw [CaptureLoop.after_succ, hs, Option.bind_some, hturn, ← hiff]
    simp
  refine and_congr hfirst ⟨fun h n s hs hleft hstopped => ?_, fun h n s hs hleft hstopped => ?_⟩
  · exact (hsecond n s hs hleft hstopped).mp (h n s hs hleft hstopped)
  · exact (hsecond n s hs hleft hstopped).mpr (h n s hs hleft hstopped)

/-- An empty trace: the analysis is not stopped after it. -/
theorem capture_loop_goes_on : ¬ ∀ livemode turns, CaptureLoop.Ends livemode turns := by
  intro h
  obtain ⟨hends, -⟩ := h 0 fun _ => { stop := false, raw := none, addr := 0 }
  obtain ⟨n, s, hs, -, hcalled⟩ := hends rfl ⟨0, fun _ _ => rfl⟩
  rw [CaptureLoop.after_calledStop hs] at hcalled
  exact absurd hcalled (by decide)

end MonitoringTool.Sniffer
