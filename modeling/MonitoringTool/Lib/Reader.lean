import MonitoringTool.Lib.Run

/-!
# Loops that read an input to its end

A reader is the body of a loop `while (rem > 0)`: it takes some of the input, at least one
element, and updates its state, or it fails.  `Reader.run` is the loop.

`run_inv` carries an invariant of the state and of what is left of the input.
-/

namespace MonitoringTool.Lib

variable {ε σ α : Type*}

/-- The body of a loop over an input that is not used up: its first element and the others.
It leaves no more than the others. -/
structure Reader (ε σ α : Type*) where
  step : σ → α → List α → Except ε (σ × List α)
  shrinks : ∀ {s : σ} {a : α} {as : List α} {s' : σ} {rest : List α},
    step s a as = .ok (s', rest) → rest.length ≤ as.length

namespace Reader

/-- The loop. -/
def run (r : Reader ε σ α) (s : σ) : List α → Except ε σ
  | [] => .ok s
  | a :: as =>
      match _ : r.step s a as with
      | .error e => .error e
      | .ok (s', rest) => r.run s' rest
termination_by input => input.length
decreasing_by exact Nat.lt_succ_of_le (r.shrinks ‹_›)

variable {r : Reader ε σ α} {s s' : σ} {a : α} {as rest : List α}

@[simp] theorem run_nil : r.run s [] = .ok s := by
  rw [run]

/-- A turn that goes through is followed by the others. -/
theorem run_step (h : r.step s a as = .ok (s', rest)) : r.run s (a :: as) = r.run s' rest := by
  rw [run]
  split
  · next h' =>
      rw [h] at h'
      exact absurd h' (by simp)
  · next h' =>
      rw [h, Except.ok.injEq, Prod.mk.injEq] at h'
      rw [h'.1, h'.2]

/-- A turn that fails ends the loop. -/
theorem run_error {e : ε} (h : r.step s a as = .error e) : r.run s (a :: as) = .error e := by
  rw [run]
  split
  · next h' =>
      rw [h, Except.error.injEq] at h'
      rw [h']
  · next h' =>
      rw [h] at h'
      exact absurd h' (by simp)

/-- Induction over the turns of a loop: the input is used up, a turn fails, or it goes
through. -/
theorem run_induction {motive : σ → List α → Prop} (nil : ∀ s, motive s [])
    (error : ∀ s a as e, r.step s a as = .error e → motive s (a :: as))
    (step : ∀ s a as s' rest, r.step s a as = .ok (s', rest) → motive s' rest →
      motive s (a :: as))
    (s : σ) (input : List α) : motive s input := by
  induction hn : input.length using Nat.strongRecOn generalizing s input with
  | ind n ih =>
      subst hn
      cases input with
      | nil => exact nil s
      | cons a as =>
          cases hstep : r.step s a as with
          | error e => exact error s a as e hstep
          | ok out =>
              obtain ⟨s', rest⟩ := out
              have hlt : rest.length < (a :: as).length := Nat.lt_succ_of_le (r.shrinks hstep)
              exact step s a as s' rest hstep (ih rest.length hlt s' rest rfl)

/-- An invariant of the state and of what is left of the input holds at the end. -/
theorem run_inv {P : σ → List α → Prop}
    (hstep : ∀ s a as s' rest, P s (a :: as) → r.step s a as = .ok (s', rest) → P s' rest)
    {input : List α} {t : σ} (hstart : P s input) (h : r.run s input = .ok t) : P t [] := by
  induction s, input using run_induction (r := r) with
  | nil s =>
      rw [run_nil, Except.ok.injEq] at h
      exact h ▸ hstart
  | error s a as e hs => simp [run_error hs] at h
  | step s a as s' rest hs ih =>
      rw [run_step hs] at h
      exact ih (hstep s a as s' rest hstart hs) h

/-- A failure that the loop ends with is the failure of one of its turns, in a state and
before an input that the invariant holds of. -/
theorem run_failed {P : σ → List α → Prop}
    (hstep : ∀ s a as s' rest, P s (a :: as) → r.step s a as = .ok (s', rest) → P s' rest)
    {input : List α} {e : ε} (hstart : P s input) (h : r.run s input = .error e) :
    ∃ t a as, P t (a :: as) ∧ r.step t a as = .error e := by
  induction s, input using run_induction (r := r) with
  | nil s => simp at h
  | error s a as e' hs =>
      rw [run_error hs, Except.error.injEq] at h
      exact ⟨s, a, as, hstart, h ▸ hs⟩
  | step s a as s' rest hs ih =>
      rw [run_step hs] at h
      exact ih (hstep s a as s' rest hstart hs) h

end Reader

end MonitoringTool.Lib
