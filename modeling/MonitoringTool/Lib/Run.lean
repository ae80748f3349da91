import Mathlib.Data.List.Basic
import Mathlib.Data.List.Infix

/-!
# Runs of a partial step function

A system is a step function `step : σ → ε → Option σ`: `none` says that the
event cannot happen in that state.  `run` folds it over a list of events.

Two ways of quantifying over a run are used throughout.

* `EveryState step P s es`: `P` holds in every state the run reaches.
* `EveryStep step G s es`: before each event of the run, `G` holds of the state
  and the event.

The rules below are the only inductions over runs in this development.
`run_inv` carries an invariant, `run_measure` bounds a measure, `everyStep_of_inv` reads a
guard off an invariant, `everyState_of_everyStep` carries one that a step preserves only under a
guard, `everyState_defined` besides shows that the run goes through,
`everyState_iff_everyStep` says that a guard which is exact for one step is exact
for whole runs, `everyState_iff_final`, `final_iff_everyStep` and
`everyStep_or_final` that damage which stays can be seen at the end, `run_sim`
relates two runs of which the second skips the events that do not concern it,
`run_rel` two that take the same events, and `run_map` a run to that of what is read off its
states.
-/

namespace MonitoringTool.Lib

variable {σ τ ε δ : Type*}

/-- Fold a partial step function over a list of events. -/
def run (step : σ → ε → Option σ) : σ → List ε → Option σ
  | s, [] => some s
  | s, e :: es => (step s e).bind fun s' => run step s' es

/-- A total step function, read as a partial one. -/
def total (f : σ → ε → σ) : σ → ε → Option σ := fun s e => some (f s e)

section Basic

variable (step : σ → ε → Option σ) (f : σ → ε → σ)

@[simp] theorem run_nil (s : σ) : run step s [] = some s := rfl

@[simp] theorem run_cons (s : σ) (e : ε) (es : List ε) :
    run step s (e :: es) = (step s e).bind fun s' => run step s' es := rfl

@[simp] theorem total_apply (s : σ) (e : ε) : total f s e = some (f s e) := rfl

/-- A run splits exactly where its list of events splits. -/
theorem run_append (s : σ) (xs ys : List ε) :
    run step s (xs ++ ys) = (run step s xs).bind fun s' => run step s' ys := by
  induction xs generalizing s with
  | nil => rfl
  | cons x xs ih =>
      simp only [List.cons_append, run_cons, Option.bind_assoc]
      congr 1
      funext s'
      exact ih s'

@[simp] theorem run_total (s : σ) (es : List ε) :
    run (total f) s es = some (es.foldl f s) := by
  induction es generalizing s with
  | nil => rfl
  | cons e es ih => simpa using ih (f s e)

theorem run_cons_some {s s' : σ} {e : ε} {es : List ε}
    (h : run step s (e :: es) = some s') :
    ∃ s₁, step s e = some s₁ ∧ run step s₁ es = some s' := by
  simpa [Option.bind_eq_some_iff] using h

end Basic

/-! ## States and steps of a run -/

/-- `P` holds in every state that the run of `es` from `s` reaches. -/
def EveryState (step : σ → ε → Option σ) (P : σ → Prop) (s : σ) (es : List ε) : Prop :=
  ∀ before, before <+: es → ∀ s', run step s before = some s' → P s'

/-- `G` holds of the state and the event at every step of the run of `es`
from `s`. -/
def EveryStep (step : σ → ε → Option σ) (G : σ → ε → Prop) (s : σ) (es : List ε) : Prop :=
  ∀ before e, before ++ [e] <+: es → ∀ s', run step s before = some s' → G s' e

section Unfold

variable {step : σ → ε → Option σ} {P : σ → Prop} {G : σ → ε → Prop}

@[simp] theorem everyState_nil {s : σ} : EveryState step P s [] ↔ P s := by
  simp [EveryState]

@[simp] theorem everyStep_nil {s : σ} : EveryStep step G s [] := by
  simp [EveryStep]

/-- The states of a run are its first state and the states of the rest. -/
theorem everyState_cons {s : σ} {e : ε} {es : List ε} :
    EveryState step P s (e :: es) ↔
      P s ∧ ∀ s', step s e = some s' → EveryState step P s' es := by
  constructor
  · intro h
    refine ⟨h [] List.nil_prefix s rfl, ?_⟩
    intro s' hs before hbefore s'' hrun
    exact h (e :: before) (by simpa using hbefore) s'' (by simpa [hs] using hrun)
  · rintro ⟨hs, hrest⟩ before hbefore s'' hrun
    cases before with
    | nil =>
        simp only [run_nil, Option.some.injEq] at hrun
        exact hrun ▸ hs
    | cons b before =>
        obtain ⟨rfl, hb⟩ := List.cons_prefix_cons.mp hbefore
        obtain ⟨s₁, hstep, hrun'⟩ := run_cons_some step hrun
        exact hrest s₁ hstep before hb s'' hrun'

/-- The steps of a run are its first step and the steps of the rest. -/
theorem everyStep_cons {s : σ} {e : ε} {es : List ε} :
    EveryStep step G s (e :: es) ↔
      G s e ∧ ∀ s', step s e = some s' → EveryStep step G s' es := by
  constructor
  · intro h
    refine ⟨h [] e (by simp) s rfl, ?_⟩
    intro s' hs before x hbefore s'' hrun
    exact h (e :: before) x (by simpa using hbefore) s'' (by simpa [hs] using hrun)
  · rintro ⟨hs, hrest⟩ before x hbefore s'' hrun
    cases before with
    | nil =>
        simp only [run_nil, Option.some.injEq] at hrun
        have hx : x = e := by simpa using hbefore
        exact hrun ▸ hx ▸ hs
    | cons b before =>
        obtain ⟨rfl, hb⟩ := List.cons_prefix_cons.mp hbefore
        obtain ⟨s₁, hstep, hrun'⟩ := run_cons_some step hrun
        exact hrest s₁ hstep before x hb s'' hrun'

/-- `EveryStep` can be evaluated along the run. -/
instance decidableEveryStep [∀ s e, Decidable (G s e)] :
    (s : σ) → (es : List ε) → Decidable (EveryStep step G s es)
  | _, [] => isTrue everyStep_nil
  | s, e :: es =>
      match h : step s e with
      | none => decidable_of_iff (G s e) (by simp [everyStep_cons, h])
      | some s' =>
          have := decidableEveryStep s' es
          decidable_of_iff (G s e ∧ EveryStep step G s' es) (by simp [everyStep_cons, h])

/-- `EveryState` can be evaluated along the run. -/
instance decidableEveryState [∀ s, Decidable (P s)] :
    (s : σ) → (es : List ε) → Decidable (EveryState step P s es)
  | s, [] => decidable_of_iff (P s) everyState_nil.symm
  | s, e :: es =>
      match h : step s e with
      | none => decidable_of_iff (P s) (by simp [everyState_cons, h])
      | some s' =>
          have := decidableEveryState s' es
          decidable_of_iff (P s ∧ EveryState step P s' es) (by simp [everyState_cons, h])

/-- What holds in every state holds before every step. -/
theorem EveryState.everyStep {s : σ} {es : List ε} (h : EveryState step P s es) :
    EveryStep step (fun s _ => P s) s es := fun before e hbefore s' hrun =>
  h before ((List.prefix_append before [e]).trans hbefore) s' hrun

theorem EveryState.final {s s' : σ} {es : List ε} (h : EveryState step P s es)
    (hrun : run step s es = some s') : P s' :=
  h es (List.prefix_refl es) s' hrun

end Unfold

/-! ## Induction over runs -/

section Rules

variable {step : σ → ε → Option σ} {Inv P : σ → Prop} {G : σ → ε → Prop}

/-- An invariant that every step preserves under the guard `G` holds in every
state of a run all of whose steps meet `G`. -/
theorem everyState_of_everyStep
    (hstep : ∀ s e s', Inv s → G s e → step s e = some s' → Inv s')
    {s : σ} {es : List ε} (hs : Inv s) (hG : EveryStep step G s es) :
    EveryState step Inv s es := by
  induction es generalizing s with
  | nil => simpa using hs
  | cons e es ih =>
      obtain ⟨hGe, hGrest⟩ := everyStep_cons.mp hG
      refine everyState_cons.mpr ⟨hs, ?_⟩
      intro s' hs'
      exact ih (hstep s e s' hs hGe hs') (hGrest s' hs')

/-- If under the invariant the guard makes a step possible and the step preserves the
invariant, a run all of whose steps meet the guard goes through, with the invariant in
every state. -/
theorem everyState_defined
    (hstep : ∀ s e, Inv s → G s e → ∃ s', step s e = some s' ∧ Inv s')
    {s : σ} {es : List ε} (hs : Inv s) (hG : EveryStep step G s es) :
    (∃ s', run step s es = some s') ∧ EveryState step Inv s es := by
  constructor
  · induction es generalizing s with
    | nil => exact ⟨s, rfl⟩
    | cons e es ih =>
        obtain ⟨hGe, hGrest⟩ := everyStep_cons.mp hG
        obtain ⟨s₁, hs₁, hinv⟩ := hstep s e hs hGe
        obtain ⟨s', hs'⟩ := ih hinv (hGrest s₁ hs₁)
        exact ⟨s', by rw [run_cons, hs₁]; exact hs'⟩
  · apply everyState_of_everyStep _ hs hG
    intro s e s' hi hGe hs'
    obtain ⟨s₁, hs₁, hinv⟩ := hstep s e hi hGe
    obtain rfl : s₁ = s' := Option.some.inj (hs₁.symm.trans hs')
    exact hinv

/-- A run all of whose steps meet a guard that makes a step possible goes
through. -/
theorem run_defined (hdef : ∀ s e, G s e → ∃ s', step s e = some s')
    {s : σ} {es : List ε} (hG : EveryStep step G s es) : ∃ s', run step s es = some s' := by
  have hstep : ∀ s e, True → G s e → ∃ s', step s e = some s' ∧ True := by
    intro s e _ hGe
    obtain ⟨s', hs'⟩ := hdef s e hGe
    exact ⟨s', hs', trivial⟩
  exact (everyState_defined hstep trivial hG).1

/-- An invariant that every step preserves holds at the end of every run. -/
theorem run_inv (hstep : ∀ s e s', Inv s → step s e = some s' → Inv s')
    {s s' : σ} {es : List ε} (hs : Inv s) (hrun : run step s es = some s') : Inv s' := by
  have hall : EveryState step Inv s es :=
    everyState_of_everyStep (G := fun _ _ => True)
      (fun s e s' hi _ h => hstep s e s' hi h) hs (fun _ _ _ _ _ => trivial)
  exact hall.final hrun

/-- A measure that a step raises by one at most is bounded by the length of the run. -/
theorem run_measure {μ : σ → ℕ}
    (hstep : ∀ s e s', Inv s → step s e = some s' → Inv s' ∧ μ s' ≤ μ s + 1)
    {s s' : σ} {es : List ε} (hs : Inv s) (hrun : run step s es = some s') :
    Inv s' ∧ μ s' ≤ μ s + es.length := by
  induction es generalizing s with
  | nil =>
      obtain rfl := Option.some.inj hrun
      exact ⟨hs, Nat.le_refl _⟩
  | cons e es ih =>
      obtain ⟨s₁, hs₁, hrest⟩ := run_cons_some step hrun
      obtain ⟨hinv, hle⟩ := hstep s e s₁ hs hs₁
      obtain ⟨hinv', hle'⟩ := ih hinv hrest
      refine ⟨hinv', ?_⟩
      rw [List.length_cons]
      omega

/-- A guard that the invariant gives for every event with the property `E` holds at every
step of a run of such events. -/
theorem everyStep_of_inv {E : ε → Prop} (hguard : ∀ s e, Inv s → E e → G s e)
    (hkeep : ∀ s e s', Inv s → E e → step s e = some s' → Inv s')
    {s : σ} {es : List ε} (hs : Inv s) (hE : ∀ e ∈ es, E e) : EveryStep step G s es := by
  induction es generalizing s with
  | nil => exact everyStep_nil
  | cons e es ih =>
      have he : E e := hE e (by simp)
      refine everyStep_cons.mpr ⟨hguard s e hs he, fun s' hstep => ?_⟩
      exact ih (hkeep s e s' hs he hstep) fun x hx => hE x (by simp [hx])

/-- A run of events with the property `E` either meets the guard at every step
or ends in the lasting damage that the first step against the guard does. -/
theorem everyStep_or_final {Bad : σ → Prop} {E : ε → Prop}
    (hkeep : ∀ s e s', Inv s → E e → G s e → step s e = some s' → Inv s')
    (hbad : ∀ s e s', Inv s → ¬ G s e → step s e = some s' → Bad s')
    (hstay : ∀ s e s', Bad s → step s e = some s' → Bad s')
    {s s' : σ} {es : List ε} (hs : Inv s) (hE : ∀ e ∈ es, E e) (hrun : run step s es = some s') :
    EveryStep step G s es ∨ Bad s' := by
  induction es generalizing s with
  | nil => exact .inl everyStep_nil
  | cons e es ih =>
      obtain ⟨s₁, hstep, hrest⟩ := run_cons_some step hrun
      by_cases hG : G s e
      · have hs₁ : Inv s₁ := hkeep s e s₁ hs (hE e (by simp)) hG hstep
        rcases ih hs₁ (fun x hx => hE x (by simp [hx])) hrest with hall | hend
        · refine .inl (everyStep_cons.mpr ⟨hG, fun s'' hs'' => ?_⟩)
          obtain rfl : s₁ = s'' := Option.some.inj (hstep.symm.trans hs'')
          exact hall
        · exact .inr hend
      · exact .inr (run_inv hstay (hbad s e s₁ hs hG hstep) hrest)

/-- A property that a step keeps, and never restores, exactly under a guard holds at the
end of a run exactly when it holds at the start and every step meets the guard. -/
theorem final_iff_everyStep
    (hexact : ∀ s e s', step s e = some s' → (P s' ↔ P s ∧ G s e))
    {s s' : σ} {es : List ε} (hrun : run step s es = some s') :
    P s' ↔ P s ∧ EveryStep step G s es := by
  induction es generalizing s with
  | nil =>
      obtain rfl := Option.some.inj hrun
      simp
  | cons e es ih =>
      obtain ⟨s₁, hstep, hrest⟩ := run_cons_some step hrun
      have hall : EveryStep step G s (e :: es) ↔ G s e ∧ EveryStep step G s₁ es := by
        simp [everyStep_cons, hstep]
      rw [ih hrest, hexact s e s₁ hstep, hall, and_assoc]

/-- A guard that is exact for one step is exact for whole runs: if, under the
invariant, a step leads to a state satisfying `P` exactly when `G` holds before
it, a step that cannot happen meets `G`, and `P` restores the invariant, then `P`
holds in every state of the run exactly when `G` holds at every step. -/
theorem everyState_iff_everyStep
    (hP : ∀ s, Inv s → P s)
    (hexact : ∀ s e s', Inv s → step s e = some s' → (P s' ↔ G s e))
    (hinv : ∀ s e s', Inv s → step s e = some s' → P s' → Inv s')
    (hnone : ∀ s e, Inv s → step s e = none → G s e)
    {s : σ} {es : List ε} (hs : Inv s) :
    EveryState step P s es ↔ EveryStep step G s es := by
  induction es generalizing s with
  | nil => simpa using hP s hs
  | cons e es ih =>
      rw [everyState_cons, everyStep_cons]
      have hrest : ∀ s', step s e = some s' → P s' →
          (EveryState step P s' es ↔ EveryStep step G s' es) :=
        fun s' hs' hPs' => ih (hinv s e s' hs hs' hPs')
      constructor
      · rintro ⟨-, hall⟩
        have hstates : ∀ s', step s e = some s' → P s' :=
          fun s' hs' => (hall s' hs') [] List.nil_prefix s' rfl
        refine ⟨?_, fun s' hs' => (hrest s' hs' (hstates s' hs')).mp (hall s' hs')⟩
        cases hstep : step s e with
        | none => exact hnone s e hs hstep
        | some s' => exact (hexact s e s' hs hstep).mp (hstates s' hstep)
      · rintro ⟨hG, hall⟩
        refine ⟨hP s hs, fun s' hs' => ?_⟩
        exact (hrest s' hs' ((hexact s e s' hs hs').mpr hG)).mpr (hall s' hs')

/-- Where a step never restores `P`, the last state of a run speaks for all. -/
theorem everyState_iff_final (hback : ∀ s e s', step s e = some s' → P s' → P s)
    {s s' : σ} {es : List ε} (hrun : run step s es = some s') :
    EveryState step P s es ↔ P s' := by
  refine ⟨fun h => h.final hrun, ?_⟩
  rintro hP before ⟨rest, rfl⟩ s₁ hs₁
  rw [run_append, hs₁] at hrun
  by_contra hnot
  have hlost : ∀ s e s', ¬ P s → step s e = some s' → ¬ P s' :=
    fun s e s' hn hs hp => hn (hback s e s' hs hp)
  exact run_inv hlost hnot hrun hP

/-- A system refines a total abstract one: if from related states, under a guard on either
side, the concrete step is possible and follows the abstract step, every run whose steps meet
the guards is possible and follows the abstract run. -/
theorem run_refine_guarded {R : σ → τ → Prop} {f : τ → ε → τ} {H : τ → ε → Prop}
    (h : ∀ s t e, R s t → G s e → H t e → ∃ s', step s e = some s' ∧ R s' (f t e))
    {s : σ} {t : τ} {es : List ε} (hR : R s t) (hG : EveryStep step G s es)
    (hH : EveryStep (total f) H t es) : ∃ s', run step s es = some s' ∧ R s' (es.foldl f t) := by
  induction es generalizing s t with
  | nil => exact ⟨s, rfl, hR⟩
  | cons e es ih =>
      obtain ⟨hGe, hGrest⟩ := everyStep_cons.mp hG
      obtain ⟨hHe, hHrest⟩ := everyStep_cons.mp hH
      obtain ⟨s₁, hstep, hR₁⟩ := h s t e hR hGe hHe
      obtain ⟨s', hrun, hR'⟩ := ih hR₁ (hGrest s₁ hstep) (hHrest (f t e) rfl)
      exact ⟨s', by rw [run_cons, hstep]; exact hrun, hR'⟩

/-- **Simulation that skips events.**  `keep` names the event the second system
takes for an event of the first, or none.  If every step of the first system is
matched, under the guard `G`, by the kept step of the second or by no step, then
every guarded run is matched by the run of the kept events. -/
theorem run_sim {step' : τ → δ → Option τ} {R : σ → τ → Prop} (keep : ε → Option δ)
    (hskip : ∀ s t e s', R s t → G s e → keep e = none → step s e = some s' → R s' t)
    (hkeep : ∀ s t e d s', R s t → G s e → keep e = some d → step s e = some s' →
      ∃ t', step' t d = some t' ∧ R s' t')
    {s s' : σ} {t : τ} {es : List ε} (hR : R s t) (hG : EveryStep step G s es)
    (hrun : run step s es = some s') :
    ∃ t', run step' t (es.filterMap keep) = some t' ∧ R s' t' := by
  induction es generalizing s t with
  | nil =>
      simp only [run_nil, Option.some.injEq] at hrun
      exact ⟨t, rfl, hrun ▸ hR⟩
  | cons e es ih =>
      obtain ⟨hGe, hGrest⟩ := everyStep_cons.mp hG
      obtain ⟨s₁, hstep, hrest⟩ := run_cons_some step hrun
      cases hk : keep e with
      | none =>
          rw [List.filterMap_cons_none hk]
          exact ih (hskip s t e s₁ hR hGe hk hstep) (hGrest s₁ hstep) hrest
      | some d =>
          obtain ⟨t₁, ht₁, hR₁⟩ := hkeep s t e d s₁ hR hGe hk hstep
          obtain ⟨t', ht', hR'⟩ := ih hR₁ (hGrest s₁ hstep) hrest
          refine ⟨t', ?_, hR'⟩
          rw [List.filterMap_cons_some hk, run_cons, ht₁]
          exact ht'

/-! ## Two runs in lockstep -/

/-- Computations that go on in lockstep are related as long as each part is. -/
theorem rel_bind {R : σ → τ → Prop} {S : ε → δ → Prop} {x : Option σ} {y : Option τ}
    {f : σ → Option ε} {g : τ → Option δ} (h : Option.Rel R x y)
    (hfg : ∀ s t, R s t → Option.Rel S (f s) (g t)) : Option.Rel S (x.bind f) (y.bind g) := by
  cases h with
  | none => exact .none
  | some hR => exact hfg _ _ hR

theorem rel_map {R : σ → τ → Prop} {S : ε → δ → Prop} {x : Option σ} {y : Option τ}
    {f : σ → ε} {g : τ → δ} (h : Option.Rel R x y) (hfg : ∀ s t, R s t → S (f s) (g t)) :
    Option.Rel S (x.map f) (y.map g) := by
  cases h with
  | none => exact .none
  | some hR => exact .some (hfg _ _ hR)

/-- What is read off related results is the same. -/
theorem map_eq_of_rel {R : σ → τ → Prop} {x : Option σ} {y : Option τ} {f : σ → ε} {g : τ → ε}
    (h : Option.Rel R x y) (hfg : ∀ s t, R s t → f s = g t) : x.map f = y.map g := by
  cases h with
  | none => rfl
  | some hR => exact congrArg some (hfg _ _ hR)

theorem exists_of_rel_left {R : σ → τ → Prop} {s : σ} {y : Option τ}
    (h : Option.Rel R (some s) y) : ∃ t, y = some t ∧ R s t := by
  cases h with
  | some hR => exact ⟨_, rfl, hR⟩

theorem exists_of_rel_right {R : σ → τ → Prop} {x : Option σ} {t : τ}
    (h : Option.Rel R x (some t)) : ∃ s, x = some s ∧ R s t := by
  cases h with
  | some hR => exact ⟨_, rfl, hR⟩

/-- Two systems that the same event keeps related, or stops both of, stay related over
every run of such events. -/
theorem run_rel {step' : τ → ε → Option τ} {R : σ → τ → Prop} {E : ε → Prop}
    (h : ∀ s t e, R s t → E e → Option.Rel R (step s e) (step' t e))
    {s : σ} {t : τ} (hR : R s t) {es : List ε} (hE : ∀ e ∈ es, E e) :
    Option.Rel R (run step s es) (run step' t es) := by
  induction es generalizing s t with
  | nil => exact .some hR
  | cons e es ih =>
      have he : E e := hE e (by simp)
      rw [run_cons, run_cons]
      exact rel_bind (h s t e hR he) fun s' t' hR' => ih hR' fun x hx => hE x (by simp [hx])

/-- A system of which a part is a system of its own. -/
theorem run_map {step' : τ → ε → Option τ} {g : σ → τ}
    (h : ∀ s e, (step s e).map g = step' (g s) e) (s : σ) (es : List ε) :
    (run step s es).map g = run step' (g s) es := by
  induction es generalizing s with
  | nil => rfl
  | cons e es ih =>
      rw [run_cons, run_cons, ← h]
      cases step s e with
      | none => rfl
      | some s' => exact ih s'

end Rules

end MonitoringTool.Lib
