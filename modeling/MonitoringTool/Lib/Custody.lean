import Mathlib.Data.List.Nodup
import Mathlib.Data.List.Perm.Subperm

/-!
# Things in custody

Things are handed to a system one after the other, and each of them is either released
or held by one of several holders.  `Conserved` says that nothing is lost, doubled or
released twice: what was released and what the holders hold is, up to order, what was
handed over.

The rules below are the moves a system can make.  A holder takes a new thing
(`Conserved.take`) or gives up all it has (`Conserved.release`), a new thing is released at once
(`Conserved.pass`), holders come (`Conserved.enter`) and go (`Conserved.retire`).  A holder that
forgets what it held cannot make up for it (`Conserved.forget`).
-/

namespace MonitoringTool.Lib

open Function

variable {α ι : Type*}

/-- What the holders `hs` hold together. -/
def held (hold : ι → List α) (hs : List ι) : List α := hs.flatMap hold

/-- Each of the things `all` is released once, or held once by one of the holders. -/
def Conserved (all released : List α) (hold : ι → List α) (hs : List ι) : Prop :=
  (released ++ held hold hs).Perm all

section Held

variable {hold hold' : ι → List α} {hs : List ι} {f : ι} {l : List α}

/-- Only what the holders hold counts. -/
theorem held_congr (h : ∀ g ∈ hs, hold' g = hold g) : held hold' hs = held hold hs :=
  List.flatMap_congr h

variable [DecidableEq ι]

/-- One of the holders, and the others. -/
theorem held_erase (hf : f ∈ hs) : (held hold hs).Perm (hold f ++ held hold (hs.erase f)) :=
  (List.perm_cons_erase hf).flatMap_right hold

/-- One of the holders with other things. -/
theorem held_update (hnodup : hs.Nodup) (hf : f ∈ hs) :
    (held (update hold f l) hs).Perm (l ++ held hold (hs.erase f)) := by
  have hothers : held (update hold f l) (hs.erase f) = held hold (hs.erase f) := by
    refine held_congr fun g hg => update_of_ne ?_ _ _
    rintro rfl
    exact hnodup.not_mem_erase hg
  have hsplit : (held (update hold f l) hs).Perm _ := held_erase hf
  rwa [update_self, hothers] at hsplit

/-- The holders that go, and those that stay. -/
theorem held_retire {gone : List ι} (hnodup : hs.Nodup) (hgone : gone.Nodup)
    (hsub : ∀ g ∈ gone, g ∈ hs) :
    (held hold hs).Perm (held hold gone ++ held hold (hs.filter (· ∉ gone))) := by
  have hperm : hs.Perm (gone ++ hs.filter (· ∉ gone)) := by
    refine (List.perm_ext_iff_of_nodup hnodup ?_).mpr fun g => ?_
    · refine List.nodup_append.mpr ⟨hgone, hnodup.filter _, fun g hg g' hg' heq => ?_⟩
      simp [← heq, hg] at hg'
    · by_cases hg : g ∈ gone
      · simp [hg, hsub g hg]
      · simp [hg]
  have hsplit := hperm.flatMap_right hold
  rwa [List.flatMap_append] at hsplit

end Held

namespace Conserved

variable {all released : List α} {hold hold' : ι → List α} {hs : List ι} {a : α} {f : ι}

/-- Only what the holders hold counts. -/
theorem congr (h : Conserved all released hold hs) (hsame : ∀ g ∈ hs, hold' g = hold g) :
    Conserved all released hold' hs := by
  unfold Conserved
  rwa [held_congr hsame]

/-- A new thing is released at once. -/
theorem pass (h : Conserved all released hold hs) (a : α) :
    Conserved (all ++ [a]) (released ++ [a]) hold hs := by
  have hmove : (released ++ [a] ++ held hold hs).Perm (released ++ held hold hs ++ [a]) := by
    rw [List.append_assoc, List.append_assoc]
    exact List.perm_append_comm.append_left released
  exact hmove.trans (List.Perm.append_right [a] h)

/-- Holders come with nothing. -/
theorem enter (h : Conserved all released hold hs) (hf : hold' f = [])
    (hsame : ∀ g ∈ hs, hold' g = hold g) : Conserved all released hold' (hs ++ [f]) := by
  unfold Conserved held
  rw [List.flatMap_append, List.flatMap_singleton, hf, List.append_nil]
  exact h.congr hsame

variable [DecidableEq ι]

/-- A holder takes a new thing. -/
theorem take (h : Conserved all released hold hs) (hnodup : hs.Nodup) (hf : f ∈ hs) {l : List α}
    (hl : l.Perm (hold f ++ [a])) :
    Conserved (all ++ [a]) released (update hold f l) hs := by
  have hmine : (held (update hold f l) hs).Perm (held hold hs ++ [a]) :=
    calc
      (held (update hold f l) hs).Perm (l ++ held hold (hs.erase f)) := held_update hnodup hf
      _ |>.Perm (hold f ++ [a] ++ held hold (hs.erase f)) := hl.append_right _
      _ |>.Perm (hold f ++ held hold (hs.erase f) ++ [a]) := by
          rw [List.append_assoc, List.append_assoc]
          exact List.perm_append_comm.append_left _
      _ |>.Perm (held hold hs ++ [a]) := (held_erase hf).symm.append_right _
  have hall := (hmine.append_left released).trans
    (List.Perm.of_eq (List.append_assoc released (held hold hs) [a]).symm)
  exact hall.trans (List.Perm.append_right [a] h)

/-- A holder gives up all it has. -/
theorem release (h : Conserved all released hold hs) (hnodup : hs.Nodup) (hf : f ∈ hs) :
    Conserved all (released ++ hold f) (update hold f []) hs := by
  unfold Conserved
  rw [List.append_assoc]
  have hmine : (hold f ++ held (update hold f []) hs).Perm (held hold hs) :=
    ((held_update hnodup hf).append_left (hold f)).trans (held_erase hf).symm
  exact (hmine.append_left released).trans h

/-- Holders go, and what they hold is released. -/
theorem retire (h : Conserved all released hold hs) (hnodup : hs.Nodup) {gone : List ι}
    (hgone : gone.Nodup) (hsub : ∀ g ∈ gone, g ∈ hs) :
    Conserved all (released ++ held hold gone) hold (hs.filter (· ∉ gone)) := by
  unfold Conserved
  rw [List.append_assoc]
  exact ((held_retire hnodup hgone hsub).symm.append_left released).trans h

/-- A holder that takes a new thing and forgets the others breaks the custody. -/
theorem forget (h : Conserved all released hold hs) (hnodup : hs.Nodup) (hf : f ∈ hs) {l : List α}
    (hl : l.length ≤ (hold f).length) :
    ¬ Conserved (all ++ [a]) released (update hold f l) hs := by
  intro h'
  have hbefore := h.length_eq
  have hafter := h'.length_eq
  have hmine : (held hold hs).length = _ := (held_erase hf).length_eq
  have hnow : (held (update hold f l) hs).length = _ := (held_update hnodup hf).length_eq
  simp only [List.length_append, List.length_singleton] at hbefore hafter hmine hnow
  omega

end Conserved

end MonitoringTool.Lib
