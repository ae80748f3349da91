import Mathlib.Algebra.BigOperators.Ring.Finset
import Mathlib.Algebra.BigOperators.Ring.List
import Mathlib.Algebra.Order.BigOperators.Group.List
import Mathlib.Algebra.Order.Field.Basic

/-!
# Counting the keys of events

A listing of keys with numbers *tallies* a list of events when it holds every key that
occurs among the events once, with the number of its occurrences; an event can be without a
key.  The listing writes its numbers with `num`, as a machine does.  The rules of the first
section say which changes of a listing keep up with one more event.

The keys that make up more than one part in `m` of the events are fewer than `m`, and the
parts of all keys together are no more than the whole.
-/

namespace MonitoringTool.Lib

variable {κ : Type*} [DecidableEq κ]

/-! ## Listings that keep up -/

/-- The listing holds every key of the events once, with the number of its occurrences. -/
structure Tallies {ν : Type*} (num : ℕ → ν) (l : List (κ × ν)) (events : List (Option κ)) :
    Prop where
  nodup : (l.map Prod.fst).Nodup
  mem_iff : ∀ k c, (k, c) ∈ l ↔ 0 < events.count (some k) ∧ c = num (events.count (some k))

namespace Tallies

variable {ν : Type*} {num : ℕ → ν} {l l' : List (κ × ν)} {events : List (Option κ)} {k : κ}

theorem nil : Tallies num ([] : List (κ × ν)) [] where
  nodup := List.nodup_nil
  mem_iff := by simp

/-- A key is listed if it has occurred. -/
theorem mem_keys_iff (h : Tallies num l events) (k : κ) :
    k ∈ l.map Prod.fst ↔ 0 < events.count (some k) := by
  constructor
  · intro hk
    obtain ⟨⟨j, c⟩, hmem, rfl⟩ := List.mem_map.mp hk
    exact ((h.mem_iff j c).mp hmem).1
  · intro hpos
    have hmem : (k, num (events.count (some k))) ∈ l := (h.mem_iff k _).mpr ⟨hpos, rfl⟩
    exact List.mem_map_of_mem hmem

/-- An event without a key changes nothing. -/
theorem without_key (h : Tallies num l events) : Tallies num l (events ++ [none]) where
  nodup := h.nodup
  mem_iff := by
    intro k c
    rw [h.mem_iff k c, List.count_append]
    simp

/-- The first event with a key brings an entry of its own. -/
theorem first (h : Tallies num l events) (hk : k ∉ l.map Prod.fst)
    (hp : l'.Perm ((k, num 1) :: l)) : Tallies num l' (events ++ [some k]) where
  nodup := by
    rw [(hp.map Prod.fst).nodup_iff]
    exact List.nodup_cons.mpr ⟨hk, h.nodup⟩
  mem_iff := by
    intro j c
    have hzero : events.count (some k) = 0 := by
      have hnot := (h.mem_keys_iff k).not.mp hk
      omega
    rw [hp.mem_iff, List.mem_cons, h.mem_iff j c, List.count_append]
    by_cases hj : j = k
    · subst hj
      simp [hzero]
    · have hkj : k ≠ j := fun heq => hj heq.symm
      simp [hj, hkj]

/-- Another event with a listed key counts in the key's entry. -/
theorem again {a b : List (κ × ν)} {c c' : ν} (h : Tallies num (a ++ (k, c) :: b) events)
    (hc : c' = num (events.count (some k) + 1)) :
    Tallies num (a ++ (k, c') :: b) (events ++ [some k]) where
  nodup := by
    have hkeys : (a ++ (k, c') :: b).map Prod.fst = (a ++ (k, c) :: b).map Prod.fst := by
      simp
    rw [hkeys]
    exact h.nodup
  mem_iff := by
    intro j m
    have hj := h.mem_iff j m
    have hnodup := h.nodup
    rw [List.map_append, List.map_cons, List.nodup_middle, List.nodup_cons] at hnodup
    rw [List.count_append]
    by_cases heq : j = k
    · subst heq
      -- neither part of the rest lists the key
      have ha : (j, m) ∉ a := fun hmem =>
        hnodup.1 (List.mem_append_left _ (List.mem_map.mpr ⟨_, hmem, rfl⟩))
      have hb : (j, m) ∉ b := fun hmem =>
        hnodup.1 (List.mem_append_right _ (List.mem_map.mpr ⟨_, hmem, rfl⟩))
      simp [ha, hb, hc]
    · have hkj : k ≠ j := fun h => heq h.symm
      simpa [heq, hkj] using hj

end Tallies

/-! ## Shares of the whole -/

private theorem sum_ite_eq_count (keys : List κ) (j : κ) :
    (keys.map fun k => if some j = some k then 1 else 0).sum = keys.count j := by
  induction keys with
  | nil => rfl
  | cons k keys ih =>
      rw [List.map_cons, List.sum_cons, ih, List.count_cons, Nat.add_comm]
      by_cases hj : j = k
      · simp [hj]
      · have hkj : k ≠ j := fun h => hj h.symm
        simp [hj, hkj]

/-- Different keys occur no more often together than there are events. -/
theorem sum_count_le_length {keys : List κ} (hkeys : keys.Nodup) (events : List (Option κ)) :
    (keys.map fun k => events.count (some k)).sum ≤ events.length := by
  induction events with
  | nil => simp
  | cons e events ih =>
      have hone : (keys.map fun k => if e = some k then 1 else 0).sum ≤ 1 := by
        cases e with
        | none => simp
        | some j =>
            rw [sum_ite_eq_count]
            exact List.nodup_iff_count_le_one.mp hkeys j
      have hsplit : (keys.map fun k => (e :: events).count (some k)).sum =
          (keys.map fun k => events.count (some k)).sum +
            (keys.map fun k => if e = some k then 1 else 0).sum := by
        rw [← List.sum_map_add]
        congr 1
        apply List.map_congr_left
        intro k _
        rw [List.count_cons]
        simp
      rw [hsplit, List.length_cons]
      omega

/-- Keys of which each makes up more than one part in `m` of the events are fewer than `m`. -/
theorem length_frequent_lt {keys : List κ} (hkeys : keys.Nodup) {events : List (Option κ)}
    {m : ℕ} (hm : 0 < m) (hfrequent : ∀ k ∈ keys, events.length < m * events.count (some k)) :
    keys.length < m := by
  have hall : keys.length * (events.length + 1) ≤
      (keys.map fun k => m * events.count (some k)).sum := by
    have hle := List.card_nsmul_le_sum (keys.map fun k => m * events.count (some k))
      (events.length + 1) (by
        intro x hx
        obtain ⟨k, hk, rfl⟩ := List.mem_map.mp hx
        exact hfrequent k hk)
    rwa [List.length_map, nsmul_eq_mul, Nat.cast_id] at hle
  have hsum : (keys.map fun k => m * events.count (some k)).sum ≤ m * events.length := by
    rw [List.sum_map_mul_left]
    exact Nat.mul_le_mul_left m (sum_count_le_length hkeys events)
  by_contra hge
  have hmul : m * (events.length + 1) ≤ keys.length * (events.length + 1) :=
    Nat.mul_le_mul_right _ (not_lt.mp hge)
  have hlast : m * (events.length + 1) = m * events.length + m := Nat.mul_succ _ _
  omega

/-- The shares of different keys are no more than the whole. -/
theorem sum_share_le_one {F : Type*} [Field F] [LinearOrder F] [IsStrictOrderedRing F]
    {keys : List κ} (hkeys : keys.Nodup) (events : List (Option κ)) :
    (keys.map fun k => (events.count (some k) : F) / events.length).sum ≤ 1 := by
  have hsum : (keys.map fun k => (events.count (some k) : F) / events.length).sum =
      ((keys.map fun k => events.count (some k)).sum : ℕ) / (events.length : F) := by
    simp only [div_eq_mul_inv, List.sum_map_mul_right, Nat.cast_list_sum, List.map_map]
    rfl
  rw [hsum]
  apply div_le_one_of_le₀
  · exact_mod_cast sum_count_le_length hkeys events
  · exact Nat.cast_nonneg _

end MonitoringTool.Lib
