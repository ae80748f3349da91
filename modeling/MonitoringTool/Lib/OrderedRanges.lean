import Mathlib.Order.Basic
import Mathlib.Order.Interval.Set.Basic
import Mathlib.Data.List.Chain

/-!
# Ordered lists of half-open ranges

A list of items, each standing for a range `[lo x, hi x)`, is *ordered* when no
range ends before it begins and every range ends at or before the beginning of
the next one.  Touching and empty ranges are allowed.

`ordered_insert_iff` is the fact used at every insertion: a new item keeps an
ordered list ordered exactly when it is a range and fits between its two
neighbours.  `Ordered.sublist` says that order is never gained by adding items.

`Covered` is the set of points some range of a list holds, ordered or not.
-/

namespace MonitoringTool.Lib

variable {ι α : Type*} [Preorder α] (lo hi : ι → α)

/-- Every item is a range, and each ends at or before its successor. -/
def Ordered (l : List ι) : Prop :=
  (∀ x ∈ l, lo x ≤ hi x) ∧ l.IsChain fun x y => hi x ≤ lo y

variable {lo hi}

@[simp] theorem ordered_nil : Ordered lo hi [] := by
  simp [Ordered]

@[simp] theorem ordered_singleton {x : ι} : Ordered lo hi [x] ↔ lo x ≤ hi x := by
  simp [Ordered]

/-- In an ordered list every range ends before all later ones. -/
theorem ordered_iff_pairwise {l : List ι} :
    Ordered lo hi l ↔ (∀ x ∈ l, lo x ≤ hi x) ∧ l.Pairwise fun x y => hi x ≤ lo y := by
  constructor
  · rintro ⟨hrange, hchain⟩
    refine ⟨hrange, ?_⟩
    induction l with
    | nil => simp
    | cons x l ih =>
        have htail := ih (fun y hy => hrange y (by simp [hy])) hchain.tail
        refine List.pairwise_cons.mpr ⟨?_, htail⟩
        cases l with
        | nil => simp
        | cons y l =>
            obtain ⟨hxy, -⟩ := List.isChain_cons_cons.mp hchain
            intro z hz
            rcases List.mem_cons.mp hz with rfl | hz
            · exact hxy
            · have hy : lo y ≤ hi y := hrange y (by simp)
              exact hxy.trans (hy.trans ((List.pairwise_cons.mp htail).1 z hz))
  · rintro ⟨hrange, hpair⟩
    exact ⟨hrange, hpair.isChain⟩

/-- Order passes to sublists. -/
theorem Ordered.sublist {l l' : List ι} (h : Ordered lo hi l') (hsub : l.Sublist l') :
    Ordered lo hi l := by
  rw [ordered_iff_pairwise] at h ⊢
  exact ⟨fun x hx => h.1 x (hsub.subset hx), h.2.sublist hsub⟩

/-- An item behind all others keeps the order. -/
theorem Ordered.concat {l : List ι} {n : ι} (h : Ordered lo hi l) (hn : lo n ≤ hi n)
    (hl : ∀ x ∈ l, hi x ≤ lo n) : Ordered lo hi (l ++ [n]) := by
  rw [ordered_iff_pairwise] at h ⊢
  refine ⟨?_, List.pairwise_append.mpr ⟨h.2, List.pairwise_singleton _ _, ?_⟩⟩
  · intro x hx
    rcases List.mem_append.mp hx with hx | hx
    · exact h.1 x hx
    · exact List.mem_singleton.mp hx ▸ hn
  · intro x hx y hy
    exact List.mem_singleton.mp hy ▸ hl x hx

section Split

variable {L R : List ι} {x : ι}

theorem Ordered.mem_range (h : Ordered lo hi (L ++ x :: R)) : lo x ≤ hi x :=
  h.1 x (by simp)

/-- Everything before an item ends at or before it. -/
theorem Ordered.le_of_mem_left (h : Ordered lo hi (L ++ x :: R)) {y : ι} (hy : y ∈ L) :
    hi y ≤ lo x :=
  (List.pairwise_append.mp (ordered_iff_pairwise.mp h).2).2.2 y hy x (by simp)

/-- Everything after an item begins at or after its end. -/
theorem Ordered.le_of_mem_right (h : Ordered lo hi (L ++ x :: R)) {y : ι} (hy : y ∈ R) :
    hi x ≤ lo y := by
  have hpair := (List.pairwise_append.mp (ordered_iff_pairwise.mp h).2).2.1
  exact (List.pairwise_cons.mp hpair).1 y hy

/-- Two places of an ordered list never share a point. -/
theorem Ordered.apart (h : Ordered lo hi (L ++ x :: R)) {y : ι} (hy : y ∈ L ++ x :: R) :
    hi y ≤ lo x ∨ y = x ∨ hi x ≤ lo y := by
  rcases List.mem_append.mp hy with hy | hy
  · exact .inl (h.le_of_mem_left hy)
  · rcases List.mem_cons.mp hy with hy | hy
    · exact .inr (.inl hy)
    · exact .inr (.inr (h.le_of_mem_right hy))

/-- A new item keeps the order exactly when it is a range and fits between its
neighbours. -/
theorem ordered_insert_iff {n : ι} (h : Ordered lo hi (L ++ x :: R)) :
    Ordered lo hi (L ++ x :: n :: R) ↔
      lo n ≤ hi n ∧ hi x ≤ lo n ∧ ∀ y ∈ R.head?, hi n ≤ lo y := by
  constructor
  · intro hins
    have hn : Ordered lo hi ((L ++ [x]) ++ n :: R) := by simpa using hins
    refine ⟨hn.mem_range, hn.le_of_mem_left (by simp), ?_⟩
    intro y hy
    exact hn.le_of_mem_right (List.mem_of_mem_head? hy)
  · rintro ⟨hn, hxn, hnR⟩
    obtain ⟨hrange, hchain⟩ := h
    refine ⟨?_, ?_⟩
    · intro y hy
      simp only [List.mem_append, List.mem_cons] at hy hrange
      rcases hy with hy | rfl | rfl | hy
      · exact hrange y (.inl hy)
      · exact hrange _ (.inr (.inl rfl))
      · exact hn
      · exact hrange y (.inr (.inr hy))
    · have hleft := (List.isChain_append.mp hchain).1
      have hcross := (List.isChain_append.mp hchain).2.2
      have hright : (x :: R).IsChain fun x y => hi x ≤ lo y :=
        (List.isChain_append.mp hchain).2.1
      refine List.isChain_append.mpr ⟨hleft, ?_, ?_⟩
      · refine List.isChain_cons_cons.mpr ⟨hxn, ?_⟩
        cases R with
        | nil => simp
        | cons y R =>
            exact List.isChain_cons_cons.mpr ⟨hnR y (by simp), (List.isChain_cons_cons.mp hright).2⟩
      · simpa using hcross

end Split

/-- The first item that fails a test is at one place. -/
theorem eq_of_first {ι : Type*} {p : ι → Prop} {l₁ l₂ r₁ r₂ : List ι} {x y : ι}
    (h : l₁ ++ x :: r₁ = l₂ ++ y :: r₂) (hl₁ : ∀ a ∈ l₁, p a) (hx : ¬ p x) (hl₂ : ∀ a ∈ l₂, p a)
    (hy : ¬ p y) : l₁ = l₂ ∧ x = y ∧ r₁ = r₂ := by
  induction l₁ generalizing l₂ with
  | nil =>
      cases l₂ with
      | nil => exact ⟨rfl, List.cons_eq_cons.mp h⟩
      | cons b l₂ =>
          obtain ⟨rfl, -⟩ := List.cons_eq_cons.mp h
          exact absurd (hl₂ x (by simp)) hx
  | cons a l₁ ih =>
      cases l₂ with
      | nil =>
          obtain ⟨rfl, -⟩ := List.cons_eq_cons.mp h
          exact absurd (hl₁ a (by simp)) hy
      | cons b l₂ =>
          obtain ⟨rfl, hrest⟩ := List.cons_eq_cons.mp h
          obtain ⟨rfl, hxy⟩ := ih hrest (fun c hc => hl₁ c (by simp [hc]))
            (fun c hc => hl₂ c (by simp [hc]))
          exact ⟨rfl, hxy⟩

section Covered

variable {α : Type*} [LinearOrder α] {lo hi : ι → α}

/-- The points that some range of the list holds. -/
def Covered (lo hi : ι → α) (l : List ι) : Set α := {b | ∃ x ∈ l, lo x ≤ b ∧ b < hi x}

theorem mem_covered {l : List ι} {b : α} :
    b ∈ Covered lo hi l ↔ ∃ x ∈ l, lo x ≤ b ∧ b < hi x := Iff.rfl

@[simp] theorem covered_nil : Covered lo hi [] = ∅ := by
  simp [Covered]

@[simp] theorem covered_singleton (x : ι) : Covered lo hi [x] = Set.Ico (lo x) (hi x) := by
  ext b
  simp [Covered]

@[simp] theorem covered_append (l l' : List ι) :
    Covered lo hi (l ++ l') = Covered lo hi l ∪ Covered lo hi l' := by
  ext b
  simp only [mem_covered, List.mem_append, Set.mem_union]
  constructor
  · rintro ⟨x, hx | hx, hb⟩
    · exact .inl ⟨x, hx, hb⟩
    · exact .inr ⟨x, hx, hb⟩
  · rintro (⟨x, hx, hb⟩ | ⟨x, hx, hb⟩)
    · exact ⟨x, .inl hx, hb⟩
    · exact ⟨x, .inr hx, hb⟩

/-- The order of the ranges does not matter. -/
theorem covered_perm {l l' : List ι} (h : l.Perm l') : Covered lo hi l = Covered lo hi l' := by
  ext b
  simp only [mem_covered, h.mem_iff]

/-- A new item anywhere in the list adds its range. -/
theorem covered_insert (l l' : List ι) (x : ι) :
    Covered lo hi (l ++ x :: l') = Covered lo hi (l ++ l') ∪ Set.Ico (lo x) (hi x) := by
  have hperm : (l ++ x :: l').Perm (x :: (l ++ l')) := List.perm_middle
  rw [covered_perm hperm, ← List.singleton_append,
    covered_append, covered_singleton, Set.union_comm]

/-- Of a range that begins with points of `C`, a middle part adds as much to `C` as the whole
if and only if the points behind the part are in `C` as well. -/
theorem union_part_eq_iff {C : Set α} {a a' b b' : α} (hfront : a ≤ a') (hback : b' ≤ b)
    (hheld : Set.Ico a a' ⊆ C) :
    C ∪ Set.Ico a' b' = C ∪ Set.Ico a b ↔ ∀ x ∈ Set.Ico a b, b' ≤ x → x ∈ C := by
  constructor
  · intro heq x hx hbehind
    have hmem : x ∈ C ∪ Set.Ico a b := .inr hx
    rw [← heq] at hmem
    rcases hmem with hmem | ⟨-, hless⟩
    · exact hmem
    · exact absurd hless (not_lt.mpr hbehind)
  · intro hbehind
    refine Set.Subset.antisymm (Set.union_subset_union_right C (Set.Ico_subset_Ico hfront hback))
      (Set.union_subset Set.subset_union_left fun x hx => ?_)
    rcases lt_or_ge x a' with hless | hge
    · exact .inl (hheld ⟨hx.1, hless⟩)
    · rcases lt_or_ge x b' with hless | hge'
      · exact .inr ⟨hge, hless⟩
      · exact .inl (hbehind x hx hge')

/-- **A continuous run has no hole.**  Where each item ends where the next begins,
every point between the first beginning and the last end is covered, even if some
items are no ranges. -/
theorem covered_of_continuous {x : ι} {l : List ι} {b : α}
    (hrun : (x :: l).IsChain fun x y => hi x = lo y) (hlo : lo x ≤ b)
    (hhi : b < hi ((x :: l).getLast (List.cons_ne_nil x l))) : b ∈ Covered lo hi (x :: l) := by
  induction l generalizing x with
  | nil => exact ⟨x, by simp, hlo, hhi⟩
  | cons y l ih =>
      obtain ⟨hxy, hrest⟩ := List.isChain_cons_cons.mp hrun
      by_cases hb : b < hi x
      · exact ⟨x, by simp, hlo, hb⟩
      · have hy : lo y ≤ b := hxy ▸ not_lt.mp hb
        obtain ⟨z, hz, hbz⟩ := ih hrest hy (by simpa using hhi)
        exact ⟨z, List.mem_cons_of_mem x hz, hbz⟩

end Covered

end MonitoringTool.Lib
