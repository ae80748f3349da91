import MonitoringTool.Lib.LinkedList
import Mathlib.Data.List.Nodup

/-!
# Buckets of doubly linked lists

A table of buckets is the ends `first` and `last` of each bucket and the links of the
nodes.  `hang` puts a node behind the last one of a bucket, `unhang` takes a node out; both
are told by the caller, who counts the nodes, whether the bucket was empty, or had no other
node, and have no result where they would write through a null pointer.

`Linked b chain` says that bucket `i` is the list `chain i`.  Both operations are what they
are on these lists (`Linked.hang_eq`, `Linked.unhang_eq`), and so is emptying a bucket
(`Linked.emptied`).
-/

namespace MonitoringTool.Lib

open Function

/-- The ends of the buckets and the links of the nodes. -/
structure Buckets (ι α : Type*) where
  first : ι → Option α
  last : ι → Option α
  next : α → Option α
  prev : α → Option α

namespace Buckets

variable {ι α : Type*} [DecidableEq ι] [DecidableEq α]

/-- Hang the node `x` behind the last one of bucket `i`. -/
def hang (b : Buckets ι α) (i : ι) (x : α) (isEmpty : Bool) : Option (Buckets ι α) :=
  let linked : Option (Buckets ι α) :=
    if isEmpty then
      some { b with
        next := update b.next x none
        prev := update b.prev x none
        first := update b.first i (some x) }
    else
      (b.last i).map fun l =>
        { b with next := update b.next l (some x), prev := update b.prev x (some l) }
  linked.map fun b =>
    { b with last := update b.last i (some x), next := update b.next x none }

/-- Take the node `x` out of bucket `i`. -/
def unhang (b : Buckets ι α) (i : ι) (x : α) (isOnly : Bool) : Option (Buckets ι α) :=
  let unlinked : Option (Buckets ι α) :=
    if isOnly then
      some { b with first := update b.first i none, last := update b.last i none }
    else
      match b.prev x, b.next x with
      | none, none => none
      | none, some n =>
          some { b with first := update b.first i (some n), prev := update b.prev n none }
      | some p, none =>
          some { b with last := update b.last i (some p), next := update b.next p none }
      | some p, some n =>
          some { b with next := update b.next p (some n), prev := update b.prev n (some p) }
  unlinked.map fun b => { b with next := update b.next x none, prev := update b.prev x none }

/-- Bucket `i` is the list `chain i`, and no node is in two buckets. -/
structure Linked (b : Buckets ι α) (chain : ι → List α) : Prop where
  segment : ∀ i, Segment b.next b.prev none (chain i) none
  first_eq : ∀ i, b.first i = (chain i).head?
  last_eq : ∀ i, b.last i = (chain i).getLast?
  nodup : ∀ i, (chain i).Nodup
  apart : ∀ i j x, x ∈ chain i → x ∈ chain j → i = j

namespace Linked

variable {b b' : Buckets ι α} {chain : ι → List α} {i : ι} {x : α}

omit [DecidableEq ι] [DecidableEq α] in
/-- Empty buckets. -/
theorem empty (next prev : α → Option α) :
    (⟨fun _ => none, fun _ => none, next, prev⟩ : Buckets ι α).Linked fun _ => [] where
  segment _ := trivial
  first_eq _ := rfl
  last_eq _ := rfl
  nodup _ := List.nodup_nil
  apart i j x hx := by simp at hx

omit [DecidableEq α] in
/-- An operation that rebuilds bucket `i` as the list `l` and leaves the pointers of the
other buckets alone. -/
theorem replace (h : b.Linked chain) (i : ι) (l : List α)
    (hseg : Segment b'.next b'.prev none l none) (hfirst : b'.first = update b.first i l.head?)
    (hlast : b'.last = update b.last i l.getLast?) (hnodup : l.Nodup)
    (hapart : ∀ x ∈ l, ∀ j, j ≠ i → x ∉ chain j)
    (hnext : ∀ j, j ≠ i → ∀ x ∈ chain j, b'.next x = b.next x)
    (hprev : ∀ j, j ≠ i → ∀ x ∈ chain j, b'.prev x = b.prev x) :
    b'.Linked (update chain i l) := by
  have hcases : ∀ P : ι → List α → Prop, P i l → (∀ j, j ≠ i → P j (chain j)) →
      ∀ j, P j (update chain i l j) := by
    intro P hi hj j
    by_cases hji : j = i
    · subst hji
      rwa [update_self]
    · rw [update_of_ne hji]
      exact hj j hji
  exact
    { segment := hcases (fun _ l => Segment b'.next b'.prev none l none) hseg
        fun j hj => (h.segment j).congr (hnext j hj) (hprev j hj)
      first_eq := hcases (fun j l => b'.first j = l.head?) (by rw [hfirst, update_self])
        fun j hj => by rw [hfirst, update_of_ne hj, h.first_eq j]
      last_eq := hcases (fun j l => b'.last j = l.getLast?) (by rw [hlast, update_self])
        fun j hj => by rw [hlast, update_of_ne hj, h.last_eq j]
      nodup := hcases (fun _ l => l.Nodup) hnodup fun j _ => h.nodup j
      apart := by
        intro j k x hj hk
        by_cases hji : j = i
        · subst hji
          by_cases hkj : k = j
          · exact hkj.symm
          · rw [update_self] at hj
            rw [update_of_ne hkj] at hk
            exact absurd hk (hapart x hj k hkj)
        · rw [update_of_ne hji] at hj
          by_cases hki : k = i
          · subst hki
            rw [update_self] at hk
            exact absurd hj (hapart x hk j hji)
          · rw [update_of_ne hki] at hk
            exact h.apart j k x hj hk }

/-- A new node is hung behind the last one, or alone in a bucket that is taken for empty. -/
theorem hang_eq (h : b.Linked chain) (i : ι) (hx : ∀ j, x ∉ chain j) {isEmpty : Bool}
    (hempty : isEmpty = false → chain i ≠ []) :
    ∃ b', b.hang i x isEmpty = some b' ∧
      b'.Linked (update chain i ((if isEmpty then [] else chain i) ++ [x])) := by
  have hne : ∀ j, ∀ y ∈ chain j, y ≠ x := fun j y hy heq => hx j (heq ▸ hy)
  unfold hang
  cases isEmpty with
  | true =>
      rw [if_pos rfl, if_pos rfl, Option.map_some, List.nil_append]
      refine ⟨_, rfl, h.replace i _ ?_ ?_ ?_ (List.nodup_singleton x) ?_ ?_ ?_⟩
      · exact ⟨update_self _ _ _, update_self _ _ _, trivial⟩
      · rfl
      · rfl
      · intro y hy j _ hyj
        exact hne j y hyj (List.mem_singleton.mp hy)
      · intro j _ y hy
        dsimp only
        rw [update_of_ne (hne j y hy), update_of_ne (hne j y hy)]
      · intro j _ y hy
        exact update_of_ne (hne j y hy) _ _
  | false =>
      have hsome := hempty rfl
      have hlast := List.getLast?_eq_some_getLast hsome
      generalize (chain i).getLast hsome = l at hlast
      have hmem : l ∈ chain i := List.mem_of_getLast? hlast
      have hl : b.last i = some l := (h.last_eq i).trans hlast
      have hnodup : (chain i ++ [x]).Nodup := by
        simpa [List.nodup_append] using ⟨h.nodup i, hne i⟩
      have hapart : ∀ y ∈ chain i ++ [x], ∀ j, j ≠ i → y ∉ chain j := by
        intro y hy j hj hyj
        rcases List.mem_append.mp hy with hy | hy
        · exact hj (h.apart j i y hyj hy)
        · exact hne j y hyj (List.mem_singleton.mp hy)
      rw [if_neg Bool.false_ne_true, if_neg Bool.false_ne_true, hl]
      refine ⟨_, rfl, h.replace i _ ?_ ?_ ?_ hnodup hapart ?_ ?_⟩
      · apply (h.segment i).pushBack (h.nodup i)
        · intro y hy hnot
          have hyl : y ≠ l := fun heq => hnot (by rw [hlast, heq])
          dsimp only
          rw [update_of_ne (hne i y hy), update_of_ne hyl]
        · intro y hy
          obtain rfl : l = y := Option.some.inj (hlast.symm.trans hy)
          dsimp only
          rw [update_of_ne (hne i l hmem), update_self]
        · exact update_self _ _ _
        · intro y hy
          exact update_of_ne (hne i y hy) _ _
        · dsimp only
          rw [update_self, hlast]
      · rw [List.head?_append_of_ne_nil _ hsome, ← h.first_eq, update_eq_self]
      · simp
      · intro j hj y hy
        have hyl : y ≠ l := fun heq => hj (h.apart j i y hy (heq ▸ hmem))
        dsimp only
        rw [update_of_ne (hne j y hy), update_of_ne hyl]
      · intro j _ y hy
        exact update_of_ne (hne j y hy) _ _

/-- A new node is hung behind the last one where the caller knows which buckets are empty. -/
theorem hang_back (h : b.Linked chain) (i : ι) (hx : ∀ j, x ∉ chain j) {isEmpty : Bool}
    (hempty : isEmpty = true ↔ chain i = []) :
    ∃ b', b.hang i x isEmpty = some b' ∧ b'.Linked (update chain i (chain i ++ [x])) := by
  have hchain : (if isEmpty then [] else chain i) = chain i := by
    split
    · next hcase => exact (hempty.mp hcase).symm
    · rfl
  have hfalse : isEmpty = false → chain i ≠ [] := by
    intro hfalse hnil
    rw [hempty.mpr hnil] at hfalse
    exact Bool.false_ne_true hfalse.symm
  have hhang := h.hang_eq i hx hfalse
  rwa [hchain] at hhang

omit [DecidableEq ι] [DecidableEq α] in
/-- The only node of a bucket is the one that stands first where one is counted. -/
theorem only_iff (h : b.Linked chain) {xs ys : List α} (hsplit : chain i = xs ++ x :: ys) :
    (chain i).length = 1 ∧ some x = b.first i ↔ xs = [] ∧ ys = [] := by
  rw [h.first_eq, hsplit]
  constructor
  · rintro ⟨hlen, -⟩
    rw [List.length_append, List.length_cons] at hlen
    exact ⟨List.length_eq_zero_iff.mp (by omega), List.length_eq_zero_iff.mp (by omega)⟩
  · rintro ⟨rfl, rfl⟩
    exact ⟨rfl, rfl⟩

/-- The four ways through `unhang` are four positions in the list. -/
theorem unhang_links (h : b.Linked chain) {xs ys : List α} (hsplit : chain i = xs ++ x :: ys)
    {isOnly : Bool} (honly : isOnly = true ↔ xs = [] ∧ ys = []) :
    b.unhang i x isOnly = some
      { first := update b.first i (xs ++ ys).head?
        last := update b.last i (xs ++ ys).getLast?
        next := update (retie b.next xs.getLast? ys.head?) x none
        prev := update (retie b.prev ys.head? xs.getLast?) x none } := by
  have hseg := h.segment i
  have hfirst := h.first_eq i
  have hlast := h.last_eq i
  rw [hsplit] at hseg hfirst hlast
  obtain ⟨hprev, hnext⟩ := hseg.neighbours
  unfold unhang
  rw [hprev, hnext]
  rcases List.eq_nil_or_concat' xs with rfl | ⟨zs, p, rfl⟩
  · cases ys with
    | nil =>
        rw [if_pos (honly.mpr ⟨rfl, rfl⟩)]
        rfl
    | cons n ys =>
        have hlast' : update b.last i (n :: ys).getLast? = b.last := by
          rw [List.nil_append, List.getLast?_cons_cons] at hlast
          rw [← hlast, update_eq_self]
        rw [if_neg fun hc => absurd (honly.mp hc).2 (by simp)]
        simp only [List.getLast?_nil, List.head?_cons, retie, Option.map_some, List.nil_append,
          hlast']
  · have hhead : (zs ++ [p] ++ ys).head? = b.first i := by
      rw [hfirst]
      cases zs <;> rfl
    rw [if_neg fun hc => absurd (honly.mp hc).1 (by simp), List.getLast?_concat]
    cases ys with
    | nil =>
        rw [List.append_nil] at hhead ⊢
        simp only [List.head?_nil, retie, Option.map_some, hhead, update_eq_self,
          List.getLast?_concat]
    | cons n ys =>
        have hlast' : (zs ++ [p] ++ n :: ys).getLast? = b.last i := by
          rw [hlast, List.getLast?_append_of_ne_nil _ (by simp),
            List.getLast?_append_of_ne_nil _ (by simp), List.getLast?_cons_cons]
        simp only [List.head?_cons, retie, Option.map_some, hhead, hlast', update_eq_self]

/-- What `unhang` leaves is linked without the node. -/
theorem unhung (h : b.Linked chain) {xs ys : List α} (hsplit : chain i = xs ++ x :: ys) :
    Linked
      { first := update b.first i (xs ++ ys).head?
        last := update b.last i (xs ++ ys).getLast?
        next := update (retie b.next xs.getLast? ys.head?) x none
        prev := update (retie b.prev ys.head? xs.getLast?) x none }
      (update chain i (xs ++ ys)) := by
  have hnodup : (xs ++ x :: ys).Nodup := hsplit ▸ h.nodup i
  obtain ⟨hx, hrest⟩ : x ∉ xs ++ ys ∧ (xs ++ ys).Nodup :=
    List.nodup_cons.mp (List.perm_middle.nodup_iff.mp hnodup)
  have hne : ∀ y ∈ xs ++ ys, y ≠ x := fun y hy heq => hx (heq ▸ hy)
  have hsub : ∀ y ∈ xs ++ ys, y ∈ chain i := by
    intro y hy
    rw [hsplit, List.mem_append, List.mem_cons]
    exact (List.mem_append.mp hy).imp_right Or.inr
  have hother : ∀ j, j ≠ i → ∀ y ∈ chain j, y ∉ chain i := fun j hj y hy hyi =>
    hj (h.apart j i y hy hyi)
  have hxs : ∀ y, some y = xs.getLast? → y ∈ chain i := fun y hy =>
    hsub y (List.mem_append_left _ (List.mem_of_getLast? hy.symm))
  have hys : ∀ y, some y = ys.head? → y ∈ chain i := fun y hy =>
    hsub y (List.mem_append_right _ (List.mem_of_mem_head? hy.symm))
  have hxi : x ∈ chain i := by simp [hsplit]
  refine h.replace i _ ?_ rfl rfl hrest ?_ ?_ ?_
  · have hseg := h.segment i
    rw [hsplit] at hseg
    apply hseg.unlink hnodup
    · intro y hy hnot
      exact (update_of_ne (hne y hy) _ _).trans (retie_of_ne hnot)
    · intro y hy
      have hyx : y ≠ x := hne y (List.mem_append_left _ (List.mem_of_getLast? hy))
      exact (update_of_ne hyx _ _).trans (retie_self hy)
    · intro y hy hnot
      exact (update_of_ne (hne y hy) _ _).trans (retie_of_ne hnot)
    · intro y hy
      have hyx : y ≠ x := hne y (List.mem_append_right _ (List.mem_of_mem_head? hy))
      exact (update_of_ne hyx _ _).trans (retie_self hy)
  · exact fun y hy j hj hyj => hother j hj y hyj (hsub y hy)
  · intro j hj y hy
    have hyx : y ≠ x := fun heq => hother j hj y hy (heq ▸ hxi)
    exact (update_of_ne hyx _ _).trans (retie_of_ne fun heq => hother j hj y hy (hxs y heq))
  · intro j hj y hy
    have hyx : y ≠ x := fun heq => hother j hj y hy (heq ▸ hxi)
    exact (update_of_ne hyx _ _).trans (retie_of_ne fun heq => hother j hj y hy (hys y heq))

/-- A node is taken out of its list. -/
theorem unhang_eq (h : b.Linked chain) {xs ys : List α} (hsplit : chain i = xs ++ x :: ys)
    {isOnly : Bool} (honly : isOnly = true ↔ xs = [] ∧ ys = []) :
    ∃ b', b.unhang i x isOnly = some b' ∧ b'.Linked (update chain i (xs ++ ys)) :=
  ⟨_, h.unhang_links hsplit honly, h.unhung hsplit⟩

omit [DecidableEq α] in
/-- Bucket `i` is emptied. -/
theorem emptied (h : b.Linked chain) (i : ι) :
    Linked { b with first := update b.first i none, last := update b.last i none }
      (update chain i []) :=
  h.replace i [] trivial rfl rfl List.nodup_nil (by simp) (fun _ _ _ _ => rfl) fun _ _ _ _ => rfl

omit [DecidableEq α] in
/-- What is linked with one node more in bucket `i`, behind some of its nodes. -/
theorem mem_hung_behind {kept : List α} (hkept : ∀ y ∈ kept, y ∈ chain i) {y : α} {j : ι}
    (hy : y ∈ update chain i (kept ++ [x]) j) : y ∈ chain j ∨ (y = x ∧ j = i) := by
  by_cases hj : j = i
  · subst hj
    rw [update_self, List.mem_append, List.mem_singleton] at hy
    exact hy.imp (hkept y) fun heq => ⟨heq, rfl⟩
  · rw [update_of_ne hj] at hy
    exact .inl hy

omit [DecidableEq α] in
/-- What is linked with one node more in bucket `i`. -/
theorem mem_hung {y : α} {j : ι} :
    y ∈ update chain i (chain i ++ [x]) j ↔ y ∈ chain j ∨ (y = x ∧ j = i) := by
  by_cases hj : j = i
  · subst hj
    simp
  · simp [hj]

omit [DecidableEq α] in
/-- What is linked without the node between `xs` and `ys`. -/
theorem mem_unhung (h : b.Linked chain) {xs ys : List α} (hsplit : chain i = xs ++ x :: ys)
    {y : α} {j : ι} : y ∈ update chain i (xs ++ ys) j ↔ y ∈ chain j ∧ y ≠ x := by
  by_cases hj : j = i
  · subst hj
    have hnodup : (xs ++ x :: ys).Nodup := hsplit ▸ h.nodup j
    have hnot : x ∉ xs ++ ys :=
      (List.nodup_cons.mp (List.perm_middle.nodup_iff.mp hnodup)).1
    rw [update_self, hsplit, List.mem_append, List.mem_append, List.mem_cons]
    constructor
    · intro hy
      refine ⟨hy.imp_right Or.inr, ?_⟩
      rintro rfl
      exact hnot (List.mem_append.mpr hy)
    · rintro ⟨hy | hy | hy, hne⟩
      · exact .inl hy
      · exact absurd hy hne
      · exact .inr hy
  · rw [update_of_ne hj]
    refine ⟨fun hy => ⟨hy, ?_⟩, And.left⟩
    rintro rfl
    exact hj (h.apart j i y hy (by simp [hsplit]))

end Linked

/-! ## Emptying several buckets -/

omit [DecidableEq α]

variable {chain : ι → List α} {is : List ι}

/-- The lists with the buckets `is` empty. -/
def without (chain : ι → List α) (is : List ι) (j : ι) : List α := if j ∈ is then [] else chain j

theorem without_nil (chain : ι → List α) : without chain [] = chain := by
  funext j
  simp [without]

/-- One bucket is emptied before the others. -/
theorem without_cons (chain : ι → List α) (i : ι) (is : List ι) :
    without chain (i :: is) = without (update chain i []) is := by
  funext j
  unfold without
  by_cases hj : j = i
  · subst hj
    simp
  · simp [hj]

/-- All buckets that are not empty are emptied. -/
theorem without_eq_nil (h : ∀ j, ∀ x ∈ chain j, j ∈ is) : without chain is = fun _ => [] := by
  funext j
  unfold without
  split
  · rfl
  · next hj => exact List.eq_nil_iff_forall_not_mem.mpr fun x hx => hj (h j x hx)

end Buckets

end MonitoringTool.Lib
