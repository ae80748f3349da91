import MonitoringTool.Lib.ListModify
import Mathlib.Data.List.Nodup
import Mathlib.Logic.Function.Basic

/-!
# Singly linked lists

A memory maps an address to the node stored there, a value with the pointer to the next node, or
to nothing: not allocated, or freed.  `ListSeg m p l q` says that from the pointer `p` on the
memory holds the nodes of `l`, addresses with values, one linked to the next, and behind the last
one the pointer `q`.  A list is a segment that ends in a null pointer; such a list is determined
by its first pointer (`ListSeg.unique`), so that no node is met twice (`ListSeg.nodup`).

Segments compose (`listSeg_append`) and look at their own nodes only (`ListSeg.congr`).  The rules
for the operations follow: overwriting a value (`ListSeg.setVal`, `ListSeg.modifyVal`) and linking
a new node behind another (`ListSeg.insertAfter`).
-/

namespace MonitoringTool.Lib

/-- A node: a value and the pointer to the next one. -/
structure ListNode (κ : Type*) where
  val : κ
  next : Option ℕ
  deriving DecidableEq

/-- The nodes that are allocated. -/
abbrev NodeMemory (κ : Type*) := ℕ → Option (ListNode κ)

namespace NodeMemory

variable {κ : Type*}

/-- `new`, at the address `a`; `none` if `a` is in use. -/
def alloc (m : NodeMemory κ) (a : ℕ) (v : κ) (next : Option ℕ) : Option (NodeMemory κ) :=
  if (m a).isNone then some (Function.update m a (some ⟨v, next⟩)) else none

/-- `a->next = next`; `none` if there is no node at `a`. -/
def setNext (m : NodeMemory κ) (a : ℕ) (next : Option ℕ) : Option (NodeMemory κ) :=
  (m a).map fun n => Function.update m a (some { n with next := next })

/-- A change of the value of the node at `a`. -/
def modifyVal (m : NodeMemory κ) (a : ℕ) (f : κ → κ) : Option (NodeMemory κ) :=
  (m a).map fun n => Function.update m a (some { n with val := f n.val })

/-- `delete a`. -/
def free (m : NodeMemory κ) (a : ℕ) : Option (NodeMemory κ) :=
  (m a).map fun _ => Function.update m a none

variable {m m' : NodeMemory κ} {a b : ℕ} {v : κ} {p : Option ℕ}

theorem alloc_eq_some :
    m.alloc a v p = some m' ↔ m a = none ∧ m' = Function.update m a (some ⟨v, p⟩) := by
  unfold alloc
  cases hm : m a <;> simp [eq_comm]

theorem setNext_of_eq {q : Option ℕ} (h : m a = some ⟨v, q⟩) :
    m.setNext a p = some (Function.update m a (some ⟨v, p⟩)) := by
  simp [setNext, h]

theorem modifyVal_of_eq {f : κ → κ} (h : m a = some ⟨v, p⟩) :
    m.modifyVal a f = some (Function.update m a (some ⟨f v, p⟩)) := by
  simp [modifyVal, h]

theorem free_of_eq {n : ListNode κ} (h : m a = some n) :
    m.free a = some (Function.update m a none) := by
  simp [free, h]

/-- A change of a node allocates none. -/
theorem update_unused {g : ListNode κ → ListNode κ}
    (h : ((m a).map fun n => Function.update m a (some (g n))) = some m') (hb : m b = none) :
    m' b = none := by
  obtain ⟨n, hn, rfl⟩ := Option.map_eq_some_iff.mp h
  have hne : b ≠ a := by
    rintro rfl
    rw [hb] at hn
    cases hn
  rw [Function.update_of_ne hne, hb]

theorem setNext_unused (h : m.setNext a p = some m') (hb : m b = none) : m' b = none :=
  update_unused h hb

theorem modifyVal_unused {f : κ → κ} (h : m.modifyVal a f = some m') (hb : m b = none) :
    m' b = none :=
  update_unused h hb

end NodeMemory

variable {κ : Type*} {m m' : NodeMemory κ} {p q r : Option ℕ} {l l' xs ys : List (ℕ × κ)}
  {a n : ℕ} {v w : κ}

/-- The addresses of the nodes of a list. -/
abbrev addrs (l : List (ℕ × κ)) : List ℕ := l.map Prod.fst

/-- The pointer to the first of some nodes, `q` if there is none. -/
def firstOf (l : List (ℕ × κ)) (q : Option ℕ) : Option ℕ := ((l.head?).map Prod.fst).or q

@[simp] theorem firstOf_nil : firstOf ([] : List (ℕ × κ)) q = q := rfl

@[simp] theorem firstOf_cons (x : ℕ × κ) : firstOf (x :: l) q = some x.1 := rfl

/-- From `p` on, the nodes of `l` are linked in order, and behind them is `q`. -/
def ListSeg (m : NodeMemory κ) : Option ℕ → List (ℕ × κ) → Option ℕ → Prop
  | p, [], q => p = q
  | p, (a, v) :: xs, q => p = some a ∧ ∃ r, m a = some ⟨v, r⟩ ∧ ListSeg m r xs q

@[simp] theorem listSeg_nil : ListSeg m p [] q ↔ p = q := Iff.rfl

theorem listSeg_cons :
    ListSeg m p ((a, v) :: xs) q ↔ p = some a ∧ ∃ r, m a = some ⟨v, r⟩ ∧ ListSeg m r xs q :=
  Iff.rfl

/-- A segment begins at its first node. -/
theorem ListSeg.first (h : ListSeg m p l q) : p = firstOf l q := by
  cases l with
  | nil => exact h
  | cons x xs => exact h.1

/-- Two segments are one when the second begins where the first one ends. -/
theorem listSeg_append :
    ListSeg m p (xs ++ ys) q ↔ ListSeg m p xs (firstOf ys q) ∧ ListSeg m (firstOf ys q) ys q := by
  induction xs generalizing p with
  | nil =>
      constructor
      · intro h
        have hfirst : p = firstOf ys q := h.first
        exact ⟨hfirst, hfirst ▸ h⟩
      · rintro ⟨h, hys⟩
        rw [listSeg_nil.mp h]
        exact hys
  | cons x xs ih =>
      obtain ⟨a, v⟩ := x
      rw [List.cons_append, listSeg_cons, listSeg_cons]
      constructor
      · rintro ⟨hp, r, hr, hrest⟩
        obtain ⟨hxs, hys⟩ := ih.mp hrest
        exact ⟨⟨hp, r, hr, hxs⟩, hys⟩
      · rintro ⟨⟨hp, r, hr, hxs⟩, hys⟩
        exact ⟨hp, r, hr, ih.mpr ⟨hxs, hys⟩⟩

/-- A segment looks at its own nodes only. -/
theorem ListSeg.congr (h : ListSeg m p l q) (hsame : ∀ a ∈ addrs l, m' a = m a) :
    ListSeg m' p l q := by
  induction l generalizing p with
  | nil => exact h
  | cons x xs ih =>
      obtain ⟨a, v⟩ := x
      obtain ⟨hp, r, hr, hrest⟩ := h
      refine ⟨hp, r, (hsame a (by simp)).trans hr, ih hrest fun b hb => hsame b ?_⟩
      exact List.mem_cons_of_mem a hb

/-- The node between `xs` and `ys`. -/
theorem ListSeg.node (h : ListSeg m p (xs ++ (a, v) :: ys) q) : m a = some ⟨v, firstOf ys q⟩ := by
  obtain ⟨-, -, r, hr, hys⟩ := listSeg_append.mp h
  rw [hr, hys.first]

/-- The node at a position, with the pointer to the next one. -/
theorem ListSeg.nodeAt {i : ℕ} (h : ListSeg m p l none) (hi : l[i]? = some (a, v)) :
    m a = some ⟨v, (addrs l)[i + 1]?⟩ := by
  induction l generalizing p i with
  | nil => cases hi
  | cons x xs ih =>
      obtain ⟨b, w⟩ := x
      obtain ⟨-, r, hr, hrest⟩ := h
      cases i with
      | zero =>
          obtain ⟨rfl, rfl⟩ := Prod.mk.inj (Option.some.inj hi)
          rw [hr, hrest.first]
          cases xs <;> rfl
      | succ i => exact ih hrest hi

theorem ListSeg.isSome (h : ListSeg m p l q) (ha : a ∈ addrs l) : (m a).isSome := by
  obtain ⟨⟨b, v⟩, hmem, rfl⟩ := List.mem_map.mp ha
  obtain ⟨xs, ys, rfl⟩ := List.append_of_mem hmem
  rw [h.node]
  rfl

/-- A list is what its first pointer leads to. -/
theorem ListSeg.unique (h : ListSeg m p l none) (h' : ListSeg m p l' none) : l = l' := by
  induction l generalizing p l' with
  | nil =>
      obtain rfl : p = none := h
      cases l' with
      | nil => rfl
      | cons y ys => cases h'.1
  | cons x xs ih =>
      obtain ⟨a, v⟩ := x
      obtain ⟨rfl, r, hr, hrest⟩ := h
      cases l' with
      | nil => cases (h' : some a = none)
      | cons y ys =>
          obtain ⟨b, w⟩ := y
          obtain ⟨hab, s, hs, hrest'⟩ := h'
          obtain rfl := Option.some.inj hab
          obtain ⟨rfl, rfl⟩ := ListNode.mk.inj (Option.some.inj (hr.symm.trans hs))
          rw [ih hrest hrest']

/-- No node is met twice on the way to a null pointer. -/
theorem ListSeg.nodup (h : ListSeg m p l none) : (addrs l).Nodup := by
  induction l generalizing p with
  | nil => exact List.nodup_nil
  | cons x xs ih =>
      obtain ⟨a, v⟩ := x
      have hrest := h.2.choose_spec.2
      refine List.nodup_cons.mpr ⟨fun hmem => ?_, ih hrest⟩
      obtain ⟨⟨b, w⟩, hb, rfl⟩ := List.mem_map.mp hmem
      obtain ⟨ys, zs, rfl⟩ := List.append_of_mem hb
      -- the tail from the second visit on would be the whole list
      have htail : ListSeg m (some b) ((b, w) :: zs) none := (listSeg_append.mp hrest).2
      have hwhole : ListSeg m (some b) ((b, v) :: (ys ++ (b, w) :: zs)) none := h.1 ▸ h
      have hlen := congrArg List.length (hwhole.unique htail)
      simp at hlen
      omega

/-- The nodes before and behind a node of a list are others. -/
theorem ListSeg.apart (h : ListSeg m p (xs ++ (a, v) :: ys) none) : a ∉ addrs (xs ++ ys) := by
  have hnodup := h.nodup
  rw [addrs, List.map_append, List.map_cons, List.nodup_middle] at hnodup
  simpa using (List.nodup_cons.mp hnodup).1

/-! ## Operations -/

/-- Overwrite the value of a node. -/
theorem ListSeg.setVal (h : ListSeg m p (xs ++ (a, v) :: ys) none)
    (ha : m' a = some ⟨w, firstOf ys none⟩) (hsame : ∀ b, b ≠ a → m' b = m b) :
    ListSeg m' p (xs ++ (a, w) :: ys) none := by
  have hapart := h.apart
  rw [addrs, List.map_append, List.mem_append] at hapart
  obtain ⟨hxs, hp, r, hr, hys⟩ := listSeg_append.mp h
  refine listSeg_append.mpr ⟨?_, rfl, _, ha, ?_⟩
  · apply hxs.congr
    intro b hb
    exact hsame b fun heq => hapart (.inl (heq ▸ hb))
  · rw [← hys.first]
    apply hys.congr
    intro b hb
    exact hsame b fun heq => hapart (.inr (heq ▸ hb))

/-- Change the value of the node at a position. -/
theorem ListSeg.modifyVal {i : ℕ} (h : ListSeg m p l none) (hi : (addrs l)[i]? = some a)
    (f : κ → κ) :
    ∃ m' l', m.modifyVal a f = some m' ∧ ListSeg m' p l' none ∧ addrs l' = addrs l ∧
      l'.map Prod.snd = (l.map Prod.snd).modify i f := by
  rw [addrs, List.getElem?_map] at hi
  obtain ⟨⟨b, v⟩, hget, rfl⟩ := Option.map_eq_some_iff.mp hi
  obtain ⟨hlt, hx⟩ := List.getElem?_eq_some_iff.mp hget
  have hsplit : l = l.take i ++ (b, v) :: l.drop (i + 1) := by
    rw [← hx, List.getElem_cons_drop, List.take_append_drop]
  have hlen : (l.take i).length = i := by rw [List.length_take]; omega
  generalize l.take i = xs at hsplit hlen
  generalize l.drop (i + 1) = ys at hsplit
  subst hsplit hlen
  refine ⟨_, xs ++ (b, f v) :: ys, NodeMemory.modifyVal_of_eq h.node, ?_, by simp, ?_⟩
  · apply h.setVal (Function.update_self _ _ _)
    intro c hc
    exact Function.update_of_ne hc _ _
  · have hlast : (xs.map Prod.snd).length = xs.length := List.length_map _
    rw [List.map_append, List.map_append, modify_append_right (Nat.le_of_eq hlast), hlast,
      Nat.sub_self]
    rfl

/-- Link a new node behind the node at `a`. -/
theorem ListSeg.insertAfter (h : ListSeg m p (xs ++ (a, v) :: ys) none)
    (hn : n ∉ addrs (xs ++ (a, v) :: ys)) (ha : m' a = some ⟨v, some n⟩)
    (hnew : m' n = some ⟨w, firstOf ys none⟩) (hsame : ∀ b, b ≠ a → b ≠ n → m' b = m b) :
    ListSeg m' p (xs ++ (a, v) :: (n, w) :: ys) none := by
  have hapart := h.apart
  rw [addrs, List.map_append, List.mem_append] at hapart
  simp only [addrs, List.map_append, List.map_cons, List.mem_append, List.mem_cons] at hn
  obtain ⟨hxs, hp, r, hr, hys⟩ := listSeg_append.mp h
  refine listSeg_append.mpr ⟨?_, rfl, _, ha, rfl, _, hnew, ?_⟩
  · apply hxs.congr
    intro b hb
    exact hsame b (fun heq => hapart (.inl (heq ▸ hb))) fun heq => hn (.inl (heq ▸ hb))
  · rw [← hys.first]
    apply hys.congr
    intro b hb
    exact hsame b (fun heq => hapart (.inr (heq ▸ hb))) fun heq => hn (.inr (.inr (heq ▸ hb)))

end MonitoringTool.Lib
