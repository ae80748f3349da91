import Mathlib.Data.List.Basic
import Mathlib.Logic.Function.Basic

/-!
# Doubly linked lists

A heap of nodes is two maps `next` and `prev`.  `Segment next prev before l after`
says that the nodes of `l` are linked in both directions in this order, between
the pointers `before` and `after`; a whole list is a segment between two null
pointers.

Segments compose (`segment_append`), look at their own nodes only
(`Segment.congr`), and can be tied to something else at either end
(`Segment.retie_last`, `Segment.retie_head`).  From these follow the two updates
a list is used with: `Segment.pushBack` and `Segment.unlink`.  `walk` is the
search along `next`, and `follow` reads the list off the pointers.
-/

namespace MonitoringTool.Lib

variable {α : Type*} {next prev next' prev' : α → Option α} {before before' after after' : Option α}
  {l xs ys : List α} {x : α}

/-- The nodes of `l` are linked in order, between `before` and `after`. -/
def Segment (next prev : α → Option α) : Option α → List α → Option α → Prop
  | _, [], _ => True
  | before, x :: xs, after =>
      prev x = before ∧ next x = xs.head?.or after ∧ Segment next prev (some x) xs after

@[simp] theorem segment_nil : Segment next prev before [] after := trivial

theorem segment_cons :
    Segment next prev before (x :: xs) after ↔
      prev x = before ∧ next x = xs.head?.or after ∧ Segment next prev (some x) xs after :=
  Iff.rfl

/-- Two segments are one when the pointers between them meet. -/
theorem segment_append :
    Segment next prev before (xs ++ ys) after ↔
      Segment next prev before xs (ys.head?.or after) ∧
        Segment next prev (xs.getLast?.or before) ys after := by
  induction xs generalizing before with
  | nil => simp
  | cons x xs ih =>
      have hhead : (xs ++ ys).head?.or after = xs.head?.or (ys.head?.or after) := by
        cases xs <;> simp
      have hlast : (x :: xs).getLast?.or before = xs.getLast?.or (some x) := by
        cases xs with
        | nil => rfl
        | cons y xs =>
            rw [List.getLast?_cons_cons]
            cases hl : (y :: xs).getLast? with
            | none => simp at hl
            | some z => rfl
      rw [List.cons_append, segment_cons, segment_cons, ih, hhead, hlast]
      simp only [and_assoc]

/-- A segment looks at the pointers of its own nodes only. -/
theorem Segment.congr (h : Segment next prev before l after)
    (hnext : ∀ x ∈ l, next' x = next x) (hprev : ∀ x ∈ l, prev' x = prev x) :
    Segment next' prev' before l after := by
  induction l generalizing before with
  | nil => trivial
  | cons x xs ih =>
      obtain ⟨hp, hn, hrest⟩ := h
      refine ⟨(hprev x (by simp)).trans hp, (hnext x (by simp)).trans hn, ?_⟩
      exact ih hrest (fun y hy => hnext y (by simp [hy])) (fun y hy => hprev y (by simp [hy]))

/-- Tie the last node to another successor. -/
theorem Segment.retie_last (h : Segment next prev before l after)
    (hnext : ∀ x ∈ l, some x ≠ l.getLast? → next' x = next x)
    (hlast : ∀ x, l.getLast? = some x → next' x = after')
    (hprev : ∀ x ∈ l, prev' x = prev x) (hnodup : l.Nodup) :
    Segment next' prev' before l after' := by
  rcases List.eq_nil_or_concat' l with rfl | ⟨xs, y, rfl⟩
  · trivial
  · obtain ⟨hxs, hy⟩ := segment_append.mp h
    refine segment_append.mpr ⟨?_, ?_⟩
    · apply hxs.congr
      · intro x hx
        have hne : x ≠ y := by
          rintro rfl
          rw [List.nodup_append] at hnodup
          exact hnodup.2.2 x hx x (by simp) rfl
        exact hnext x (by simp [hx]) (by simpa using hne)
      · intro x hx
        exact hprev x (by simp [hx])
    · exact ⟨(hprev y (by simp)).trans hy.1, hlast y (by simp), trivial⟩

/-- Tie the first node to another predecessor. -/
theorem Segment.retie_head (h : Segment next prev before l after)
    (hprev : ∀ x ∈ l, some x ≠ l.head? → prev' x = prev x)
    (hhead : ∀ x, l.head? = some x → prev' x = before')
    (hnext : ∀ x ∈ l, next' x = next x) (hnodup : l.Nodup) :
    Segment next' prev' before' l after := by
  cases l with
  | nil => trivial
  | cons x xs =>
      obtain ⟨hp, hn, hrest⟩ := h
      refine ⟨hhead x rfl, (hnext x (by simp)).trans hn, ?_⟩
      apply hrest.congr
      · intro y hy
        exact hnext y (by simp [hy])
      · intro y hy
        have hne : y ≠ x := by
          rintro rfl
          exact (List.nodup_cons.mp hnodup).1 hy
        exact hprev y (by simp [hy]) (by simpa using hne)

/-! ## Updates -/

/-- Hang a new node behind the last one. -/
theorem Segment.pushBack (h : Segment next prev none l none) (hnodup : l.Nodup)
    (hnext : ∀ y ∈ l, some y ≠ l.getLast? → next' y = next y)
    (hlast : ∀ y, l.getLast? = some y → next' y = some x) (hnextx : next' x = none)
    (hprev : ∀ y ∈ l, prev' y = prev y) (hprevx : prev' x = l.getLast?) :
    Segment next' prev' none (l ++ [x]) none := by
  refine segment_append.mpr ⟨?_, ?_⟩
  · exact h.retie_last hnext (by simpa using hlast) hprev hnodup
  · exact ⟨by simpa using hprevx, by simpa using hnextx, trivial⟩

/-- What the node between `xs` and `ys` points at. -/
theorem Segment.neighbours (h : Segment next prev none (xs ++ x :: ys) none) :
    prev x = xs.getLast? ∧ next x = ys.head? := by
  obtain ⟨-, hp, hn, -⟩ := segment_append.mp h
  exact ⟨by simpa using hp, by simpa using hn⟩

/-- Overwrite the pointer of a node, if there is one. -/
def retie [DecidableEq α] (pointer : α → Option α) (node target : Option α) : α → Option α :=
  match node with
  | none => pointer
  | some x => Function.update pointer x target

theorem retie_of_ne [DecidableEq α] {pointer : α → Option α} {node target : Option α} {y : α}
    (h : some y ≠ node) : retie pointer node target y = pointer y := by
  cases node with
  | none => rfl
  | some x => exact Function.update_of_ne (fun heq => h (congrArg some heq)) _ _

theorem retie_self [DecidableEq α] {pointer : α → Option α} {node target : Option α} {y : α}
    (h : node = some y) : retie pointer node target y = target := by
  subst h
  exact Function.update_self _ _ _

/-- Take a node out and tie its neighbours to each other. -/
theorem Segment.unlink (h : Segment next prev none (xs ++ x :: ys) none)
    (hnodup : (xs ++ x :: ys).Nodup)
    (hnext : ∀ y ∈ xs ++ ys, some y ≠ xs.getLast? → next' y = next y)
    (hlast : ∀ y, xs.getLast? = some y → next' y = ys.head?)
    (hprev : ∀ y ∈ xs ++ ys, some y ≠ ys.head? → prev' y = prev y)
    (hhead : ∀ y, ys.head? = some y → prev' y = xs.getLast?) :
    Segment next' prev' none (xs ++ ys) none := by
  obtain ⟨hxs, -, -, hys⟩ := segment_append.mp h
  obtain ⟨hndx, hndxys, hdisj⟩ := List.nodup_append.mp hnodup
  have hndy : ys.Nodup := (List.nodup_cons.mp hndxys).2
  have hapart : ∀ y ∈ xs, y ∉ ys := fun y hy hy' => hdisj y hy y (by simp [hy']) rfl
  refine segment_append.mpr ⟨?_, ?_⟩
  · apply hxs.retie_last _ _ _ hndx
    · intro y hy hne
      exact hnext y (by simp [hy]) hne
    · intro y hy
      simpa using hlast y hy
    · intro y hy
      apply hprev y (by simp [hy])
      intro hy'
      exact hapart y hy (List.mem_of_mem_head? hy'.symm)
  · apply hys.retie_head _ _ _ hndy
    · intro y hy hne
      exact hprev y (by simp [hy]) hne
    · intro y hy
      simpa using hhead y hy
    · intro y hy
      apply hnext y (by simp [hy])
      intro hy'
      exact hapart y (List.mem_of_mem_getLast? hy'.symm) hy

/-! ## Search -/

/-- Follow `next` from a node until one satisfies `p`; the outer `none` is a walk
that has not ended after `fuel` nodes. -/
def walk (next : α → Option α) (p : α → Bool) : ℕ → Option α → Option (Option α)
  | _, none => some none
  | 0, some _ => none
  | fuel + 1, some x => if p x then some (some x) else walk next p fuel (next x)

/-- Along a list the walk ends and answers what `List.find?` does. -/
theorem Segment.walk_eq (p : α → Bool) {fuel : ℕ} (h : Segment next prev before l none)
    (hfuel : l.length ≤ fuel) : walk next p fuel l.head? = some (l.find? p) := by
  induction l generalizing before fuel with
  | nil => cases fuel <;> rfl
  | cons x xs ih =>
      obtain ⟨-, hn, hrest⟩ := h
      cases fuel with
      | zero => simp at hfuel
      | succ fuel =>
          have hstep := ih hrest (show xs.length ≤ fuel by simpa using hfuel)
          rw [List.head?_cons, walk, List.find?_cons, hn, Option.or_none]
          cases p x with
          | true => rfl
          | false => simpa using hstep

/-- The nodes met from a node on, `fuel` of them at most. -/
def follow (next : α → Option α) : ℕ → Option α → List α
  | _, none => []
  | 0, some _ => []
  | fuel + 1, some x => x :: follow next fuel (next x)

/-- The nodes met along a list are those of the list. -/
theorem Segment.follow_eq {fuel : ℕ} (h : Segment next prev before l none)
    (hfuel : l.length ≤ fuel) : follow next fuel l.head? = l := by
  induction l generalizing before fuel with
  | nil => cases fuel <;> rfl
  | cons x xs ih =>
      obtain ⟨-, hn, hrest⟩ := h
      cases fuel with
      | zero => simp at hfuel
      | succ fuel =>
          have hstep := ih hrest (show xs.length ≤ fuel by simpa using hfuel)
          rw [List.head?_cons, follow, hn, Option.or_none, hstep]

end MonitoringTool.Lib
