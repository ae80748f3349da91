import Mathlib.Data.List.Forall2

/-!
# Changing one place of a list

`List.modify l i f` is how a store through a pointer into a list looks once the
pointer is a position.  These lemmas say what such a store keeps.
-/

namespace MonitoringTool.Lib

variable {α β γ : Type*}

/-- A store that relates every element to what it becomes relates the lists. -/
theorem forall₂_modify {R : α → α → Prop} (hrefl : ∀ a, R a a) {f : α → α} (hf : ∀ a, R a (f a))
    (l : List α) (i : Nat) : List.Forall₂ R l (l.modify i f) := by
  induction l generalizing i with
  | nil => simp
  | cons a l ih =>
      cases i with
      | zero => exact .cons (hf a) (List.forall₂_same.mpr fun b _ => hrefl b)
      | succ i => exact .cons (hrefl a) (ih i)

/-- Stores at the same place of two lists keep them related. -/
theorem forall₂_modify_both {R : α → β → Prop} {f : α → α} {g : β → β}
    (hfg : ∀ a b, R a b → R (f a) (g b)) {l : List α} {l' : List β} (h : List.Forall₂ R l l')
    (i : Nat) : List.Forall₂ R (l.modify i f) (l'.modify i g) := by
  induction h generalizing i with
  | nil => simp
  | cons hab hrest ih =>
      cases i with
      | zero => exact .cons (hfg _ _ hab) hrest
      | succ i => exact .cons hab (ih i)

/-- Relating two lists element by element composes. -/
theorem forall₂_trans {R : α → β → Prop} {S : β → γ → Prop} {T : α → γ → Prop}
    (htrans : ∀ a b c, R a b → S b c → T a c) {l₁ : List α} {l₂ : List β} {l₃ : List γ}
    (h : List.Forall₂ R l₁ l₂) (h' : List.Forall₂ S l₂ l₃) : List.Forall₂ T l₁ l₃ := by
  induction h generalizing l₃ with
  | nil =>
      cases h'
      exact .nil
  | cons hab _ ih =>
      cases h' with
      | cons hbc hrest => exact .cons (htrans _ _ _ hab hbc) (ih hrest)

/-- Every element of the second list comes from one of the first. -/
theorem exists_of_mem_forall₂ {R : α → β → Prop} {l : List α} {l' : List β}
    (h : List.Forall₂ R l l') {b : β} (hb : b ∈ l') : ∃ a ∈ l, R a b := by
  induction h with
  | nil => cases hb
  | cons hab _ ih =>
      rcases List.mem_cons.mp hb with rfl | hb
      · exact ⟨_, List.mem_cons_self, hab⟩
      · obtain ⟨a, ha, hR⟩ := ih hb
        exact ⟨a, List.mem_cons_of_mem _ ha, hR⟩

/-- A field the relation keeps is the same in both lists. -/
theorem map_eq_of_forall₂ {R : α → α → Prop} {g : α → β} (hg : ∀ a b, R a b → g b = g a)
    {l l' : List α} (h : List.Forall₂ R l l') : l'.map g = l.map g := by
  induction h with
  | nil => rfl
  | cons hab _ ih => rw [List.map_cons, List.map_cons, hg _ _ hab, ih]

/-- A list related to two appended ones splits where they meet. -/
theorem forall₂_append_split {R : α → α → Prop} {l₁ l₂ l' : List α}
    (h : List.Forall₂ R (l₁ ++ l₂) l') :
    ∃ l₁' l₂', l' = l₁' ++ l₂' ∧ List.Forall₂ R l₁ l₁' ∧ List.Forall₂ R l₂ l₂' := by
  induction l₁ generalizing l' with
  | nil => exact ⟨[], l', rfl, .nil, h⟩
  | cons a l₁ ih =>
      cases h with
      | cons hab hrest =>
          obtain ⟨l₁', l₂', rfl, h₁, h₂⟩ := ih hrest
          exact ⟨_ :: l₁', l₂', rfl, .cons hab h₁, h₂⟩

/-- A store behind a prefix leaves the prefix alone. -/
theorem modify_append_right {P X : List α} {i : Nat} (h : P.length ≤ i) (f : α → α) :
    (P ++ X).modify i f = P ++ X.modify (i - P.length) f := by
  induction P generalizing i with
  | nil => rfl
  | cons a P ih =>
      cases i with
      | zero => simp at h
      | succ i =>
          simp only [List.cons_append, List.modify_succ_cons, List.length_cons,
            Nat.add_sub_add_right]
          rw [ih (by simpa using h)]

/-- A store into a prefix leaves what follows alone. -/
theorem modify_append_left {P X : List α} {i : Nat} (h : i < P.length) (f : α → α) :
    (P ++ X).modify i f = P.modify i f ++ X := by
  induction P generalizing i with
  | nil => simp at h
  | cons a P ih =>
      cases i with
      | zero => rfl
      | succ i =>
          simp only [List.cons_append, List.modify_succ_cons]
          rw [ih (by simpa using h)]

/-- A store that a field can follow is a store into the fields. -/
theorem map_modify_comm {f : α → α} {g : α → β} {f' : β → β} (h : ∀ a, g (f a) = f' (g a))
    (l : List α) (i : Nat) : (l.modify i f).map g = (l.map g).modify i f' := by
  induction l generalizing i with
  | nil => simp
  | cons a l ih =>
      cases i with
      | zero => simp [h]
      | succ i => simp [ih]

/-- A store that keeps a field keeps it everywhere. -/
theorem map_modify_of_eq {f : α → α} {g : α → β} (h : ∀ a, g (f a) = g a) (l : List α) (i : Nat) :
    (l.modify i f).map g = l.map g := by
  rw [@map_modify_comm _ _ f g id h l i, List.modify_id]

/-- A store that keeps a property keeps it everywhere. -/
theorem forall_modify {f : α → α} {p : α → Prop} (h : ∀ a, p a → p (f a)) {l : List α}
    (hl : ∀ a ∈ l, p a) (i : Nat) : ∀ a ∈ l.modify i f, p a := by
  induction l generalizing i with
  | nil => simp
  | cons a l ih =>
      cases i with
      | zero => simpa using ⟨h a (hl a (by simp)), fun b hb => hl b (by simp [hb])⟩
      | succ i =>
          simpa using ⟨hl a (by simp), ih (fun b hb => hl b (by simp [hb])) i⟩

/-- After a store into the place of `a`, an element is what `a` became, or one of the
others, which a key without duplicates tells from `a`. -/
theorem mem_modify_of_nodup {f : α → α} {key : α → β} {l : List α} (hkey : (l.map key).Nodup)
    {i : Nat} {a b : α} (ha : l[i]? = some a) (hb : b ∈ l.modify i f) :
    b = f a ∨ (b ∈ l ∧ key b ≠ key a) := by
  obtain ⟨j, hj⟩ := List.mem_iff_getElem?.mp hb
  rw [List.getElem?_modify] at hj
  obtain ⟨c, hc, hcb⟩ := Option.map_eq_some_iff.mp hj
  by_cases hij : i = j
  · subst hij
    obtain rfl : a = c := Option.some.inj (ha.symm.trans hc)
    exact .inl (by simpa using hcb.symm)
  · obtain rfl : c = b := by simpa [hij] using hcb
    refine .inr ⟨List.mem_of_getElem? hc, fun heq => hij ?_⟩
    have hi : (l.map key)[i]? = some (key a) := by simp [ha]
    have hj : (l.map key)[j]? = some (key a) := by simp [hc, heq]
    have hlt : i < (l.map key).length := (List.getElem?_eq_some_iff.mp hi).1
    exact (List.getElem?_inj hlt hkey).mp (hi.trans hj.symm)

/-- What holds at every place after one is overwritten. -/
theorem forall_getElem?_set {P : ℕ → α → Prop} {l : List α} {k : ℕ} {a b : α}
    (hk : l[k]? = some a) : (∀ (j : ℕ) x, (l.set k b)[j]? = some x → P j x) ↔
      P k b ∧ ∀ j x, j ≠ k → l[j]? = some x → P j x := by
  have hlt : k < l.length := (List.getElem?_eq_some_iff.mp hk).1
  constructor
  · intro h
    refine ⟨h k b (List.getElem?_set_self hlt), fun j x hj hx => h j x ?_⟩
    rw [List.getElem?_set_ne (Ne.symm hj)]
    exact hx
  · intro ⟨hb, hrest⟩ j x hx
    by_cases hj : j = k
    · subst hj
      rw [List.getElem?_set_self hlt] at hx
      obtain rfl := Option.some.inj hx
      exact hb
    · rw [List.getElem?_set_ne (Ne.symm hj)] at hx
      exact hrest j x hj hx

theorem forall_mem_iff_getElem? {P : α → Prop} {l : List α} :
    (∀ x ∈ l, P x) ↔ ∀ (j : ℕ) x, l[j]? = some x → P x := by
  simp only [List.mem_iff_getElem?, forall_exists_index]
  exact forall_comm

/-- What holds everywhere holds of one element and at the other places. -/
theorem forall_mem_iff_apart {P : α → Prop} {l : List α} {k : ℕ} {a : α} (hk : l[k]? = some a) :
    (∀ x ∈ l, P x) ↔ P a ∧ ∀ (j : ℕ) x, j ≠ k → l[j]? = some x → P x := by
  rw [forall_mem_iff_getElem?]
  constructor
  · exact fun h => ⟨h k a hk, fun j x _ hx => h j x hx⟩
  · intro ⟨ha, hrest⟩ j x hx
    by_cases hj : j = k
    · subst hj
      obtain rfl := Option.some.inj (hk.symm.trans hx)
      exact ha
    · exact hrest j x hj hx

/-- Overwriting one element with another that is as good changes nothing. -/
theorem forall_mem_set {P : α → Prop} {l : List α} {k : ℕ} {a b : α} (hk : l[k]? = some a)
    (hab : P b ↔ P a) : (∀ x ∈ l.set k b, P x) ↔ ∀ x ∈ l, P x := by
  rw [forall_mem_iff_getElem?, forall_getElem?_set (P := fun _ x => P x) hk,
    forall_mem_iff_apart hk, hab]

/-- Changing an element that is there is overwriting it. -/
theorem modify_eq_set {l : List α} {i : ℕ} {a : α} (h : l[i]? = some a) (f : α → α) :
    l.modify i f = l.set i (f a) := by
  rw [List.modify_eq_set_getElem?, h]
  rfl

/-- When an element with a property is overwritten, all have the property if and only if
they all had it and the new one does. -/
theorem forall_mem_set_of {P : α → Prop} {l : List α} {k : ℕ} {a b : α} (hk : l[k]? = some a)
    (ha : P a) : (∀ x ∈ l.set k b, P x) ↔ (∀ x ∈ l, P x) ∧ P b := by
  rw [forall_mem_iff_getElem?, forall_getElem?_set (P := fun _ x => P x) hk,
    forall_mem_iff_apart hk, and_iff_right ha, and_comm]

/-- The element written is in the list. -/
theorem mem_set_self {l : List α} {k : ℕ} {a : α} (b : α) (hk : l[k]? = some a) : b ∈ l.set k b :=
  List.mem_set (List.getElem?_eq_some_iff.mp hk).1 b

end MonitoringTool.Lib
