import Mathlib.Data.List.Defs

/-!
# Members of a record

A lens is a member of a record: it can be read and overwritten.  Its laws say that what was
written is read, that the last of two writes counts, and that writing back what was read
changes nothing.
-/

namespace MonitoringTool.Lib

/-- A member of type `A` of the records of type `S`. -/
structure Lens (S A : Type*) where
  get : S → A
  set : A → S → S
  get_set : ∀ a s, get (set a s) = a := by intros; rfl
  set_set : ∀ a b s, set a (set b s) = set a s := by intros; rfl
  set_get : ∀ s, set (get s) s = s := by intros; rfl

attribute [simp] Lens.get_set Lens.set_set Lens.set_get

namespace Lens

variable {S A : Type*} (l : Lens S (List A)) (s : S)

/-- Append to a member that is a list. -/
def append (as : List A) : S := l.set (l.get s ++ as) s

@[simp] theorem append_nil : l.append s [] = s := by
  simp [append]

theorem append_append (as bs : List A) :
    l.append (l.append s as) bs = l.append s (as ++ bs) := by
  simp [append]

end Lens

end MonitoringTool.Lib
