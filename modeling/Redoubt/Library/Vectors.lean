import Mathlib

/-!
# Vectors changed in place

Lists as growable arrays: an element taken out by putting the last in its place, and the
first element of a kind changed.
-/

namespace Redoubt.Vectors

open List

/-- The last element in place of the one at `i`. -/
def swapRemove {α : Type} (l : List α) (i : ℕ) : List α :=
  match l.getLast? with
  | none => l
  | some last => (l.set i last).dropLast

theorem swapRemove_append {α : Type} (init : List α) (last : α) (i : ℕ) :
    swapRemove (init ++ [last]) i = if i < init.length then init.set i last
      else init := by
  have hlast : (init ++ [last]).getLast? = some last := getLast?_concat
  rw [swapRemove, hlast]
  change ((init ++ [last]).set i last).dropLast = _
  split_ifs with hi
  · rw [set_append_left _ _ hi]
    exact dropLast_concat
  · rw [set_append_right _ _ (Nat.le_of_not_lt hi)]
    cases i - init.length <;> exact dropLast_concat

/-- The elements but the one at `i`, in another order. -/
theorem swapRemove_perm {α : Type} {xs : List α} {i : ℕ} (hi : i < xs.length) :
    (xs[i] :: swapRemove xs i).Perm xs := by
  induction xs using List.reverseRecOn with
  | nil => exact nomatch hi
  | append_singleton init last _ =>
    rw [swapRemove_append]
    by_cases hinit : i < init.length
    · rw [if_pos hinit, getElem_append_left hinit]
      calc
        init[i] :: init.set i last
          = init[i] :: (init.take i ++ last :: init.drop (i + 1)) := by
            rw [set_eq_take_append_cons_drop, if_pos hinit]
        List.Perm _ (init[i] :: last :: (init.take i ++ init.drop (i + 1))) :=
            perm_middle.cons _
        List.Perm _ (last :: init[i] :: (init.take i ++ init.drop (i + 1))) :=
            Perm.swap _ _ _
        List.Perm _ (last :: (init.take i ++ init[i] :: init.drop (i + 1))) :=
            perm_middle.symm.cons _
        _ = last :: init := by rw [getElem_cons_drop hinit, take_append_drop]
        List.Perm ([last] ++ init) (init ++ [last]) := perm_append_comm
    · have heq : i = init.length := by
        rw [length_append, length_singleton] at hi
        omega
      subst heq
      have hcomm : ([last] ++ init).Perm (init ++ [last]) := perm_append_comm
      simpa using hcomm

/-- The first stays in its place. -/
theorem swapRemove_cons {α : Type} (x : α) (xs : List α) {i : ℕ} (hi : i ≠ 0)
    (hlt : i < (x :: xs).length) : ∃ rest, swapRemove (x :: xs) i = x :: rest := by
  induction xs using List.reverseRecOn with
  | nil => exact absurd (Nat.lt_one_iff.mp hlt) hi
  | append_singleton init last _ =>
    rw [← cons_append, swapRemove_append]
    split_ifs
    · obtain ⟨j, rfl⟩ := Nat.exists_eq_succ_of_ne_zero hi
      exact ⟨init.set j last, rfl⟩
    · exact ⟨init, rfl⟩

section Take

variable {α : Type} {p : α → Bool} {xs rest : List α} {a : α}

/-- The first element that `p` picks and the others, the last in its place. -/
def swapTake (p : α → Bool) (xs : List α) : Option (α × List α) := do
  let i ← xs.findIdx? p
  let a ← xs[i]?
  return (a, swapRemove xs i)

end Take

section Modify

variable {α β : Type} (p : α → Bool) (f : α → α)

/-- The first element that `p` picks, changed. -/
def modifyFirst : List α → List α
  | [] => []
  | a :: rest => if p a then f a :: rest else a :: modifyFirst rest

variable {p f}

end Modify

end Redoubt.Vectors
