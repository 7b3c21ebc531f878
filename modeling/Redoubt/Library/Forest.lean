import Mathlib

/-!
# Walks of a subtree

A forest given by each node's list of children, and the nodes at or below one of
them, children after their parent.  In a forest of bounded depth the walk meets
all of them.
-/

namespace Redoubt.Forest

open Relation.ReflTransGen

variable {α : Type} (children : α → List α)

/-- The node and what is below it, at most `fuel` levels down. -/
def preorder : ℕ → α → List α
  | 0, top => [top]
  | fuel + 1, top => top :: (children top).flatMap (preorder fuel)

/-- At or below `top`. -/
def Below (top : α) : α → Prop := Relation.ReflTransGen (fun b c => c ∈ children b) top

variable {children}

theorem top_mem_preorder (fuel : ℕ) (top : α) : top ∈ preorder children fuel top := by
  cases fuel with
  | zero => exact List.mem_singleton_self top
  | succ fuel => exact List.mem_cons_self

theorem below_of_mem_preorder {fuel : ℕ} {top b : α}
    (hmem : b ∈ preorder children fuel top) :
    Below children top b := by
  induction fuel generalizing top with
  | zero => exact List.mem_singleton.mp hmem ▸ refl
  | succ fuel ih =>
    rcases List.mem_cons.mp hmem with rfl | hbelow
    · exact refl
    · obtain ⟨c, hc, hb⟩ := List.mem_flatMap.mp hbelow
      exact head hc (ih hb)

/-- In a forest less than `bound` levels deep, with `depth` of every child one more
than its parent's, a walk of `bound` levels meets every node below. -/
theorem mem_preorder_of_below {depth : α → ℕ} {bound fuel : ℕ}
    (hchild : ∀ b c, c ∈ children b → depth c = depth b + 1 ∧ depth c < bound)
    {top b : α}
    (hfuel : bound ≤ depth top + fuel + 1) (hbelow : Below children top b) :
    b ∈ preorder children fuel top := by
  induction hbelow using head_induction_on generalizing fuel with
  | refl => exact top_mem_preorder fuel b
  | @head top' c hc _ ih =>
    have hdepth := hchild top' c hc
    cases fuel with
    | zero => omega
    | succ fuel =>
      refine List.mem_cons_of_mem _ (List.mem_flatMap.mpr ⟨c, hc, ih ?_⟩)
      omega

end Redoubt.Forest
