import Mathlib

/-!
# Doubly linked segments

A list of nodes threaded through two link functions, between what stands before
its first node and what stands after its last.  The ends need not be nodes: a
list that keeps its head elsewhere has a marker before its first node and
nothing after its last.  Edits are stated by what the new link functions are on
the nodes, so that a memory in which the links are words can use them.
-/

namespace Redoubt.Library

open List

variable {α : Type*} {next prev next' prev' : α → α}

/-- The nodes are linked in order from `before` to `after`. -/
def Linked (next prev : α → α) : α → List α → α → Prop
  | _, [], _ => True
  | before, node :: rest, after =>
    prev node = before ∧ next node = rest.headD after ∧ Linked next prev node rest after

namespace Linked

variable {before after node : α} {nodes front back : List α}

theorem headD_append (front back : List α) (after : α) :
    (front ++ back).headD after = front.headD (back.headD after) := by
  cases front <;> rfl

/-- Two segments that meet are one. -/
theorem append_iff : Linked next prev before (front ++ back) after ↔
      Linked next prev before front (back.headD after) ∧
        Linked next prev (front.getLastD before) back after := by
  induction front generalizing before with
  | nil => simp [Linked]
  | cons first rest ih =>
    simp only [cons_append, Linked, headD_append, ih, getLastD_cons, and_assoc]

/-- Only the links of the nodes matter. -/
theorem congr (hlinked : Linked next prev before nodes after)
    (hnext : ∀ node ∈ nodes, next' node = next node)
    (hprev : ∀ node ∈ nodes, prev' node = prev node) :
    Linked next' prev' before nodes after := by
  induction nodes generalizing before with
  | nil => trivial
  | cons first rest ih =>
    obtain ⟨hbefore, hafter, hrest⟩ := hlinked
    refine ⟨?_, ?_, ih hrest ?_ ?_⟩
    · rw [hprev first (by simp), hbefore]
    · rw [hnext first (by simp), hafter]
    · exact fun node hnode => hnext node (mem_cons_of_mem _ hnode)
    · exact fun node hnode => hprev node (mem_cons_of_mem _ hnode)

/-- The neighbours of a node. -/
theorem neighbours (hlinked : Linked next prev before (front ++ node :: back) after) :
    prev node = front.getLastD before ∧ next node = back.headD after := by
  obtain ⟨-, hprev, hnext, -⟩ := append_iff.mp hlinked
  exact ⟨hprev, hnext⟩

variable [DecidableEq α]

/-- A segment gets a new end: only the last node's next link changes. -/
theorem set_after {after' : α} (hlinked : Linked next prev before nodes after)
    (hdistinct : nodes.Nodup)
    (hnext : ∀ node ∈ nodes, next' node =
      if nodes.getLast? = some node then after' else next node)
    (hprev : ∀ node ∈ nodes, prev' node = prev node) :
    Linked next' prev' before nodes after' := by
  induction nodes generalizing before with
  | nil => trivial
  | cons first rest ih =>
    obtain ⟨hfirst, hrest⟩ := nodup_cons.mp hdistinct
    obtain ⟨hbefore, hafter, hlinked⟩ := hlinked
    cases rest with
    | nil =>
      refine ⟨?_, ?_, trivial⟩
      · rw [hprev first (by simp), hbefore]
      · rw [hnext first (by simp)]
        simp
    | cons second rest =>
      have hlast : (first :: second :: rest).getLast? = (second :: rest).getLast? := by
        simp
      have hnotLast : (second :: rest).getLast? ≠ some first := by
        intro h
        exact hfirst (mem_of_getLast? h)
      refine ⟨?_, ?_, ih hlinked hrest ?_ ?_⟩
      · rw [hprev first (by simp), hbefore]
      · rw [hnext first (by simp), hlast, if_neg hnotLast, hafter]
        rfl
      · intro node hnode
        rw [hnext node (mem_cons_of_mem _ hnode), hlast]
      · intro node hnode
        exact hprev node (mem_cons_of_mem _ hnode)

/-- A segment gets a new start: only the first node's previous link changes. -/
theorem set_before {before' : α} (hlinked : Linked next prev before nodes after)
    (hdistinct : nodes.Nodup)
    (hnext : ∀ node ∈ nodes, next' node = next node)
    (hprev : ∀ node ∈ nodes, prev' node =
      if nodes.head? = some node then before' else prev node) :
    Linked next' prev' before' nodes after := by
  cases nodes with
  | nil => trivial
  | cons first rest =>
    obtain ⟨hfirst, hrest⟩ := nodup_cons.mp hdistinct
    obtain ⟨-, hafter, hlinked⟩ := hlinked
    refine ⟨?_, ?_, hlinked.congr ?_ ?_⟩
    · rw [hprev first (by simp)]
      simp
    · rw [hnext first (by simp), hafter]
    · exact fun node hnode => hnext node (mem_cons_of_mem _ hnode)
    · intro node hnode
      have hne : (first :: rest).head? ≠ some node := by
        simp only [head?_cons, ne_eq, Option.some.injEq]
        exact fun h => hfirst (h ▸ hnode)
      rw [hprev node (mem_cons_of_mem _ hnode), if_neg hne]

/-- Two segments are joined around what is put between them. -/
theorem splice {left right : α} {middle : List α}
    (hfront : Linked next prev before front right)
    (hback : Linked next prev left back after) (hdistinct : (front ++ back).Nodup)
    (hnext : ∀ other ∈ front ++ back, next' other =
      if front.getLast? = some other then middle.headD (back.headD after)
      else next other)
    (hprev : ∀ other ∈ front ++ back, prev' other =
      if back.head? = some other then middle.getLastD (front.getLastD before)
      else prev other)
    (hmiddle : Linked next' prev' (front.getLastD before) middle (back.headD after)) :
    Linked next' prev' before (front ++ (middle ++ back)) after := by
  obtain ⟨hfrontDistinct, hbackDistinct, hdisjoint⟩ := nodup_append.mp hdistinct
  refine append_iff.mpr ⟨?_, append_iff.mpr ⟨hmiddle, ?_⟩⟩
  · rw [headD_append]
    refine hfront.set_after hfrontDistinct ?_ ?_
    · exact fun other hother => hnext other (mem_append_left _ hother)
    · intro other hother
      have hne : back.head? ≠ some other := fun h =>
        hdisjoint other hother other (mem_of_head? h) rfl
      rw [hprev other (mem_append_left _ hother), if_neg hne]
  · refine hback.set_before hbackDistinct ?_ ?_
    · intro other hother
      have hne : front.getLast? ≠ some other := fun h =>
        hdisjoint other (mem_of_getLast? h) other hother rfl
      rw [hnext other (mem_append_right _ hother), if_neg hne]
    · exact fun other hother => hprev other (mem_append_right _ hother)

end Linked

end Redoubt.Library
