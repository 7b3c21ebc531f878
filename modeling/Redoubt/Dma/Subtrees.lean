import Redoubt.Dma.Budgets
import Redoubt.Library.Carving

/-!
# Subtrees of budgets

A budget and all those below it.  What is left when they are gone is a tree again, and
what their runs cost is no more than the parent gets back for them.
-/

namespace Redoubt.Dma

open Function Finset Option

variable {m : Memory} {t : Tree} {top : ℕ}

/-! ### The subtree -/

/-- A budget with everything below it. -/
structure Subtree (t : Tree) (top : ℕ) (within : List ℕ) : Prop where
  top_mem : top ∈ within
  live : ∀ b ∈ within, (t.budgets b).isSome = true
  down : ∀ b c C, b ∈ within → t.budgets c = some C → C.parent = some b → c ∈ within
  up : ∀ c C, c ∈ within → c ≠ top → t.budgets c = some C → ∃ p,
    C.parent = some p ∧ p ∈ within
  deep : ∀ c C T, c ∈ within → t.budgets c = some C → t.budgets top = some T →
    T.depth ≤ C.depth

theorem Tree.Sound.subtree (h : t.Sound) (hlinked : t.Linked) {T : Budget}
    (hT : t.budgets top = some T) :
    Subtree t top (Forest.preorder t.children maxDepth top) := by
  have hchild (b c : ℕ) (hc : c ∈ t.children b) :
      (t.budgets c).elim 0 Budget.depth = (t.budgets b).elim 0 Budget.depth + 1 ∧
        (t.budgets c).elim 0 Budget.depth < maxDepth := by
    obtain ⟨C, hC, hparent⟩ := (hlinked.children b c).mp hc
    obtain ⟨B, hB, hdepth⟩ := h.up c C b hC hparent
    rw [hC, hB]
    exact ⟨hdepth, h.shallow c C hC⟩
  have hmem (b : ℕ) : b ∈ Forest.preorder t.children maxDepth top ↔
      Forest.Below t.children top b :=
    ⟨Forest.below_of_mem_preorder, Forest.mem_preorder_of_below hchild (by omega)⟩
  -- what the walk meets, from the top down
  have hmet {b : ℕ} (hb : Forest.Below t.children top b) :
      ∃ B, t.budgets b = some B ∧ T.depth ≤ B.depth ∧
        (b ≠ top → ∃ p, B.parent = some p ∧ Forest.Below t.children top p) := by
    induction hb with
    | refl => exact ⟨T, hT, le_rfl, fun hne => absurd rfl hne⟩
    | @tail b c hb hc ih =>
      obtain ⟨B, hB, hdeep, -⟩ := ih
      obtain ⟨C, hC, hparent⟩ := (hlinked.children b c).mp hc
      obtain ⟨B', hB', hdepth⟩ := h.up c C b hC hparent
      cases hB.symm.trans hB'
      exact ⟨C, hC, by omega, fun _ => ⟨b, hparent, hb⟩⟩
  exact {
    top_mem := (hmem top).mpr .refl
    live := by
      intro b hb
      obtain ⟨B, hB, -⟩ := hmet ((hmem b).mp hb)
      exact isSome_iff_exists.mpr ⟨B, hB⟩
    down := fun b c C hb hC hparent =>
      (hmem c).mpr (((hmem b).mp hb).tail ((hlinked.children b c).mpr ⟨C, hC, hparent⟩))
    up := by
      intro c C hc hne hC
      obtain ⟨C', hC', -, hup⟩ := hmet ((hmem c).mp hc)
      cases hC.symm.trans hC'
      obtain ⟨p, hp, hbelow⟩ := hup hne
      exact ⟨p, hp, (hmem p).mpr hbelow⟩
    deep := by
      intro c C T' hc hC hT'
      obtain ⟨C', hC', hdeep, -⟩ := hmet ((hmem c).mp hc)
      cases hC.symm.trans hC'
      cases hT.symm.trans hT'
      exact hdeep }

section Within

variable {within : List ℕ} {T : Budget}

theorem Subtree.not_parent (hw : Subtree t top within) (h : t.Sound)
    (hT : t.budgets top = some T) {q : ℕ}
    (hq : T.parent = some q) : q ∉ within := by
  intro hmem
  obtain ⟨Q, hQ, hdepth⟩ := h.up top T q hT hq
  have hdeep := hw.deep q Q T hmem hQ hT
  omega

/-- Of the children of what stays, only the top goes. -/
theorem Subtree.eq_top (hw : Subtree t top within) {b c : ℕ} {C : Budget}
    (hb : b ∉ within) (hc : c ∈ within)
    (hC : t.budgets c = some C) (hparent : C.parent = some b) : c = top := by
  by_contra hne
  obtain ⟨p, hp, hmem⟩ := hw.up c C hc hne hC
  exact hb (some.inj (hparent.symm.trans hp) ▸ hmem)

/-- The tree without it. -/
def Tree.cut (t : Tree) (within : List ℕ) : Tree :=
  { t with
    budgets := fun b => if b ∈ within then none else t.budgets b
    children := fun b => if b ∈ within then [] else t.children b
    dying := [] }

theorem cut_budgets {b : ℕ} {B : Budget} (hB : (t.cut within).budgets b = some B) :
    b ∉ within ∧ t.budgets b = some B := by
  change (if b ∈ within then none else t.budgets b) = some B at hB
  split at hB
  · exact nomatch hB
  · next hnot => exact ⟨hnot, hB⟩

theorem cut_old {b : ℕ} (hb : b ∉ within) : (t.cut within).budgets b = t.budgets b :=
  if_neg hb

theorem cut_gone {b : ℕ} (hb : b ∈ within) : (t.cut within).budgets b = none :=
  if_pos hb

section

variable (hw : Subtree t top within)
include hw

theorem Subtree.sound_cut (h : t.Sound) : (t.cut within).Sound := by
  exact { h with
    known := fun b B hB => h.known b B (cut_budgets hB).2
    up := by
      intro b B p hB hp
      obtain ⟨hnot, hB⟩ := cut_budgets hB
      obtain ⟨P, hP, hdepth⟩ := h.up b B p hB hp
      exact ⟨P, (cut_old fun hmem => hnot (hw.down p b B hmem hB hp)).trans hP, hdepth⟩
    shallow := fun b B hB => h.shallow b B (cut_budgets hB).2
    root := fun b B hB => h.root b B (cut_budgets hB).2
    parents := fun b B hB => h.parents b B (cut_budgets hB).2 }

/-- What was charged to the subtree's budgets is its parent's to pay. -/
theorem Subtree.survivor_within (h : t.Sound) (hT : t.budgets top = some T) {b : ℕ}
    (hb : b ∈ within) : Survivor (t.cut within) b T.parent := by
  obtain ⟨B, hB⟩ := isSome_iff_exists.mp (hw.live b hb)
  induction hdepth : B.depth using Nat.strong_induction_on generalizing b B with
  | _ n ih =>
    have hparents : (t.cut within).parents b = B.parent := h.parents b B hB
    by_cases htop : b = top
    · subst htop
      cases hB.symm.trans hT
      cases hq : T.parent with
      | none => exact .gone (cut_gone hb) (hparents.trans hq)
      | some q =>
        obtain ⟨Q, hQ, -⟩ := h.up b T q hT hq
        refine .up (cut_gone hb) (hparents.trans hq) (.here ?_)
        rw [cut_old (hw.not_parent h hT hq), hQ]
        rfl
    · obtain ⟨p, hp, hmem⟩ := hw.up b B hb htop hB
      obtain ⟨P, hP, hlevel⟩ := h.up b B p hB hp
      exact .up (cut_gone hb) (hparents.trans hp) (ih P.depth (by omega) hmem P hP rfl)

theorem Subtree.survivor (h : t.Sound) (hT : t.budgets top = some T) {b : ℕ}
    {o : Option ℕ} (hs : Survivor t b o) :
    Survivor (t.cut within) b (if o.any (· ∈ within) = true then T.parent else o) := by
  induction hs with
  | @here b hlive =>
    by_cases hb : b ∈ within
    · rw [any_some, decide_eq_true hb]
      exact hw.survivor_within h hT hb
    · rw [any_some, decide_eq_false hb]
      exact .here ((congrArg Option.isSome (cut_old hb)).trans hlive)
  | @up b p o hgone hup _ ih =>
    refine .up ?_ hup ih
    change (if b ∈ within then none else t.budgets b) = none
    rw [hgone, ite_self]
  | @gone b hgone hup =>
    refine .gone ?_ hup
    change (if b ∈ within then none else t.budgets b) = none
    rw [hgone, ite_self]

/-- What the parent gets back. -/
theorem Subtree.carved_parent (h : t.Sound) (hT : t.budgets top = some T) {q : ℕ}
    (hq : T.parent = some q) :
    (t.cut within).carved q + (budgetPages + T.limit) = t.carved q := by
  have hcarve : carveOf q (t.budgets top) = budgetPages + T.limit := by
    rw [hT]
    exact if_pos hq
  have hmem : top ∈ range t.nextId := mem_range.mpr (h.known top T hT)
  have hgone : carveOf q ((t.cut within).budgets top) = 0 :=
    congrArg (carveOf q) (cut_gone hw.top_mem)
  have hrest : ∀ c ∈ (range t.nextId).erase top, carveOf q ((t.cut within).budgets c) =
      carveOf q (t.budgets c) := by
    intro c hc
    by_cases hin : c ∈ within
    · rw [cut_gone hin]
      obtain ⟨C, hC⟩ := isSome_iff_exists.mp (hw.live c hin)
      rw [hC]
      refine (if_neg fun hparent => ?_).symm
      exact ne_of_mem_erase hc (hw.eq_top (hw.not_parent h hT hq) hin hC hparent)
    · rw [cut_old hin]
  change ∑ c ∈ range t.nextId, carveOf q ((t.cut within).budgets c) + _ =
    ∑ c ∈ range t.nextId, carveOf q (t.budgets c)
  rw [← add_sum_erase _ _ hmem, ← add_sum_erase _ _ hmem, sum_congr rfl hrest]
  omega

/-- Nobody else got anything for it. -/
theorem Subtree.carved_other (hT : t.budgets top = some T) {b : ℕ} (hb : b ∉ within)
    (hne : T.parent ≠ some b) : (t.cut within).carved b = t.carved b := by
  refine sum_congr rfl fun c _ => ?_
  by_cases hin : c ∈ within
  · rw [cut_gone hin]
    obtain ⟨C, hC⟩ := isSome_iff_exists.mp (hw.live c hin)
    rw [hC]
    refine (if_neg fun hparent => hne ?_).symm
    cases hw.eq_top hb hin hC hparent
    cases hC.symm.trans hT
    exact hparent
  · rw [cut_old hin]

/-- The list of children without the top, and without the lists that go. -/
theorem Subtree.linked_cut (hlinked : t.Linked)
    (hT : t.budgets top = some T) {children : ℕ → List ℕ}
    (hparent : ∀ q, T.parent = some q → children q = (t.children q).erase top)
    (hother : ∀ b, T.parent ≠ some b → children b = t.children b) :
    (Tree.cut { t with children := children, dying := within } within).Linked := by
  have hnodup (b : ℕ) : (children b).Nodup := by
    by_cases hb : T.parent = some b
    · rw [hparent b hb]
      exact (hlinked.once b).erase top
    · rw [hother b hb]
      exact hlinked.once b
  have hmem (b c : ℕ) : c ∈ children b ↔ c ∈ t.children b ∧
      ¬ (c = top ∧ T.parent = some b) := by
    by_cases hb : T.parent = some b
    · rw [hparent b hb, (hlinked.once b).mem_erase_iff, and_iff_left hb, and_comm]
    · rw [hother b hb]
      exact (and_iff_left fun hand => hb hand.2).symm
  exact {
    children := by
      intro b c
      change c ∈ (if b ∈ within then [] else children b) ↔ ∃ C,
        (t.cut within).budgets c = some C ∧ C.parent = some b
      by_cases hb : b ∈ within
      · rw [if_pos hb]
        refine ⟨nofun, fun ⟨C, hC, hup⟩ => ?_⟩
        obtain ⟨hnot, hC⟩ := cut_budgets hC
        exact absurd (hw.down b c C hb hC hup) hnot
      · rw [if_neg hb, hmem, hlinked.children]
        constructor
        · intro ⟨⟨C, hC, hup⟩, hkept⟩
          refine ⟨C, (cut_old fun hin => hkept ?_).trans hC, hup⟩
          cases hw.eq_top hb hin hC hup
          cases hC.symm.trans hT
          exact ⟨rfl, hup⟩
        · intro ⟨C, hC, hup⟩
          obtain ⟨hnot, hC⟩ := cut_budgets hC
          exact ⟨⟨C, hC, hup⟩, fun hand => hnot (hand.1 ▸ hw.top_mem)⟩
    once := by
      intro b
      change (if b ∈ within then [] else children b).Nodup
      split
      · exact List.nodup_nil
      · exact hnodup b
    idle := rfl }

end

/-! ### What its runs cost -/

/-- What the runs charged to the subtree cost. -/
def Memory.owed (m : Memory) (within : List ℕ) : ℕ := ∑ b ∈ within.toFinset, m.charges b

/-- The subtree as room carved from its top. -/
def Subtree.carving {m : Memory} (hw : Subtree m.tree top within) (h : m.tree.Sound) :
    Carving ℕ where
  nodes := within.toFinset
  top := top
  top_mem := List.mem_toFinset.mpr hw.top_mem
  parent b := ((m.tree.budgets b).bind Budget.parent).getD 0
  parent_mem := by
    intro b hb hne
    obtain ⟨B, hB⟩ := Option.isSome_iff_exists.mp (hw.live b (List.mem_toFinset.mp hb))
    obtain ⟨p, hp, hmem⟩ := hw.up b B (List.mem_toFinset.mp hb) hne hB
    rw [hB, Option.bind_some, hp]
    exact List.mem_toFinset.mpr hmem
  rank b := (m.tree.budgets b).elim 0 Budget.depth
  rank_lt := by
    intro b hb hne
    obtain ⟨B, hB⟩ := Option.isSome_iff_exists.mp (hw.live b (List.mem_toFinset.mp hb))
    obtain ⟨p, hp, -⟩ := hw.up b B (List.mem_toFinset.mp hb) hne hB
    obtain ⟨P, hP, hdepth⟩ := h.up b B p hB hp
    rw [hB, Option.bind_some, hp, Option.getD_some, hP]
    exact Nat.lt_of_lt_of_eq (Nat.lt_succ_self _) hdepth.symm
  quota _ := 0
  held := m.charges

/-- It is no more than the top's limit, which its parent gets back. -/
theorem Kept.owed_le (h : Kept m) (hw : Subtree m.tree top within)
    (hT : m.tree.budgets top = some T) :
    m.owed within ≤ T.limit := by
  let c := hw.carving h.tree
  -- each budget's charges and its children's limits are within its own limit
  have hlimit : ∀ b ∈ c.nodes,
      max (c.quota b) (c.held b + ∑ j ∈ c.children b, m.limit j) ≤ m.limit b := by
    intro b hb
    obtain ⟨B, hB⟩ := isSome_iff_exists.mp (hw.live b (List.mem_toFinset.mp hb))
    obtain ⟨hused, hle⟩ := h.paid b B hB
    have hchildren : ∑ j ∈ c.children b, m.limit j ≤ m.tree.carved b := by
      have hcarve (j : ℕ) (hj : j ∈ c.children b) :
          m.limit j ≤ carveOf b (m.tree.budgets j) ∧ j ∈ range m.tree.nextId := by
        obtain ⟨hin, hne, hparent⟩ := Carving.mem_children.mp hj
        obtain ⟨J, hJ⟩ := isSome_iff_exists.mp (hw.live j (List.mem_toFinset.mp hin))
        obtain ⟨p, hp, -⟩ := hw.up j J (List.mem_toFinset.mp hin) hne hJ
        have hparent' : ((m.tree.budgets j).bind Budget.parent).getD 0 = b := hparent
        rw [hJ, bind_some, hp, getD_some] at hparent'
        subst hparent'
        rw [limit_eq hJ, hJ, carveOf, if_pos hp]
        exact ⟨Nat.le_add_left _ _, mem_range.mpr (h.tree.known j J hJ)⟩
      calc
        ∑ j ∈ c.children b, m.limit j ≤
          ∑ j ∈ c.children b, carveOf b (m.tree.budgets j) :=
          sum_le_sum fun j hj => (hcarve j hj).1
        _ ≤ m.tree.carved b := sum_le_sum_of_subset fun j hj => (hcarve j hj).2
    have hheld : c.held b = m.charges b := rfl
    have hquota : c.quota b = 0 := rfl
    rw [hquota, limit_eq hB]
    omega
  calc
    _ ≤ c.held c.top + c.reserve c.top := Carving.sum_held_le
    _ ≤ c.charge c.top := Carving.held_add_reserve_le_charge _
    _ ≤ m.limit top := Carving.charge_le_of hlimit top c.top_mem
    _ = T.limit := limit_eq hT

end Within

end Redoubt.Dma
