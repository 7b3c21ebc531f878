import Mathlib

/-!
# Room carved along a tree

Nodes of a finite tree hold something and have a quota.  A node's charge is the
larger of its quota and of what it holds and reserves, and it reserves the charges of
its children: what it was promised is kept free above it, whatever it uses of it.
-/

namespace Redoubt

open Function

/-- A finite tree, each node but the top with a parent of smaller rank, and what the
nodes hold and may hold. -/
structure Carving (ι : Type) where
  nodes : Finset ι
  top : ι
  top_mem : top ∈ nodes
  parent : ι → ι
  parent_mem : ∀ j ∈ nodes, j ≠ top → parent j ∈ nodes
  rank : ι → ℕ
  rank_lt : ∀ j ∈ nodes, j ≠ top → rank (parent j) < rank j
  quota : ι → ℕ
  held : ι → ℕ

namespace Carving

open Finset

variable {ι : Type} [DecidableEq ι] (c : Carving ι) {i j : ι}

def children (i : ι) : Finset ι := c.nodes.filter fun j => j ≠ c.top ∧ c.parent j = i

variable {c} in
theorem mem_children : j ∈ c.children i ↔ j ∈ c.nodes ∧ j ≠ c.top ∧ c.parent j = i :=
  mem_filter

/-- The larger of its quota and what it holds and reserves for its children. -/
def charge (i : ι) : ℕ :=
  max (c.quota i) (c.held i + ∑ j ∈ (c.children i).attach, charge j.1)
termination_by c.nodes.sup c.rank + 1 - c.rank i
decreasing_by
  have hj := mem_children.mp j.2
  have hlt := c.rank_lt j.1 hj.1 hj.2.1
  have hle : c.rank j.1 ≤ c.nodes.sup c.rank := le_sup hj.1
  rw [hj.2.2] at hlt
  omega

/-- What it keeps for its children. -/
def reserve (i : ι) : ℕ := ∑ j ∈ c.children i, c.charge j

theorem charge_eq (i : ι) : c.charge i = max (c.quota i) (c.held i + c.reserve i) := by
  rw [charge, reserve, sum_attach (c.children i) c.charge]

variable {c}

/-- Children before their parents. -/
theorem induction {P : ι → Prop}
    (hstep : ∀ i ∈ c.nodes, (∀ j ∈ c.children i, P j) → P i) :
    ∀ i ∈ c.nodes, P i := by
  intro i hi
  induction hn :
    c.nodes.sup c.rank + 1 - c.rank i using Nat.strong_induction_on generalizing i with
  | _ n ih =>
    refine hstep i hi fun j hj => ?_
    have hchild := mem_children.mp hj
    have hlt := c.rank_lt j hchild.1 hchild.2.1
    have hle : c.rank j ≤ c.nodes.sup c.rank := le_sup hchild.1
    rw [hchild.2.2] at hlt
    exact ih _ (by omega) j hchild.1 rfl

/-- What satisfies the equations of the charges is the charges. -/
theorem charge_eq_of {f : ι → ℕ}
    (hf : ∀ i ∈ c.nodes, f i = max (c.quota i) (c.held i + ∑ j ∈ c.children i, f j)) :
    ∀ i ∈ c.nodes, c.charge i = f i := by
  refine induction fun i hi hchildren => ?_
  rw [charge_eq, hf i hi, reserve, sum_congr rfl hchildren]

/-- What is enough everywhere is at least the charges. -/
theorem charge_le_of {f : ι → ℕ}
    (hf : ∀ i ∈ c.nodes, max (c.quota i) (c.held i + ∑ j ∈ c.children i, f j) ≤ f i) :
    ∀ i ∈ c.nodes, c.charge i ≤ f i := by
  refine induction fun i hi hchildren => ?_
  rw [charge_eq]
  refine le_trans ?_ (hf i hi)
  exact max_le_max le_rfl (Nat.add_le_add_left (sum_le_sum hchildren) _)

theorem quota_le_charge (i : ι) : c.quota i ≤ c.charge i := by
  rw [charge_eq]
  exact le_max_left _ _

theorem held_add_reserve_le_charge (i : ι) : c.held i + c.reserve i ≤ c.charge i := by
  rw [charge_eq]
  exact le_max_right _ _

/-- No charge is larger than the top's. -/
theorem charge_le_charge_top : ∀ i ∈ c.nodes, c.charge i ≤ c.charge c.top := by
  intro i hi
  induction hn : c.rank i using Nat.strong_induction_on generalizing i with
  | _ n ih =>
    by_cases htop : i = c.top
    · rw [htop]
    · have hlt := c.rank_lt i hi htop
      calc
        c.charge i ≤ c.reserve (c.parent i) :=
          single_le_sum (fun _ _ => Nat.zero_le _) (mem_children.mpr ⟨hi, htop, rfl⟩)
        _ ≤ c.held (c.parent i) + c.reserve (c.parent i) := Nat.le_add_left _ _
        _ ≤ c.charge (c.parent i) := held_add_reserve_le_charge _
        _ ≤ c.charge c.top := ih _ (hn ▸ hlt) (c.parent i) (c.parent_mem i hi htop) rfl

/-- What the nodes hold together the top holds or reserves. -/
theorem sum_held_le : ∑ i ∈ c.nodes, c.held i ≤ c.held c.top + c.reserve c.top := by
  -- every charge but the top's is reserved once
  have hreserved : ∑ i ∈ c.nodes, c.reserve i =
      ∑ j ∈ c.nodes.erase c.top, c.charge j := by
    have hmaps : ∀ j ∈ c.nodes.erase c.top, c.parent j ∈ c.nodes := fun j hj =>
      c.parent_mem j (mem_of_mem_erase hj) (ne_of_mem_erase hj)
    rw [← sum_fiberwise_of_maps_to hmaps]
    refine sum_congr rfl fun i _ => sum_congr ?_ fun _ _ => rfl
    ext j
    rw [mem_children, mem_filter, mem_erase]
    exact ⟨fun h => ⟨⟨h.2.1, h.1⟩, h.2.2⟩, fun h => ⟨h.1.2, h.1.1, h.2⟩⟩
  have hcharged : ∑ j ∈ c.nodes.erase c.top, (c.held j + c.reserve j) ≤
      ∑ j ∈ c.nodes.erase c.top, c.charge j :=
    sum_le_sum fun j _ => held_add_reserve_le_charge j
  rw [sum_add_distrib] at hcharged
  rw [← add_sum_erase c.nodes c.reserve c.top_mem] at hreserved
  rw [← add_sum_erase c.nodes c.held c.top_mem]
  omega

/-! ### How charges change -/

section Change

variable {c' : Carving ι}

/-- On the same tree, with no larger quotas and holdings, charges are no larger. -/
theorem charge_le_of_le (hnodes : c'.nodes = c.nodes)
    (hchildren : ∀ k, c'.children k = c.children k)
    (hquota : ∀ k, c'.quota k ≤ c.quota k) (hheld : ∀ k, c'.held k ≤ c.held k) :
    ∀ k ∈ c.nodes, c'.charge k ≤ c.charge k := by
  rw [← hnodes]
  refine charge_le_of fun k _ => ?_
  rw [hchildren, charge_eq c k]
  exact max_le_max (hquota k) (Nat.add_le_add_right (hheld k) _)

theorem reserve_le_of_le (hchildren : ∀ k, c'.children k = c.children k)
    (hcharge : ∀ k ∈ c.nodes, c'.charge k ≤ c.charge k) (k : ι) :
    c'.reserve k ≤ c.reserve k := by
  rw [reserve, hchildren]
  exact sum_le_sum fun j hj => hcharge j (mem_children.mp hj).1

/-- A node that holds more, within its quota, changes no charge and no reserve. -/
theorem charge_grow (hnodes : c'.nodes = c.nodes)
    (hchildren : ∀ k, c'.children k = c.children k)
    (hquota : ∀ k, c'.quota k = c.quota k) (hheld : ∀ k, k ≠ i → c'.held k = c.held k)
    (hwithin : c.held i + c.reserve i ≤ c.quota i)
    (hfits : c'.held i + c.reserve i ≤ c.quota i) :
    ∀ k ∈ c.nodes, c'.charge k = c.charge k := by
  rw [← hnodes]
  refine charge_eq_of fun k _ => ?_
  rw [hchildren, ← reserve, charge_eq, hquota]
  by_cases hk : k = i
  · subst hk
    rw [max_eq_left hwithin, max_eq_left hfits]
  · rw [hheld k hk]

theorem reserve_of_charge (hchildren : ∀ k, c'.children k = c.children k)
    (hcharge : ∀ k ∈ c.nodes, c'.charge k = c.charge k) (k : ι) :
    c'.reserve k = c.reserve k := by
  rw [reserve, hchildren]
  exact sum_congr rfl fun j hj => hcharge j (mem_children.mp hj).1

/-- The reserve of a parent, one child's charge replaced. -/
theorem sum_update_child (hj : j ∈ c.children i) (new : ℕ) :
    ∑ k ∈ c.children i, update c.charge j new k + c.charge j = c.reserve i + new := by
  rw [sum_update_of_mem hj, reserve, ← add_sum_erase _ _ hj, erase_eq]
  omega

/-- A node with a larger quota, its parent within its own: only its charge changes. -/
theorem charge_raise (hnodes : c'.nodes = c.nodes)
    (hchildren : ∀ k, c'.children k = c.children k)
    (hi : i ∈ c.nodes) (htop : i ≠ c.top) (hquota : ∀ k, k ≠ i → c'.quota k = c.quota k)
    (hraise : c.quota i ≤ c'.quota i) (hheld : ∀ k, c'.held k = c.held k)
    (hfits : c.held (c.parent i) + c.reserve (c.parent i) +
      (max (c'.quota i) (c.held i + c.reserve i) - c.charge i) ≤ c.quota (c.parent i)) :
    ∀ k ∈ c.nodes, c'.charge k =
      update c.charge i (max (c'.quota i) (c.held i + c.reserve i)) k := by
  generalize hnew : max (c'.quota i) (c.held i + c.reserve i) = new at hfits
  have hchild : i ∈ c.children (c.parent i) := mem_children.mpr ⟨hi, htop, rfl⟩
  have hself : i ≠ c.parent i := by
    intro heq
    have hlt := c.rank_lt i hi htop
    rw [← heq] at hlt
    exact hlt.false
  rw [← hnodes]
  refine charge_eq_of fun k _ => ?_
  rw [hchildren, hheld]
  by_cases hk : k = i
  · subst hk
    have hnotin : k ∉ c.children k := fun hmem => hself (mem_children.mp hmem).2.2.symm
    rw [update_self, sum_update_of_notMem hnotin, ← reserve, hnew]
  · rw [update_of_ne hk, hquota k hk, charge_eq]
    by_cases hp : k = c.parent i
    · subst hp
      have hsum := sum_update_child hchild new
      rw [max_eq_left (by omega), max_eq_left (by omega)]
    · have hnotin : i ∉ c.children k := fun hmem => hp (mem_children.mp hmem).2.2.symm
      rw [sum_update_of_notMem hnotin, ← reserve]

/-- A new node `m` between `p` and some of its children `low`, that holds part of what
`p` held: no older charge changes, as long as `p` stays within its quota. -/
theorem charge_insert {m p : ι} {low : Finset ι} (hm : m ∉ c.nodes) (hp : p ∈ c.nodes)
    (hlow : low ⊆ c.children p) (hnodes : c'.nodes = insert m c.nodes)
    (hchildren : ∀ k, k ≠ m → k ≠ p → c'.children k = c.children k)
    (hchildrenNew : c'.children m = low)
    (hchildrenParent : c'.children p = insert m (c.children p \ low))
    (hquota : ∀ k, k ≠ m → c'.quota k = c.quota k)
    (hheld : ∀ k, k ≠ m → k ≠ p → c'.held k = c.held k)
    (hmoved : c'.held p + c'.held m = c.held p)
    (hfits : c'.held p + (c.reserve p - ∑ j ∈ low, c.charge j) +
      max (c'.quota m) (c'.held m + ∑ j ∈ low, c.charge j) ≤ c.quota p) :
    ∀ k ∈ c'.nodes, c'.charge k =
      update c.charge m (max (c'.quota m) (c'.held m + ∑ j ∈ low, c.charge j)) k := by
  generalize hnew : max (c'.quota m) (c'.held m + ∑ j ∈ low, c.charge j) = new at hfits
  have hnotin : ∀ k, m ∉ c.children k := fun k hmem => hm (mem_children.mp hmem).1
  have hsplit : c.reserve p = ∑ j ∈ c.children p \ low, c.charge j +
      ∑ j ∈ low, c.charge j :=
    (sum_sdiff hlow).symm
  refine charge_eq_of fun k hk => ?_
  by_cases hkm : k = m
  · subst hkm
    have hmlow : k ∉ low := fun hmem => hnotin p (hlow hmem)
    rw [update_self, hchildrenNew, sum_update_of_notMem hmlow, hnew]
  · rw [update_of_ne hkm, hquota k hkm, charge_eq]
    by_cases hkp : k = p
    · subst hkp
      have hmsdiff : m ∉ c.children k \ low := fun hmem =>
        hnotin k (mem_sdiff.mp hmem).1
      rw [hchildrenParent, sum_insert hmsdiff, update_self,
        sum_update_of_notMem hmsdiff]
      rw [max_eq_left (by omega), max_eq_left (by omega)]
    · rw [hchildren k hkm hkp, hheld k hkm hkp, sum_update_of_notMem (hnotin k),
        ← reserve]

/-- The reserves above a charge that changed, and the others. -/
theorem reserve_parent_of_update {new : ℕ} (hchildren : c'.children k = c.children k)
    (hcharge : ∀ j ∈ c.nodes, c'.charge j = update c.charge i new j)
    (hi : i ∈ c.children k) : c'.reserve k + c.charge i = c.reserve k + new := by
  rw [← sum_update_child hi new, reserve, hchildren]
  refine congrArg (· + c.charge i) (sum_congr rfl fun j hj => ?_)
  exact hcharge j (mem_children.mp hj).1

theorem reserve_of_update {new : ℕ} (hchildren : c'.children k = c.children k)
    (hcharge : ∀ j ∈ c.nodes, c'.charge j = update c.charge i new j)
    (hi : i ∉ c.children k) : c'.reserve k = c.reserve k := by
  rw [reserve, hchildren]
  refine sum_congr rfl fun j hj => ?_
  have hne : j ≠ i := fun heq => hi (heq ▸ hj)
  rw [hcharge j (mem_children.mp hj).1, update_of_ne hne]

/-- A new node's charge takes its children's place in its parent's reserve. -/
theorem reserve_insert {m p : ι} {low : Finset ι} {new : ℕ} (hm : m ∉ c.nodes)
    (hlow : low ⊆ c.children p)
    (hchildrenParent : c'.children p = insert m (c.children p \ low))
    (hnew : c'.charge m = new) (hcharge : ∀ j ∈ c.nodes, c'.charge j = c.charge j) :
    c'.reserve p + ∑ j ∈ low, c.charge j = c.reserve p + new := by
  have hmsdiff : m ∉ c.children p \ low := fun hmem =>
    hm (mem_children.mp (mem_sdiff.mp hmem).1).1
  have hsplit : ∑ j ∈ c.children p \ low, c.charge j + ∑ j ∈ low, c.charge j =
      c.reserve p :=
    sum_sdiff hlow
  have hkept : ∑ j ∈ c.children p \ low, c'.charge j =
      ∑ j ∈ c.children p \ low, c.charge j :=
    sum_congr rfl fun j hj => hcharge j (mem_children.mp (mem_sdiff.mp hj).1).1
  rw [reserve, hchildrenParent, sum_insert hmsdiff]
  omega

/-- A node gone, its children and what it held its parent's: no charge gets larger. -/
theorem charge_remove {p : ι} (hi : i ∈ c.nodes) (htop : i ≠ c.top)
    (hp : c.parent i = p)
    (hnodes : c'.nodes = c.nodes.erase i)
    (hchildren : ∀ k, k ≠ i → k ≠ p → c'.children k = c.children k)
    (hchildrenParent : c'.children p = (c.children p).erase i ∪ c.children i)
    (hquota : ∀ k, c'.quota k ≤ c.quota k) (hheld : ∀ k, k ≠ p → c'.held k ≤ c.held k)
    (hheldParent : c'.held p ≤ c.held p + c.held i) :
    ∀ k ∈ c'.nodes, c'.charge k ≤ c.charge k ∧
      c'.held k + c'.reserve k ≤ c.held k + c.reserve k := by
  have hchild : i ∈ c.children p := mem_children.mpr ⟨hi, htop, hp⟩
  have hsum : ∀ k ∈ c'.nodes, c'.held k + ∑ j ∈ c'.children k, c.charge j ≤
      c.held k + c.reserve k := by
    intro k hk
    have hki : k ≠ i := ne_of_mem_erase (hnodes ▸ hk)
    by_cases hkp : k = p
    · subst hkp
      have hdisjoint : Disjoint ((c.children k).erase i) (c.children i) := by
        refine disjoint_left.mpr fun j hj hj' => hki ?_
        exact (mem_children.mp (mem_of_mem_erase hj)).2.2.symm.trans
          (mem_children.mp hj').2.2
      have hgone := held_add_reserve_le_charge (c := c) i
      have hlower : ∑ j ∈ c.children i, c.charge j = c.reserve i := rfl
      rw [hchildrenParent, sum_union hdisjoint]
      have hreserve : c.charge i + ∑ j ∈ (c.children k).erase i, c.charge j =
          c.reserve k :=
        add_sum_erase _ _ hchild
      omega
    · rw [hchildren k hki hkp]
      exact Nat.add_le_add_right (hheld k hkp) _
  have hcharge : ∀ k ∈ c'.nodes, c'.charge k ≤ c.charge k := by
    refine charge_le_of fun k hk => ?_
    rw [charge_eq c k]
    exact max_le_max (hquota k) (hsum k hk)
  refine fun k hk => ⟨hcharge k hk, le_trans ?_ (hsum k hk)⟩
  exact Nat.add_le_add_left (sum_le_sum fun j hj => hcharge j (mem_children.mp hj).1) _

end Change

end Carving

end Redoubt
