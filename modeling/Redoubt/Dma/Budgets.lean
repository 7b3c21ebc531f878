import Redoubt.Dma.Deaths

/-!
# Budgets

A budget is created under a live one, which pays for it out of what it has free.
-/

namespace Redoubt.Dma

open Function Finset Option

variable {m : Memory}

/-- What a budget has used changed as what is charged to it elsewhere did. -/
theorem Kept.repaid (h : Kept m) {b used elsewhere : ℕ}
    (hpaid : ∀ B, m.tree.budgets b = some B →
      used = elsewhere + m.charges b + m.tree.carved b ∧ used ≤ B.limit) :
    Kept { m with
      used := update m.used b used, elsewhere := update m.elsewhere b elsewhere } := by
  refine ⟨h.tree, h.placed, h.apart, h.held, h.accounts, h.live, h.survivor,
    fun c C hC => ?_, h.unrefused⟩
  change update m.used b used c = update m.elsewhere b elsewhere c + m.charges c +
    m.tree.carved c ∧
    update m.used b used c ≤ C.limit
  by_cases heq : c = b
  · subst heq
    rw [update_self, update_self]
    exact hpaid C hC
  · rw [update_of_ne heq, update_of_ne heq]
    exact h.paid c C hC

theorem Kept.chargeElsewhere (h : Kept m) (b n : ℕ) : Kept (m.chargeElsewhere b n) := by
  rw [Memory.chargeElsewhere]
  split
  · next m' hcharge =>
      obtain ⟨hfits, rfl⟩ := charge_spec hcharge
      refine h.repaid fun B hB => ?_
      have hpaid := h.paid b B hB
      rw [freePages_eq hB] at hfits
      change m.used b + n = m.elsewhere b + n + _ + _ ∧ _
      omega
  · exact h

theorem Kept.unchargeElsewhere (h : Kept m) (b n : ℕ) :
    Kept (m.unchargeElsewhere b n) := by
  rw [Memory.unchargeElsewhere]
  split
  · refine h.repaid fun B hB => ?_
    have hpaid := h.paid b B hB
    change m.used b - n = _ ∧ m.used b - n ≤ _
    omega
  · exact h

/-! ### Creation -/

section Create

variable {parent pages : ℕ} {P : Budget}

/-- The tree with one more budget. -/
def Tree.grown (t : Tree) (parent pages : ℕ) (P : Budget) : Tree :=
  { t with
    budgets := update t.budgets t.nextId (some ⟨some parent, P.depth + 1, pages⟩)
    children := update t.children parent (t.nextId :: t.children parent)
    parents := update t.parents t.nextId (some parent)
    nextId := t.nextId + 1 }

variable {t : Tree}

theorem grown_budgets {b : ℕ} {B : Budget}
    (hB : (t.grown parent pages P).budgets b = some B) :
    b = t.nextId ∧ B = ⟨some parent, P.depth + 1, pages⟩ ∨ b ≠ t.nextId ∧
      t.budgets b = some B := by
  change update t.budgets t.nextId _ b = some B at hB
  rw [update_apply] at hB
  split at hB
  · next heq => exact .inl ⟨heq, (some.inj hB).symm⟩
  · next hne => exact .inr ⟨hne, hB⟩

theorem Tree.Sound.old_ne (h : t.Sound) {b : ℕ} {B : Budget}
    (hB : t.budgets b = some B) : b ≠ t.nextId :=
  (h.known b B hB).ne

theorem Tree.Sound.grown_old (h : t.Sound) {b : ℕ} {B : Budget}
    (hB : t.budgets b = some B) :
    (t.grown parent pages P).budgets b = some B :=
  (update_of_ne (h.old_ne hB) _ _).trans hB

theorem Tree.Sound.grown (h : t.Sound) (hP : t.budgets parent = some P)
    (hdepth : P.depth + 1 < maxDepth) :
    (t.grown parent pages P).Sound := by
  have hparent := h.known parent P hP
  exact {
    known := by
      intro b B hB
      rcases grown_budgets hB with ⟨rfl, -⟩ | ⟨-, hB⟩
      · exact Nat.lt_succ_self _
      · exact Nat.lt_succ_of_lt (h.known b B hB)
    up := by
      intro b B p hB hp
      rcases grown_budgets hB with ⟨-, rfl⟩ | ⟨-, hB⟩
      · cases hp
        exact ⟨P, h.grown_old hP, rfl⟩
      · obtain ⟨Q, hQ, hlevel⟩ := h.up b B p hB hp
        exact ⟨Q, h.grown_old hQ, hlevel⟩
    shallow := by
      intro b B hB
      rcases grown_budgets hB with ⟨-, rfl⟩ | ⟨-, hB⟩
      · exact hdepth
      · exact h.shallow b B hB
    root := by
      intro b B hB hnone
      rcases grown_budgets hB with ⟨-, rfl⟩ | ⟨-, hB⟩
      · exact nomatch hnone
      · exact h.root b B hB hnone
    parents := by
      intro b B hB
      rcases grown_budgets hB with ⟨rfl, rfl⟩ | ⟨hne, hB⟩
      · exact update_self _ _ _
      · exact (update_of_ne hne _ _).trans (h.parents b B hB)
    past := by
      intro b p hp
      change update t.parents t.nextId (some parent) b = some p at hp
      rw [update_apply] at hp
      split at hp
      · next heq =>
          cases hp
          exact ⟨heq ▸ Nat.lt_succ_self _, Nat.lt_succ_of_lt hparent⟩
      · exact ⟨Nat.lt_succ_of_lt (h.past b p hp).1, Nat.lt_succ_of_lt (h.past b p hp).2⟩
    orphan := by
      intro b hb hnone
      change update t.parents t.nextId (some parent) b = none at hnone
      rw [update_apply] at hnone
      split at hnone
      · exact nomatch hnone
      · next hne => exact h.orphan b (lt_of_le_of_ne (Nat.le_of_lt_succ hb) hne) hnone }

theorem Tree.Linked.grown (h : t.Linked) (hsound : t.Sound)
    (hP : t.budgets parent = some P) :
    (t.grown parent pages P).Linked := by
  have hfresh (b : ℕ) : t.nextId ∉ t.children b := by
    intro hmem
    obtain ⟨C, hC, -⟩ := (h.children b t.nextId).mp hmem
    exact hsound.old_ne hC rfl
  have hchildren (b c : ℕ) : c ∈ (t.grown parent pages P).children b ↔
      c = t.nextId ∧ b = parent ∨ c ∈ t.children b := by
    change c ∈ update t.children parent (t.nextId :: t.children parent) b ↔ _
    by_cases heq : b = parent
    · subst heq
      rw [update_self, List.mem_cons, and_iff_left rfl]
    · rw [update_of_ne heq]
      exact ⟨.inr, fun hor => hor.resolve_left fun hand => heq hand.2⟩
  exact { h with
    children := by
      intro b c
      rw [hchildren, h.children]
      constructor
      · rintro (⟨rfl, rfl⟩ | ⟨C, hC, hb⟩)
        · exact ⟨_, update_self _ _ _, rfl⟩
        · exact ⟨C, hsound.grown_old hC, hb⟩
      · intro ⟨C, hC, hb⟩
        rcases grown_budgets hC with ⟨rfl, rfl⟩ | ⟨-, hC⟩
        · exact .inl ⟨rfl, (some.inj hb).symm⟩
        · exact .inr ⟨C, hC, hb⟩
    once := by
      intro b
      change (update t.children parent (t.nextId :: t.children parent) b).Nodup
      rw [update_apply]
      split
      · exact List.nodup_cons.mpr ⟨hfresh parent, h.once parent⟩
      · exact h.once b }

/-- The parent pays for it, and nobody else. -/
theorem grown_carved (b : ℕ) :
    (t.grown parent pages P).carved b = t.carved b + if b = parent then
      budgetPages + pages else 0 := by
  have hold : ∀ c ∈ range t.nextId, carveOf b ((t.grown parent pages P).budgets c) =
      carveOf b (t.budgets c) := by
    intro c hc
    have hne : c ≠ t.nextId := (mem_range.mp hc).ne
    exact congrArg (carveOf b) (update_of_ne hne _ _)
  have hnew : carveOf b ((t.grown parent pages P).budgets t.nextId) = if b = parent then
      budgetPages + pages else 0 := by
    change carveOf b (update t.budgets t.nextId _ t.nextId) = _
    rw [update_self]
    exact if_congr ⟨fun heq => (some.inj heq).symm, fun heq => heq ▸ rfl⟩ rfl rfl
  calc
    (t.grown parent pages P).carved b =
        ∑ c ∈ range (t.nextId + 1), carveOf b ((t.grown parent pages P).budgets c) :=
          rfl
    _ = _ := by rw [sum_range_succ, sum_congr rfl hold, hnew]; rfl

/-- A budget not yet made has carved nothing. -/
theorem Tree.Sound.carved_nextId (h : t.Sound) : t.carved t.nextId = 0 := by
  refine sum_eq_zero fun c _ => ?_
  cases hC : t.budgets c with
  | none => rfl
  | some C =>
    refine if_neg fun hparent => ?_
    obtain ⟨Q, hQ, -⟩ := h.up c C t.nextId hC hparent
    exact h.old_ne hQ rfl

theorem Survivor.grown (h : t.Sound) {b : ℕ} {o : Option ℕ} (hb : b < t.nextId)
    (hs : Survivor t b o) :
    Survivor (t.grown parent pages P) b o := by
  have hbudgets {c : ℕ} (hc : c < t.nextId) : (t.grown parent pages P).budgets c =
      t.budgets c := update_of_ne hc.ne _ _
  have hparents {c : ℕ} (hc : c < t.nextId) : (t.grown parent pages P).parents c =
      t.parents c := update_of_ne hc.ne _ _
  induction hs with
  | here hlive => exact .here (hbudgets hb ▸ hlive)
  | up hgone hup _ ih =>
    exact .up ((hbudgets hb).trans hgone) ((hparents hb).trans hup)
      (ih (h.past _ _ hup).2)
  | gone hgone hup => exact .gone ((hbudgets hb).trans hgone) ((hparents hb).trans hup)

/-- A budget not yet made pays for no run. -/
theorem Kept.charges_nextId (h : Kept m) : m.charges m.tree.nextId = 0 := by
  refine sum_eq_zero fun p _ => ?_
  cases hp : m.runs p with
  | none => rfl
  | some r =>
    refine if_neg fun hcharged => ?_
    obtain ⟨B, hB⟩ := isSome_iff_exists.mp ((h.survivor p r hp).live hcharged)
    exact h.tree.old_ne hB rfl

theorem Kept.createBudget (h : Kept m) (parent pages : ℕ) :
    Kept (m.createBudget parent pages) := by
  rw [Memory.createBudget]
  split
  · exact h
  · next P hP =>
      split
      · next hroom =>
          have hnew := h.tree.old_ne hP
          exact { h with
            tree := h.tree.grown hP hroom.1
            placed := fun p r hp => ⟨(h.placed p r hp).1, (h.placed p r hp).2.1,
              Nat.lt_succ_of_lt (h.placed p r hp).2.2⟩
            accounts := by
              intro pid a ha
              obtain ⟨hpid, hbudget, hslots⟩ := h.accounts pid a ha
              obtain ⟨A, hA⟩ := isSome_iff_exists.mp hbudget
              exact ⟨hpid, isSome_iff_exists.mpr ⟨A, h.tree.grown_old hA⟩, hslots⟩
            survivor := fun p r hp => (h.survivor p r hp).grown h.tree
              (h.placed p r hp).2.2
            paid := by
              intro b B hB
              have hcarved : (m.tree.grown parent pages P).carved b = _ :=
                grown_carved b
              change update (update m.used parent _) m.tree.nextId 0 b =
                update m.elsewhere m.tree.nextId 0 b +
                m.charges b + (m.tree.grown parent pages P).carved b ∧
                update (update m.used parent _) m.tree.nextId 0 b ≤ _
              rw [hcarved]
              rcases grown_budgets hB with ⟨rfl, rfl⟩ | ⟨hne, hold⟩
              · rw [update_self, update_self, h.charges_nextId, h.tree.carved_nextId,
                  if_neg hnew.symm]
                exact ⟨rfl, Nat.zero_le _⟩
              · have hpaid := h.paid b B hold
                rw [update_of_ne hne, update_of_ne hne, update_apply]
                split
                · next heq =>
                    subst heq
                    have hfits := hroom.2
                    rw [freePages_eq hold] at hfits
                    omega
                · exact hpaid }
      · exact h

theorem createBudget_linked (h : Kept m) (hlinked : m.tree.Linked) :
    (m.createBudget parent pages).tree.Linked := by
  rw [Memory.createBudget]
  split
  · exact hlinked
  · next P hP =>
      split
      · exact hlinked.grown h.tree hP
      · exact hlinked

end Create

end Redoubt.Dma
