import Redoubt.Dma.Subtrees

/-!
# Destruction

A subtree of budgets goes at once: the processes in it die, and what its quarantined
runs cost falls to its parent, which has just got back at least as much.
-/

namespace Redoubt.Dma

open Function Finset Option Memory

variable {m : Memory} {top : ℕ} {T : Budget} {within : List ℕ}

/-! ### The deaths -/

theorem die_tree (confirms : ℕ → Bool) (m : Memory) (pid : ℕ) :
    (die confirms m pid).tree = m.tree := by
  rw [die]
  split
  · rfl
  · exact (untouched_releaseAll _ m).tree

theorem die_accounts (confirms : ℕ → Bool) (m : Memory) (pid pid' : ℕ) :
    (die confirms m pid).accounts pid' = if pid' = pid then none
    else m.accounts pid' := by
  rw [die]
  split
  · next hnone =>
      split
      · next heq => exact heq ▸ hnone
      · rfl
  · have haccounts : (m.release confirms pid).accounts = m.accounts :=
      (untouched_releaseAll _ m).accounts
    change update (m.release confirms pid).accounts pid none pid' = _
    rw [haccounts, update_apply]

def Memory.deaths (confirms : ℕ → ℕ → Bool) (order : List ℕ) (m : Memory) : Memory :=
  order.foldl (fun m pid => die (confirms pid) m pid) m

theorem Kept.deaths {m : Memory} (h : Kept m) (confirms : ℕ → ℕ → Bool)
    (order : List ℕ) :
    Kept (m.deaths confirms order) := by
  induction order generalizing m with
  | nil => exact h
  | cons pid order ih => exact ih (h.die (confirms pid) pid)

theorem deaths_tree (confirms : ℕ → ℕ → Bool) (order : List ℕ) (m : Memory) :
    (m.deaths confirms order).tree = m.tree := by
  induction order generalizing m with
  | nil => rfl
  | cons pid order ih => exact (ih _).trans (die_tree (confirms pid) m pid)

theorem deaths_accounts (confirms : ℕ → ℕ → Bool) (order : List ℕ)
    (m : Memory) (pid : ℕ) :
    (m.deaths confirms order).accounts pid = if pid ∈ order then none
    else m.accounts pid := by
  induction order generalizing m with
  | nil => exact (if_neg List.not_mem_nil).symm
  | cons first order ih =>
    refine (ih _).trans ?_
    rw [die_accounts]
    by_cases heq : pid = first
    · rw [if_pos heq, ite_self, if_pos (heq ▸ List.mem_cons_self)]
    · rw [if_neg heq]
      exact if_congr (by rw [List.mem_cons, or_iff_right heq]) rfl rfl

/-! ### One entry -/

def owing (t : Tree) : Option Run → ℕ
  | some r => if t.owes r = true then r.npages else 0
  | none => 0

/-- What migration makes of a run. -/
def Tree.migrated (t : Tree) (parent : Option ℕ) (r : Run) : Run :=
  if t.owes r = true then { r with charged := parent } else r

/-- Used, with `n` more by the parent. -/
def paidBy (parent : Option ℕ) (n : ℕ) (used : ℕ → ℕ) (b : ℕ) : ℕ :=
  if parent = some b then used b + n else used b

theorem paidBy_zero (parent : Option ℕ) (used : ℕ → ℕ) :
    paidBy parent 0 used = used := by
  funext b
  rw [paidBy, add_zero, ite_self]

theorem paidBy_paidBy (parent : Option ℕ) (n k : ℕ) (used : ℕ → ℕ) :
    paidBy parent n (paidBy parent k used) = paidBy parent (k + n) used := by
  funext b
  rw [paidBy, paidBy, paidBy]
  split
  · exact add_assoc _ _ _
  · rfl

theorem migrateAt_eq {parent : Option ℕ} {p : ℕ × ℕ}
    (hroom : ∀ q, parent = some q → m.used q + owing m.tree (m.runs p) ≤ m.limit q) :
    migrateAt parent m p = { m with
      runs := update m.runs p ((m.runs p).map (m.tree.migrated parent))
      used := paidBy parent (owing m.tree (m.runs p)) m.used } := by
  cases hentry : m.runs p with
  | none =>
    have hruns : update m.runs p none = m.runs := by rw [← hentry, update_eq_self]
    rw [migrateAt, hentry, map_none, hruns, owing, paidBy_zero]
  | some r =>
    rw [migrateAt, hentry, map_some, Tree.migrated]
    by_cases howes : m.tree.owes r = true
    · rw [hentry, owing, if_pos howes] at hroom
      rw [owing, if_pos howes, if_pos howes]
      dsimp only
      rw [if_pos howes]
      cases parent with
      | none =>
        have hused : paidBy none r.npages m.used = m.used :=
          funext fun b => if_neg nofun
        rfl
      | some q =>
        have hused : paidBy (some q) r.npages m.used =
            update m.used q (m.used q + r.npages) := by
          funext b
          rw [update_apply, paidBy]
          by_cases heq : b = q
          · rw [if_pos heq, if_pos (heq ▸ rfl), heq]
          · rw [if_neg heq, if_neg fun hsome => heq (some.inj hsome).symm]
        have hfits : r.npages ≤ m.freePages q := by
          have hq := hroom q rfl
          rw [freePages, Pages.freePages]
          exact Nat.le_sub_of_add_le (Nat.add_comm _ _ ▸ hq)
        dsimp only
        rw [charge, Pages.charge_of_le hfits, hused]
        rfl
    · have hruns : update m.runs p (some r) = m.runs := by rw [← hentry, update_eq_self]
      rw [owing, if_neg howes, if_neg howes, paidBy_zero, hruns]
      exact if_neg howes

/-! ### All of them -/

theorem migrateAll_eq {parent : Option ℕ} {places : List (ℕ × ℕ)}
    (hnodup : places.Nodup) {m : Memory}
    (hroom : ∀ q, parent = some q →
      m.used q + (places.map fun p => owing m.tree (m.runs p)).sum ≤ m.limit q) :
    places.foldl (migrateAt parent) m = { m with
      runs := fun p => if p ∈ places then (m.runs p).map (m.tree.migrated parent)
      else m.runs p
      used := paidBy parent (places.map fun p => owing m.tree (m.runs p)).sum
        m.used } := by
  induction places generalizing m with
  | nil =>
    rw [List.map_nil, List.sum_nil, paidBy_zero]
    rfl
  | cons p places ih =>
    obtain ⟨hp, hnodup⟩ := List.nodup_cons.mp hnodup
    rw [List.map_cons, List.sum_cons] at hroom ⊢
    have hfirst : ∀ q, parent = some q → m.used q + owing m.tree (m.runs p) ≤
        m.limit q := by
      intro q hq
      have hall := hroom q hq
      omega
    -- the rest is as it was
    have hrest (entry : Option Run) :
        (places.map fun p' => owing m.tree (update m.runs p entry p')) =
        places.map fun p' => owing m.tree (m.runs p') := by
      refine List.map_congr_left fun p' hp' => ?_
      have hne : p' ≠ p := fun heq => hp (heq ▸ hp')
      rw [update_of_ne hne]
    rw [List.foldl_cons, migrateAt_eq hfirst, ih hnodup]
    · dsimp only
      rw [hrest, paidBy_paidBy]
      congr 1
      funext p'
      by_cases heq : p' = p
      · subst heq
        rw [update_self, if_neg hp, if_pos List.mem_cons_self]
      · rw [update_of_ne heq]
        exact if_congr (by rw [List.mem_cons, or_iff_right heq]) rfl rfl
    · intro q hq
      have hall := hroom q hq
      change paidBy parent _ m.used q +
        (places.map fun p' => owing m.tree (update m.runs p _ p')).sum ≤ m.limit q
      rw [hrest, paidBy, if_pos hq]
      omega

theorem nodup_places (n : ℕ) : (places (List.range n)).Nodup :=
  List.nodup_range.product List.nodup_range

theorem toFinset_places (n : ℕ) : (places (List.range n)).toFinset = entries n := by
  ext p
  rw [List.mem_toFinset, mem_places, entries, mem_product, mem_range, mem_range,
    List.mem_range]

/-! ### The charges after it -/

/-- A run charged to a budget of the subtree is charged to the parent instead. -/
def moved (within : List ℕ) (parent : Option ℕ) (r : Run) : Run :=
  if r.charged.any (· ∈ within) = true then { r with charged := parent } else r

/-- What the subtree's budgets pay for an entry. -/
def costWithin (within : List ℕ) : Option Run → ℕ
  | some r => if r.charged.any (· ∈ within) = true then r.npages else 0
  | none => 0

theorem sum_costOf (within : List ℕ) (entry : Option Run) :
    ∑ b ∈ within.toFinset, costOf b entry = costWithin within entry := by
  cases entry with
  | none => exact sum_const_zero
  | some r =>
    rw [costWithin]
    simp only [costOf]
    cases hcharged : r.charged with
    | none => exact sum_eq_zero fun b _ => if_neg (some_ne_none b).symm
    | some c =>
      have hswap : ∀ b ∈ within.toFinset,
          (if some c = some b then r.npages else 0) = if c = b then r.npages
            else 0 := fun b _ =>
        if_congr ⟨some.inj, fun heq => heq ▸ rfl⟩ rfl rfl
      rw [sum_congr rfl hswap, sum_ite_eq]
      exact if_congr (List.mem_toFinset.trans decide_eq_true_iff.symm) rfl rfl

theorem owed_eq (m : Memory) (within : List ℕ) :
    m.owed within = ∑ p ∈ entries m.devices, costWithin within (m.runs p) := by
  calc
    m.owed within = ∑ p ∈ entries m.devices, ∑ b ∈ within.toFinset, costOf b
      (m.runs p) := sum_comm
    _ = _ := sum_congr rfl fun p _ => sum_costOf within (m.runs p)

theorem costOf_moved {parent : Option ℕ} {b : ℕ} (hb : b ∉ within)
    (entry : Option Run) :
    costOf b (entry.map (moved within parent)) =
      costOf b entry + if parent = some b then costWithin within entry else 0 := by
  cases entry with
  | none =>
    rw [costWithin, ite_self]
    rfl
  | some r =>
    rw [map_some, moved, costWithin]
    by_cases hin : r.charged.any (· ∈ within) = true
    · obtain ⟨c, hc, hmem⟩ := (any_eq_true _ _).mp hin
      have hne : c ≠ b := fun heq => hb (heq ▸ of_decide_eq_true hmem)
      rw [if_pos hin, if_pos hin, costOf, costOf, hc, if_neg fun hsome =>
        hne (some.inj hsome)]
      exact (zero_add _).symm
    · rw [if_neg hin, if_neg hin, ite_self, add_zero]

/-- Used, with the top's carve given back and what is owed charged. -/
def settled (T : Budget) (owed : ℕ) (used : ℕ → ℕ) : ℕ → ℕ :=
  paidBy T.parent owed fun b => if T.parent = some b then
    used b - (budgetPages + T.limit) else used b

/-- The subtree is gone, and the parent pays for what is left of it. -/
def Memory.without (m : Memory) (within : List ℕ) (T : Budget) : Memory :=
  { m with
    tree := m.tree.cut within
    runs := fun p => (m.runs p).map (moved within T.parent)
    used := settled T (m.owed within) m.used }

section Without

variable (h : Kept m) (hw : Subtree m.tree top within)
    (hT : m.tree.budgets top = some T)
  (hquiet : ∀ pid a, m.accounts pid = some a → a.budget ∉ within)

include h hw hT in
theorem Kept.paid_without {b : ℕ} {B : Budget} (hb : b ∉ within)
    (hB : m.tree.budgets b = some B) :
    settled T (m.owed within) m.used b =
        m.elsewhere b + (m.without within T).charges b + (m.tree.cut within).carved b ∧
      settled T (m.owed within) m.used b ≤ B.limit := by
  obtain ⟨hused, hle⟩ := h.paid b B hB
  have hcharges : (m.without within T).charges b =
      m.charges b + if T.parent = some b then m.owed within else 0 := by
    calc
      (m.without within T).charges b =
          ∑ p ∈ entries m.devices, costOf b ((m.runs p).map (moved within T.parent)) :=
            rfl
      _ = ∑ p ∈ entries m.devices, (costOf b (m.runs p) + if T.parent = some b then
          costWithin within (m.runs p) else 0) :=
        sum_congr rfl fun p _ => costOf_moved hb (m.runs p)
      _ = m.charges b + ∑ p ∈ entries m.devices, if T.parent = some b then
          costWithin within (m.runs p) else 0 :=
        sum_add_distrib
      _ = _ := by
        rw [owed_eq]
        split
        · rfl
        · rw [sum_const_zero]
  rw [hcharges, settled, paidBy]
  by_cases hparent : T.parent = some b
  · have hcarved := hw.carved_parent h.tree hT hparent
    have howed := h.owed_le hw hT
    rw [if_pos hparent, if_pos hparent, if_pos hparent]
    omega
  · rw [if_neg hparent, if_neg hparent, if_neg hparent, hw.carved_other hT hb hparent]
    exact ⟨hused, hle⟩

include h hw hT hquiet in
theorem Kept.without : Kept (m.without within T) := by
  have hrun {p : ℕ × ℕ} {r : Run} (hp : (m.without within T).runs p = some r) :
      ∃ s, m.runs p = some s ∧ moved within T.parent s = r := map_eq_some_iff.mp hp
  have hsame (s : Run) : (moved within T.parent s).start = s.start ∧
      (moved within T.parent s).npages = s.npages ∧
      (moved within T.parent s).origin = s.origin ∧
      (moved within T.parent s).quarantined = s.quarantined := by
    rw [moved]
    split <;> exact ⟨rfl, rfl, rfl, rfl⟩
  have hhas {s : Run} {f : ℕ} : (moved within T.parent s).Has f ↔ s.Has f := by
    rw [Run.Has, Run.Has, (hsame s).1, (hsame s).2.1]
  exact {
    tree := hw.sound_cut h.tree
    placed := by
      intro p r hp
      obtain ⟨s, hs, rfl⟩ := hrun hp
      rw [(hsame s).2.1, (hsame s).2.2.1]
      exact h.placed p s hs
    apart := by
      intro p q r r' f hp hq hr hr'
      obtain ⟨s, hs, rfl⟩ := hrun hp
      obtain ⟨s', hs', rfl⟩ := hrun hq
      exact h.apart p q s s' f hs hs' (hhas.mp hr) (hhas.mp hr')
    held := by
      intro f
      refine (h.held f).trans ⟨?_, ?_⟩
      · rintro ⟨p, s, hs, hf⟩
        exact ⟨p, moved within T.parent s, map_eq_some_iff.mpr ⟨s, hs, rfl⟩,
          hhas.mpr hf⟩
      · rintro ⟨p, r, hp, hf⟩
        obtain ⟨s, hs, rfl⟩ := hrun hp
        exact ⟨p, s, hs, hhas.mp hf⟩
    accounts := by
      intro pid a ha
      obtain ⟨hpid, hbudget, hslots⟩ := h.accounts pid a ha
      exact ⟨hpid, (congrArg isSome (cut_old (hquiet pid a ha))).trans hbudget, hslots⟩
    live := by
      intro p r hp hr
      obtain ⟨s, hs, rfl⟩ := hrun hp
      rw [(hsame s).2.2.2] at hr
      obtain ⟨pid, a, hholder, ha, hcharged, horigin⟩ := h.live p s hs hr
      have hstays : moved within T.parent s = s := by
        rw [moved, hcharged, any_some, decide_eq_false (hquiet pid a ha)]
        exact if_neg Bool.false_ne_true
      rw [hstays]
      exact ⟨pid, a, hholder, ha, hcharged, horigin⟩
    survivor := by
      intro p r hp
      obtain ⟨s, hs, rfl⟩ := hrun hp
      have hcharged : (moved within T.parent s).charged =
          if s.charged.any (· ∈ within) = true then T.parent else s.charged := by
        rw [moved]
        split <;> rfl
      rw [(hsame s).2.2.1, hcharged]
      exact hw.survivor h.tree hT (h.survivor p s hs)
    paid := fun b B hB => h.paid_without hw hT (cut_budgets hB).1 (cut_budgets hB).2
    unrefused := h.unrefused }

include h hw hquiet in
/-- Its runs are all quarantined by then. -/
theorem Kept.owes_eq (hdying : m.tree.dying = within) {p : ℕ × ℕ} {r : Run}
    (hp : m.runs p = some r) :
    m.tree.owes r = r.charged.any (· ∈ within) := by
  rw [Tree.owes, hdying]
  cases hcharged : r.charged with
  | none => exact Bool.and_false _
  | some b =>
    rw [any_some, any_some]
    by_cases hb : b ∈ within
    · have hquarantined : r.quarantined = true := by
        by_contra hlive
        obtain ⟨pid, a, -, ha, hbudget, -⟩ :=
          h.live p r hp (Bool.eq_false_iff.mpr hlive)
        exact hquiet pid a ha (some.inj (hcharged.symm.trans hbudget) ▸ hb)
      rw [hquarantined, hw.live b hb]
      rfl
    · rw [decide_eq_false hb, Bool.and_false, Bool.and_false]

include hT in
theorem returnCarve_eq : m.returnCarve top =
    { m with
      used := fun b => if T.parent = some b then m.used b - (budgetPages + T.limit)
      else m.used b } := by
  rw [returnCarve, hT, bind_some]
  cases hparent : T.parent with
  | none =>
    have hused : (fun b => if none = some b then m.used b - (budgetPages + T.limit)
        else m.used b) = m.used :=
      funext fun b => if_neg nofun
    rw [hused]
  | some q =>
    have hused : (fun b => if some q = some b then m.used b - (budgetPages + T.limit)
        else m.used b) =
        update m.used q (m.used q - (budgetPages + m.limit top)) := by
      funext b
      rw [update_apply, limit_eq hT]
      by_cases heq : b = q
      · rw [if_pos heq, if_pos (heq ▸ rfl), heq]
      · rw [if_neg heq, if_neg fun hsome => heq (some.inj hsome).symm]
    rw [hused]
    rfl

include h hw hT hquiet in
theorem Kept.destroyMarked_eq (hdying : m.tree.dying = within) :
    m.destroyMarked top = m.without within T := by
  have hentry (p : ℕ × ℕ) : (m.runs p).map (m.tree.migrated T.parent) =
      (m.runs p).map (moved within T.parent) ∧
      owing m.tree (m.runs p) = costWithin within (m.runs p) := by
    cases hp : m.runs p with
    | none => exact ⟨rfl, rfl⟩
    | some r =>
      rw [map_some, map_some, Tree.migrated, moved, owing, costWithin,
        h.owes_eq hw hquiet hdying hp]
      exact ⟨rfl, rfl⟩
  have hsum : ((Memory.places (List.range m.devices)).map fun p =>
      owing m.tree (m.runs p)).sum = m.owed within := by
    rw [owed_eq, ← toFinset_places, List.sum_toFinset _ (nodup_places m.devices)]
    exact congrArg List.sum (List.map_congr_left fun p _ => (hentry p).2)
  have hparent : (m.tree.budgets top).bind Budget.parent = T.parent := by
    rw [hT, bind_some]
  have howed := h.owed_le hw hT
  rw [Memory.destroyMarked, hparent, returnCarve_eq hT, Memory.migrateQuarantine]
  dsimp only
  rw [migrateAll_eq (nodup_places _)]
  · dsimp only
    rw [hsum, Memory.without, Memory.freeDying, hdying]
    congr 1
    funext p
    dsimp only
    split
    · exact (hentry p).1
    · next hnot =>
        cases hp : m.runs p with
        | none => rfl
        | some r =>
          have hin := mem_product.mp (h.placed p r hp).1
          exact absurd (mem_places.mpr ⟨List.mem_range.mpr (mem_range.mp hin.1),
            mem_range.mp hin.2⟩) hnot
  · intro q hq
    dsimp only
    rw [hsum, if_pos hq]
    obtain ⟨Q, hQ, -⟩ := h.tree.up top T q hT hq
    have hpaid := h.paid q Q hQ
    have hcarved := hw.carved_parent h.tree hT hq
    have hlimit : m.limit q = Q.limit := limit_eq hQ
    change _ ≤ m.limit q
    omega

end Without

/-! ### Destruction -/

/-- The order of the deaths: the caller after the other processes of the subtree. -/
def Memory.deathOrder (m : Memory) (top : ℕ) (caller : Option ℕ)
    (also : List ℕ) : List ℕ :=
  (m.victims top).filter (fun pid => caller ≠ some pid) ++
    (m.victims top).filter (fun pid => caller = some pid) ++ also

theorem mem_deathOrder {caller : Option ℕ} {also : List ℕ} {pid : ℕ}
    (hpid : pid ∈ m.victims top) :
    pid ∈ m.deathOrder top caller also := by
  refine List.mem_append_left _ (List.mem_append.mpr ?_)
  by_cases heq : caller = some pid
  · exact .inr (List.mem_filter.mpr ⟨hpid, decide_eq_true heq⟩)
  · exact .inl (List.mem_filter.mpr ⟨hpid, decide_eq_true heq⟩)

theorem Kept.markDying (h : Kept m) (top : ℕ) : Kept (m.markDying top) :=
  ⟨⟨h.tree.known, h.tree.up, h.tree.shallow, h.tree.root, h.tree.parents, h.tree.past,
    h.tree.orphan⟩, h.placed,
    h.apart, h.held, h.accounts, h.live, fun p r hp =>
      Survivor.congr (t := m.tree) (m.markDying top).tree
    (fun _ => rfl) (fun _ => rfl) (h.survivor p r hp), h.paid, h.unrefused⟩

/-- What a destruction leaves, after the deaths. -/
theorem destroy_eq (h : Kept m) (hlinked : m.tree.Linked)
    (hT : m.tree.budgets top = some T) (caller : Option ℕ)
    (also : List ℕ) (confirms : ℕ → ℕ → Bool) :
    ∃ dead, dead = (m.markDying top).deaths confirms ((m.markDying top).deathOrder top
      caller also) ∧ Kept dead ∧
      dead.tree = (m.markDying top).tree ∧ m.destroy top caller also confirms =
        dead.without (Forest.preorder m.tree.children maxDepth top) T ∧
      Kept (dead.without (Forest.preorder m.tree.children maxDepth top) T) := by
  have hmarked := h.markDying top
  have hsub := h.tree.subtree hlinked hT
  generalize hwithin : Forest.preorder m.tree.children maxDepth top = within at hsub ⊢
  have hkept := hmarked.deaths confirms ((m.markDying top).deathOrder top caller also)
  have htree := deaths_tree confirms ((m.markDying top).deathOrder top caller also)
    (m.markDying top)
  have haccounts := deaths_accounts confirms
    ((m.markDying top).deathOrder top caller also) (m.markDying top)
  have hdestroy : m.destroy top caller also confirms =
      ((m.markDying top).deaths confirms
        ((m.markDying top).deathOrder top caller also)).destroyMarked top :=
    if_pos (isSome_iff_exists.mpr ⟨T, hT⟩)
  generalize hdead : (m.markDying top).deaths confirms ((m.markDying top).deathOrder top
    caller also) = dead
    at hkept htree haccounts hdestroy
  have hbudgets : dead.tree.budgets = m.tree.budgets := by
    rw [htree]
    rfl
  have hdying : dead.tree.dying = within := by
    rw [htree]
    exact hwithin
  have hsub' : Subtree dead.tree top within := by
    refine ⟨hsub.top_mem, ?_, ?_, ?_, ?_⟩
    · rw [hbudgets]
      exact hsub.live
    · rw [hbudgets]
      exact hsub.down
    · rw [hbudgets]
      exact hsub.up
    · rw [hbudgets]
      exact hsub.deep
  have hT' : dead.tree.budgets top = some T := by
    rw [hbudgets]
    exact hT
  have hquiet (pid : ℕ) (a : Account) (ha : dead.accounts pid = some a) :
      a.budget ∉ within := by
    intro hin
    rw [haccounts] at ha
    split at ha
    · exact nomatch ha
    · next hnot =>
        have haccount : m.accounts pid = some a := ha
        refine hnot
          (mem_deathOrder
            (List.mem_filter.mpr
              ⟨List.mem_range.mpr (h.accounts pid a haccount).1, ?_⟩))
        refine (any_eq_true _ _).mpr
          ⟨a, haccount, Bool.or_eq_true_iff.mpr (.inr (decide_eq_true ?_))⟩
        change a.budget ∈ Forest.preorder m.tree.children maxDepth top
        rw [hwithin]
        exact hin
  exact ⟨dead, rfl, hkept, htree,
    hdestroy.trans (hkept.destroyMarked_eq hsub' hT' hquiet hdying),
    hkept.without hsub' hT' hquiet⟩

theorem Kept.destroy (h : Kept m) (hlinked : m.tree.Linked) (top : ℕ)
    (caller : Option ℕ) (also : List ℕ)
    (confirms : ℕ → ℕ → Bool) : Kept (m.destroy top caller also confirms) := by
  cases hT : m.tree.budgets top with
  | none =>
    rw [Memory.destroy, hT]
    exact h
  | some T =>
    obtain ⟨dead, -, -, -, heq, hkept⟩ := destroy_eq h hlinked hT caller also confirms
    rw [heq]
    exact hkept

theorem destroy_linked (h : Kept m) (hlinked : m.tree.Linked) (top : ℕ)
    (caller : Option ℕ) (also : List ℕ)
    (confirms : ℕ → ℕ → Bool) : (m.destroy top caller also confirms).tree.Linked := by
  cases hT : m.tree.budgets top with
  | none =>
    rw [destroy, hT]
    exact hlinked
  | some T =>
    obtain ⟨dead, -, -, htree, heq, -⟩ := destroy_eq h hlinked hT caller also confirms
    rw [heq]
    change (dead.tree.cut _).Linked
    rw [htree]
    refine (h.tree.subtree hlinked hT).linked_cut hlinked hT (fun q hq => ?_)
      fun b hb => ?_
    · rw [hT, bind_some, hq]
      exact update_self _ _ _
    · rw [hT, bind_some]
      cases hparent : T.parent with
      | none => rfl
      | some q =>
        exact update_of_ne (fun hbq => hb (hparent.trans (congrArg some hbq.symm))) _ _

end Redoubt.Dma
