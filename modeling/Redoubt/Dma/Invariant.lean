import Redoubt.Dma.State

/-!
# What holds between any two steps

Runs share no frame, the pool holds the frames of the runs, a live process holds each
live run, and each run's pages are part of what one budget has used.
-/

namespace Redoubt.Dma

open Function Finset

/-! ### Charges -/

/-- What a budget was carved from its parent `b`. -/
def carveOf (b : ℕ) : Option Budget → ℕ
  | some c => if c.parent = some b then budgetPages + c.limit else 0
  | none => 0

def Tree.carved (t : Tree) (b : ℕ) : ℕ := ∑ c ∈ range t.nextId, carveOf b (t.budgets c)

/-- What a run costs the budget `b`. -/
def costOf (b : ℕ) : Option Run → ℕ
  | some r => if r.charged = some b then r.npages else 0
  | none => 0

def entries (devices : ℕ) : Finset (ℕ × ℕ) := range devices ×ˢ range maxRuns

def Memory.charges (m : Memory) (b : ℕ) : ℕ :=
  ∑ p ∈ entries m.devices, costOf b (m.runs p)

theorem runs_setRun {m : Memory} {p q : ℕ × ℕ} {run : Option Run} :
    (m.setRun p run).runs q = if q = p then run else m.runs q :=
  update_apply m.runs p run q

theorem charges_setRun {m : Memory} {p : ℕ × ℕ} (hp : p ∈ entries m.devices)
    (run : Option Run) (b : ℕ) :
    (m.setRun p run).charges b + costOf b (m.runs p) = m.charges b + costOf b run := by
  have hrest : ∑ q ∈ entries m.devices \ {p}, costOf b ((m.setRun p run).runs q) =
      ∑ q ∈ entries m.devices \ {p}, costOf b (m.runs q) := by
    refine sum_congr rfl fun q hq => ?_
    rw [runs_setRun, if_neg fun heq => (mem_sdiff.mp hq).2 (mem_singleton.mpr heq)]
  have hsplit (f : ℕ × ℕ → ℕ) : ∑ q ∈ entries m.devices, f q =
      ∑ q ∈ entries m.devices \ {p}, f q + f p := by
    rw [← sum_sdiff (singleton_subset_iff.mpr hp), sum_singleton]
  change ∑ q ∈ entries m.devices, costOf b ((m.setRun p run).runs q) + _ =
    ∑ q ∈ entries m.devices, costOf b (m.runs q) + _
  rw [hsplit, hsplit, runs_setRun, if_pos rfl]
  omega

/-! ### Budgets -/

/-- A budget's parent is there, and only `root` has none. -/
structure Tree.Sound (t : Tree) : Prop where
  known : ∀ b B, t.budgets b = some B → b < t.nextId
  up : ∀ b B p, t.budgets b = some B → B.parent = some p → ∃ P, t.budgets p = some P ∧
    B.depth = P.depth + 1
  shallow : ∀ b B, t.budgets b = some B → B.depth < maxDepth
  root : ∀ b B, t.budgets b = some B → B.parent = none → b = 0
  parents : ∀ b B, t.budgets b = some B → t.parents b = B.parent
  past : ∀ b p, t.parents b = some p → b < t.nextId ∧ p < t.nextId
  orphan : ∀ b, b < t.nextId → t.parents b = none → b = 0

/-- The lists of children agree, and nothing is dying. -/
structure Tree.Linked (t : Tree) : Prop where
  children : ∀ b c, c ∈ t.children b ↔ ∃ C, t.budgets c = some C ∧ C.parent = some b
  once : ∀ b, (t.children b).Nodup
  idle : t.dying = []

/-- The nearest of a budget and those above it that is still there, if one is. -/
inductive Survivor (t : Tree) : ℕ → Option ℕ → Prop
  | here {b : ℕ} : (t.budgets b).isSome = true → Survivor t b (some b)
  | up {b p : ℕ} {o : Option ℕ} : t.budgets b = none → t.parents b = some p →
      Survivor t p o → Survivor t b o
  | gone {b : ℕ} : t.budgets b = none → t.parents b = none → Survivor t b none

/-! ### The invariant -/

structure Kept (m : Memory) : Prop where
  tree : m.tree.Sound
  placed : ∀ p r, m.runs p = some r → p ∈ entries m.devices ∧ 0 < r.npages ∧
    r.origin < m.tree.nextId
  /-- No frame is in two runs, and the pool's free frames are those in none. -/
  apart : ∀ p q r r' f, m.runs p = some r → m.runs q = some r' → r.Has f →
    r'.Has f → p = q
  held : ∀ f, m.held f = true ↔ ∃ p r, m.runs p = some r ∧ r.Has f
  accounts : ∀ pid a, m.accounts pid = some a →
    pid < maxPids ∧ (m.tree.budgets a.budget).isSome = true ∧ ∀ slot ∈ a.mapped,
      slot < m.devices
  /-- A live run is held by a live process and charged to its budget. -/
  live : ∀ p r, m.runs p = some r → r.quarantined = false →
    ∃ pid a, r.holder = some pid ∧ m.accounts pid = some a ∧ r.charged = some a.budget ∧
    r.origin = a.budget
  /-- A quarantined one is charged to the nearest surviving budget. -/
  survivor : ∀ p r, m.runs p = some r → Survivor m.tree r.origin r.charged
  paid : ∀ b B, m.tree.budgets b = some B →
    m.used b = m.elsewhere b + m.charges b + m.tree.carved b ∧ m.used b ≤ B.limit
  unrefused : m.refused = false

theorem Survivor.live {t : Tree} {b c : ℕ} {o : Option ℕ} (hs : Survivor t b o)
    (ho : o = some c) :
    (t.budgets c).isSome = true := by
  induction hs with
  | here hlive =>
    cases ho
    exact hlive
  | up _ _ _ ih => exact ih ho
  | gone => exact nomatch ho

theorem Survivor.congr {t : Tree} (t' : Tree)
    (hbudgets : ∀ b, t'.budgets b = t.budgets b)
    (hparents : ∀ b, t'.parents b = t.parents b) {b : ℕ} {o : Option ℕ}
    (hs : Survivor t b o) : Survivor t' b o := by
  induction hs with
  | here hlive => exact .here ((congrArg Option.isSome (hbudgets _)).trans hlive)
  | up hgone hup _ ih =>
    exact .up ((hbudgets _).trans hgone) ((hparents _).trans hup) ih
  | gone hgone hup => exact .gone ((hbudgets _).trans hgone) ((hparents _).trans hup)

section Steps

variable {m : Memory} {p : ℕ × ℕ} {r : Run}

/-- What pooling a run leaves, if its budget is there. -/
theorem pool_eq (hlive : ∀ b, r.charged = some b → (m.tree.budgets b).isSome = true) :
    m.pool r = { m with
      held := fun f => if r.start ≤ f ∧ f < r.start + r.npages then false else m.held f
      used := fun b => m.used b - costOf b (some r) } := by
  have hused (hnone : r.charged = none) :
      (fun b => m.used b - costOf b (some r)) = m.used := by
    funext b
    rw [costOf, hnone, if_neg nofun, Nat.sub_zero]
  cases hcharged : r.charged with
  | none =>
    rw [Memory.pool, hcharged, hused hcharged]
    rfl
  | some b =>
    have hupdate : (fun c => m.used c - costOf c (some r)) =
        update m.used b (m.used b - r.npages) := by
      funext c
      rw [update_apply, costOf, hcharged]
      by_cases heq : c = b
      · rw [if_pos heq, if_pos (heq ▸ rfl), heq]
      · rw [if_neg heq, if_neg fun h => heq (Option.some.inj h).symm, Nat.sub_zero]
    rw [Memory.pool, hcharged, hupdate]
    exact if_pos (hlive b hcharged)

/-- A run's frames go back to the pool. -/
theorem Kept.pool (h : Kept m) (hp : m.runs p = some r) :
    Kept ((m.setRun p none).pool r) := by
  have hlive (b : ℕ) (hb : r.charged = some b) : (m.tree.budgets b).isSome = true :=
    (h.survivor p r hp).live hb
  have hrun {q : ℕ × ℕ} {r' : Run} (hq : (m.setRun p none).runs q = some r') : q ≠ p ∧
      m.runs q = some r' := by
    rw [runs_setRun] at hq
    split at hq
    · exact nomatch hq
    · next hne => exact ⟨hne, hq⟩
  rw [pool_eq (m := m.setRun p none) hlive]
  exact { h with
    placed := fun q r' hq => h.placed q r' (hrun hq).2
    apart := fun q q' r' r'' f hq hq' => h.apart q q' r' r'' f (hrun hq).2 (hrun hq').2
    held := by
      intro f
      dsimp only
      split
      · next hhas =>
          refine ⟨nofun, fun ⟨q, r', hq, hf⟩ => ?_⟩
          exact absurd (h.apart q p r' r f (hrun hq).2 hp hf hhas) (hrun hq).1
      · next hnot =>
          refine (h.held f).trans ⟨fun ⟨q, r', hq, hf⟩ => ⟨q, r', ?_, hf⟩,
            fun ⟨q, r', hq, hf⟩ => ⟨q, r', (hrun hq).2, hf⟩⟩
          have hne : q ≠ p := by
            rintro rfl
            cases hp.symm.trans hq
            exact hnot hf
          rw [runs_setRun, if_neg hne]
          exact hq
    live := fun q r' hq => h.live q r' (hrun hq).2
    survivor := fun q r' hq => h.survivor q r' (hrun hq).2
    paid := by
      intro b B hB
      have hpaid := h.paid b B hB
      have hcharges := charges_setRun (h.placed p r hp).1 none b
      have hnone : costOf b none = 0 := rfl
      rw [hp] at hcharges
      change m.used b - costOf b (some r) = m.elsewhere b +
        (m.setRun p none).charges b + m.tree.carved b ∧
        m.used b - costOf b (some r) ≤ B.limit
      omega }

/-- A run changes hands, its frames and its charge left alone. -/
theorem Kept.relabel (h : Kept m) (hp : m.runs p = some r) {r' : Run}
    (hstart : r'.start = r.start)
    (hnpages : r'.npages = r.npages) (hcharged : r'.charged = r.charged)
    (horigin : r'.origin = r.origin)
    (hquarantined : r'.quarantined = true) : Kept (m.setRun p (some r')) := by
  have hhas (f : ℕ) : r'.Has f ↔ r.Has f := by rw [Run.Has, Run.Has, hstart, hnpages]
  have hrun {q : ℕ × ℕ} {s : Run} (hq : (m.setRun p (some r')).runs q = some s) :
      q = p ∧ s = r' ∨ q ≠ p ∧ m.runs q = some s := by
    rw [runs_setRun] at hq
    split at hq
    · next heq => exact .inl ⟨heq, (Option.some.inj hq).symm⟩
    · next hne => exact .inr ⟨hne, hq⟩
  -- a run as it was, with the same frames
  have hold {q : ℕ × ℕ} {s : Run} (hq : (m.setRun p (some r')).runs q = some s) :
      ∃ s', m.runs q = some s' ∧ (∀ f, s.Has f ↔ s'.Has f) ∧ s.npages = s'.npages ∧
        s.origin = s'.origin ∧
        s.charged = s'.charged := by
    rcases hrun hq with ⟨rfl, rfl⟩ | ⟨-, hq⟩
    · exact ⟨r, hp, hhas, hnpages, horigin, hcharged⟩
    · exact ⟨s, hq, fun _ => .rfl, rfl, rfl, rfl⟩
  exact { h with
    placed := by
      intro q s hq
      obtain ⟨s', hs', -, hsame, horigin, -⟩ := hold hq
      rw [hsame, horigin]
      exact h.placed q s' hs'
    apart := by
      intro q q' s s' f hq hq' hf hf'
      obtain ⟨t, ht, hsame, -⟩ := hold hq
      obtain ⟨t', ht', hsame', -⟩ := hold hq'
      exact h.apart q q' t t' f ht ht' ((hsame f).mp hf) ((hsame' f).mp hf')
    held := by
      intro f
      refine (h.held f).trans ⟨fun ⟨q, s, hq, hf⟩ => ?_, fun ⟨q, s, hq, hf⟩ => ?_⟩
      · by_cases heq : q = p
        · subst heq
          cases hp.symm.trans hq
          exact ⟨q, r', by rw [runs_setRun, if_pos rfl], (hhas f).mpr hf⟩
        · exact ⟨q, s, by rw [runs_setRun, if_neg heq]; exact hq, hf⟩
      · obtain ⟨s', hs', hsame, -⟩ := hold hq
        exact ⟨q, s', hs', (hsame f).mp hf⟩
    live := by
      intro q s hq hs
      rcases hrun hq with ⟨-, rfl⟩ | ⟨-, hq⟩
      · exact nomatch hs.symm.trans hquarantined
      · exact h.live q s hq hs
    survivor := by
      intro q s hq
      obtain ⟨s', hs', -, -, horigin, hcharged⟩ := hold hq
      rw [horigin, hcharged]
      exact h.survivor q s' hs'
    paid := by
      intro b B hB
      have hpaid := h.paid b B hB
      have hcharges := charges_setRun (h.placed p r hp).1 (some r') b
      have hcost : costOf b (some r') = costOf b (some r) := by
        rw [costOf, costOf, hcharged, hnpages]
      rw [hp] at hcharges
      change m.used b = m.elsewhere b + (m.setRun p (some r')).charges b +
        m.tree.carved b ∧ m.used b ≤ B.limit
      omega }

/-- The log is not part of it. -/
theorem Kept.logged (h : Kept m) (log : List Event) : Kept { m with log := log } :=
  { h with }

end Steps

end Redoubt.Dma
