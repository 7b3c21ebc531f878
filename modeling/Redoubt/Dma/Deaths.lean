import Redoubt.Dma.Allocation

/-!
# Deaths

The runs of a process that ends are all pooled, if every device it mapped or allocated
through confirms its reset, and all quarantined otherwise.
-/

namespace Redoubt.Dma

open Function Finset Memory

variable {m : Memory} {confirms : ℕ → Bool} {pooled : Bool} {pid : ℕ}

/-- All but the frames, the runs and what they cost. -/
structure Untouched (m m' : Memory) : Prop where
  tree : m'.tree = m.tree
  elsewhere : m'.elsewhere = m.elsewhere
  accounts : m'.accounts = m.accounts
  devices : m'.devices = m.devices
  virtio : m'.virtio = m.virtio
  log : m'.log = m.log

theorem Untouched.trans {m' m'' : Memory} (h : Untouched m m') (h' : Untouched m' m'') :
    Untouched m m'' :=
  ⟨h'.tree.trans h.tree, h'.elsewhere.trans h.elsewhere, h'.accounts.trans h.accounts,
    h'.devices.trans h.devices,
    h'.virtio.trans h.virtio, h'.log.trans h.log⟩

/-- What a death makes of an entry. -/
def releasedRun (pooled : Bool) (pid : ℕ) : Option Run → Option Run
  | none => none
  | some r =>
    if r.heldBy pid = true then if pooled = true then none
      else some { r with quarantined := true, holder := none }
    else some r

theorem not_heldBy_quarantined {r : Run} (hr : r.quarantined = true) :
    ¬ r.heldBy pid = true := by
  rw [Run.heldBy, hr]
  exact nofun

/-- Nothing released is held. -/
theorem releasedRun_spec {entry : Option Run} {r : Run}
    (hr : releasedRun pooled pid entry = some r) :
    ¬ r.heldBy pid = true := by
  cases entry with
  | none => exact nomatch hr
  | some old =>
    rw [releasedRun] at hr
    split at hr
    · split at hr
      · exact nomatch hr
      · cases hr
        exact not_heldBy_quarantined rfl
    · next hnot =>
        cases hr
        exact hnot

theorem releasedRun_of_not {r : Run} (hr : ¬ r.heldBy pid = true) :
    releasedRun pooled pid (some r) = some r :=
  if_neg hr

theorem releasedRun_idem (entry : Option Run) :
    releasedRun pooled pid (releasedRun pooled pid entry) =
      releasedRun pooled pid entry := by
  cases hentry : releasedRun pooled pid entry with
  | none => rfl
  | some r => exact releasedRun_of_not (releasedRun_spec hentry)

/-! ### One entry -/

theorem releaseAt_runs (p q : ℕ × ℕ) :
    (releaseAt pooled pid m p).runs q = if q = p then releasedRun pooled pid (m.runs p)
    else m.runs q := by
  have hpool (r : Run) : ((m.setRun p none).pool r).runs = update m.runs p none := by
    rw [pool]
    split
    · split <;> rfl
    · rfl
  cases hentry : m.runs p with
  | none =>
    have hsame : releaseAt pooled pid m p = m := by rw [releaseAt, hentry]
    rw [hsame]
    split
    · next heq => exact heq ▸ hentry
    · rfl
  | some r =>
    rw [releaseAt, hentry, releasedRun]
    by_cases hheld : r.heldBy pid = true
    · dsimp only
      rw [if_pos hheld, if_pos hheld]
      by_cases hpooled : pooled = true
      · rw [if_pos hpooled, if_pos hpooled, hpool, update_apply]
      · rw [if_neg hpooled, if_neg hpooled, runs_setRun]
    · dsimp only
      rw [if_neg hheld]
      split
      · next heq => exact heq ▸ hentry
      · rfl

theorem untouched_releaseAt (p : ℕ × ℕ) : Untouched m (releaseAt pooled pid m p) := by
  rw [releaseAt]
  split
  · exact ⟨rfl, rfl, rfl, rfl, rfl, rfl⟩
  · split
    · split
      · rw [pool]
        split
        · split <;> exact ⟨rfl, rfl, rfl, rfl, rfl, rfl⟩
        · exact ⟨rfl, rfl, rfl, rfl, rfl, rfl⟩
      · exact ⟨rfl, rfl, rfl, rfl, rfl, rfl⟩
    · exact ⟨rfl, rfl, rfl, rfl, rfl, rfl⟩

theorem Kept.releaseAt (h : Kept m) (p : ℕ × ℕ) :
    Kept (Memory.releaseAt pooled pid m p) := by
  rw [Memory.releaseAt]
  split
  · exact h
  · next r hr =>
      split
      · split
        · exact h.pool hr
        · exact h.relabel hr rfl rfl rfl rfl rfl
      · exact h

/-! ### All of them -/

theorem releaseAll_runs (places : List (ℕ × ℕ)) (m : Memory) (q : ℕ × ℕ) :
    (places.foldl (releaseAt pooled pid) m).runs q =
      if q ∈ places then releasedRun pooled pid (m.runs q) else m.runs q := by
  induction places generalizing m with
  | nil => exact (if_neg List.not_mem_nil).symm
  | cons p places ih =>
    rw [List.foldl_cons, ih, releaseAt_runs]
    by_cases hq : q = p
    · subst hq
      rw [if_pos rfl, if_pos List.mem_cons_self, releasedRun_idem, ite_self]
    · rw [if_neg hq]
      exact if_congr (by rw [List.mem_cons, or_iff_right hq]) rfl rfl

theorem untouched_releaseAll (places : List (ℕ × ℕ)) (m : Memory) :
    Untouched m (places.foldl (releaseAt pooled pid) m) := by
  induction places generalizing m with
  | nil => exact ⟨rfl, rfl, rfl, rfl, rfl, rfl⟩
  | cons p places ih => exact (untouched_releaseAt p).trans (ih _)

theorem Kept.releaseAll {m : Memory} (h : Kept m) (places : List (ℕ × ℕ)) :
    Kept (places.foldl (Memory.releaseAt pooled pid) m) := by
  induction places generalizing m with
  | nil => exact h
  | cons p places ih => exact ih (h.releaseAt p)

/-! ### The reset set -/

theorem mem_resetSet {i : ℕ} : i ∈ m.resetSet pid ↔ i < m.devices ∧
    ((∃ a, m.accounts pid = some a ∧ i ∈ a.mapped) ∨
      ∃ k r, k < maxRuns ∧ m.runs (i, k) = some r ∧ r.heldBy pid = true) := by
  have hheld : m.holdsIn pid i = true ↔ ∃ k r, k < maxRuns ∧ m.runs (i, k) = some r ∧
      r.heldBy pid = true := by
    rw [holdsIn, List.any_eq_true]
    refine exists_congr fun k => ?_
    rw [List.mem_range, Option.any_eq_true]
    exact exists_and_left.symm
  rw [resetSet, List.mem_filter, List.mem_range, Bool.or_eq_true, hheld,
    Option.any_eq_true]
  exact and_congr_right fun _ =>
    or_congr_left (exists_congr fun a => and_congr_right fun _ => decide_eq_true_iff)

theorem mem_places {slots : List ℕ} {p : ℕ × ℕ} :
    p ∈ places slots ↔ p.1 ∈ slots ∧ p.2 < maxRuns := by
  rw [places, List.mem_flatMap]
  constructor
  · intro ⟨i, hi, hp⟩
    obtain ⟨k, hk, rfl⟩ := List.mem_map.mp hp
    exact ⟨hi, List.mem_range.mp hk⟩
  · intro ⟨hslot, hk⟩
    exact ⟨p.1, hslot, List.mem_map.mpr ⟨p.2, List.mem_range.mpr hk, rfl⟩⟩

theorem allConfirmed_iff :
    m.allConfirmed confirms pid = true ↔ ∀ i ∈ m.resetSet pid,
      m.reset confirms i = true := by
  rw [allConfirmed, decide_eq_true_iff]
  exact List.filter_eq_self

/-- What a process holds came through a device of its reset set. -/
theorem Kept.mem_resetSet (h : Kept m) {p : ℕ × ℕ} {r : Run} (hp : m.runs p = some r)
    (hr : r.heldBy pid = true) :
    p ∈ places (m.resetSet pid) := by
  obtain ⟨hslot, hk⟩ := mem_product.mp (h.placed p r hp).1
  exact mem_places.mpr
    ⟨Dma.mem_resetSet.mpr ⟨mem_range.mp hslot, .inr ⟨p.2, r, mem_range.mp hk, hp, hr⟩⟩,
    mem_range.mp hk⟩

theorem Kept.mem_heldFrames (h : Kept m) {frames : ℕ × ℕ} :
    frames ∈ m.heldFrames pid (m.resetSet pid) ↔
      ∃ p r, m.runs p = some r ∧ r.heldBy pid = true ∧ r.frames = frames := by
  rw [heldFrames, List.mem_filterMap]
  constructor
  · intro ⟨p, _, hp⟩
    obtain ⟨r, hr, hframes⟩ := Option.map_eq_some_iff.mp hp
    obtain ⟨hr, hheld⟩ := Option.filter_eq_some_iff.mp hr
    exact ⟨p, r, hr, hheld, hframes⟩
  · intro ⟨p, r, hp, hr, hframes⟩
    refine ⟨p, h.mem_resetSet hp hr, Option.map_eq_some_iff.mpr ⟨r, ?_, hframes⟩⟩
    exact Option.filter_eq_some_iff.mpr ⟨hp, hr⟩

/-! ### A death -/

theorem release_runs (h : Kept m) (q : ℕ × ℕ) :
    (m.release confirms pid).runs q = releasedRun (m.allConfirmed confirms pid) pid
      (m.runs q) := by
  refine (releaseAll_runs _ m q).trans ?_
  split
  · rfl
  · next hnot =>
      cases hentry : m.runs q with
      | none => rfl
      | some r =>
        exact (releasedRun_of_not fun hheld => hnot (h.mem_resetSet hentry hheld)).symm

theorem Kept.release (h : Kept m) : Kept (m.release confirms pid) := by
  have hafter :
      Kept ((Memory.places (m.resetSet pid)).foldl
        (Memory.releaseAt (m.allConfirmed confirms pid) pid) m) :=
    h.releaseAll _
  exact ⟨hafter.tree, hafter.placed, hafter.apart, hafter.held, hafter.accounts,
    hafter.live, hafter.survivor,
    hafter.paid, hafter.unrefused⟩

theorem Kept.die (h : Kept m) (confirms : ℕ → Bool) (pid : ℕ) :
    Kept (Memory.die confirms m pid) := by
  rw [Memory.die]
  split
  · exact h
  · have hafter : Kept (m.release confirms pid) := h.release
    exact { hafter with
      accounts := by
        intro pid' a ha
        change update (m.release confirms pid).accounts pid none pid' = some a at ha
        rw [update_apply] at ha
        split at ha
        · exact nomatch ha
        · exact hafter.accounts pid' a ha
      live := by
        intro p r hp hr
        obtain ⟨pid', a, hholder, ha, hcharged, horigin⟩ := hafter.live p r hp hr
        have hnot := releasedRun_spec ((release_runs h p).symm.trans hp)
        have hne : pid' ≠ pid := by
          rintro rfl
          rw [Run.heldBy, hr, hholder] at hnot
          exact hnot (Bool.and_eq_true_iff.mpr ⟨rfl, decide_eq_true rfl⟩)
        exact ⟨pid', a, hholder, (update_of_ne hne _ _).trans ha, hcharged, horigin⟩ }

end Redoubt.Dma
