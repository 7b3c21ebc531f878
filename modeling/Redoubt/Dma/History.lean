import Redoubt.Dma.Destruction
import Redoubt.Library.Chronicle

/-!
# What the log tells

Which frames are out of the pool, who was given them, which devices a process reached
and which ones failed to confirm a reset: read from the log alone, and compared with the
state.
-/

namespace Redoubt.Dma

open Function Finset History

/-- The frames of a run, by its first one and how many. -/
def Within (frames : ℕ × ℕ) (f : ℕ) : Prop := frames.1 ≤ f ∧ f < frames.1 + frames.2

/-- `reached`: the devices a process mapped or allocated through since it started;
`holds`: the runs it was given.  `out`: the frames out of the pool; `lost`: those of
them that the death of their holder left there.  `failed`: the devices that did not
confirm a reset. -/
structure Seen where
  reached : ℕ → Set ℕ
  holds : ℕ → Set (ℕ × ℕ)
  out : Set ℕ
  lost : Set ℕ
  failed : Set ℕ

def Seen.step (s : Seen) : Event → Seen
  | .started pid =>
  { s with reached := update s.reached pid ∅, holds := update s.holds pid ∅ }
  | .mapped pid slot =>
    { s with reached := update s.reached pid (insert slot (s.reached pid)) }
  | .taken frames => { s with out := s.out ∪ { f | Within frames f } }
  | .allocated pid slot frames =>
    { s with
      reached := update s.reached pid (insert slot (s.reached pid))
      holds := update s.holds pid (insert frames (s.holds pid)) }
  | .dropped frames => { s with out := s.out \ { f | Within frames f } }
  | .died pid resets pooled =>
    { reached := update s.reached pid ∅
      holds := update s.holds pid ∅
      out := s.out \ { f | ∃ frames ∈ pooled, Within frames f }
      lost := s.lost ∪ { f | ∃ frames ∈ s.holds pid, frames ∉ pooled ∧ Within frames f }
      failed := s.failed ∪ { slot | (slot, false) ∈ resets } }

/-- What a log tells. -/
def seen (log : List Event) : Seen :=
  log.foldl Seen.step ⟨fun _ => ∅, fun _ => ∅, ∅, ∅, ∅⟩

theorem seen_snoc (log : List Event) (e : Event) :
    seen (log ++ [e]) = (seen log).step e := List.foldl_concat ..

/-- When an event is in order.  Frames are taken when they are in the pool, and go back
only at once, or with the process that was given them; then every device it reached
confirmed its reset in that death, and none that confirmed had failed before.  What was
lost is never taken or pooled. -/
def InOrder (past : List Event) : Event → Prop
  | .taken frames => ∀ f, Within frames f → f ∉ (seen past).out ∧ f ∉ (seen past).lost
  | .allocated _ _ frames => ∃ before, past = before ++ [.taken frames]
  | .dropped frames => ∃ before, past = before ++ [.taken frames]
  | .died pid resets pooled =>
    (∀ frames ∈ pooled, frames ∈ (seen past).holds pid ∧ ∀ f, Within frames f →
      f ∉ (seen past).lost) ∧
    (pooled ≠ [] → ∀ slot ∈ (seen past).reached pid, (slot, true) ∈ resets) ∧
    ∀ slot, (slot, true) ∈ resets → slot ∉ (seen past).failed
  | _ => True

/-- What the log tells is so. -/
structure Told (m : Memory) : Prop where
  reached : ∀ pid, ∀ slot ∈ (seen m.log).reached pid, slot ∈ m.resetSet pid
  holds : ∀ pid frames, frames ∈ (seen m.log).holds pid ↔
    ∃ p r, m.runs p = some r ∧ r.heldBy pid = true ∧ r.frames = frames
  out : ∀ f, f ∈ (seen m.log).out ↔ m.held f = true
  lost : ∀ f ∈ (seen m.log).lost, ∃ p r, m.runs p = some r ∧
    r.quarantined = true ∧ r.Has f
  failed : ∀ slot ∈ (seen m.log).failed, m.quarantined slot = true
  orderly : Chronicle InOrder m.log

variable {m m' : Memory}

theorem heldBy_iff {r : Run} {pid : ℕ} : r.heldBy pid = true ↔ r.quarantined = false ∧
    r.holder = some pid := by
  rw [Run.heldBy, Bool.and_eq_true, Bool.not_eq_true', decide_eq_true_iff]

/-- What is told, but for the order of events. -/
structure Tells (s : Seen) (m : Memory) : Prop where
  reached : ∀ pid, ∀ slot ∈ s.reached pid, slot ∈ m.resetSet pid
  holds : ∀ pid frames, frames ∈ s.holds pid ↔ ∃ p r, m.runs p = some r ∧
    r.heldBy pid = true ∧ r.frames = frames
  out : ∀ f, f ∈ s.out ↔ m.held f = true
  lost : ∀ f ∈ s.lost, ∃ p r, m.runs p = some r ∧ r.quarantined = true ∧ r.Has f
  failed : ∀ slot ∈ s.failed, m.quarantined slot = true

theorem Told.tells (h : Told m) : Tells (seen m.log) m :=
  ⟨h.reached, h.holds, h.out, h.lost, h.failed⟩

theorem Tells.told {s : Seen} (h : Tells s m) (hseen : seen m.log = s)
    (horderly : Chronicle InOrder m.log) :
    Told m := by
  subst hseen
  exact ⟨h.reached, h.holds, h.out, h.lost, h.failed, horderly⟩

/-- Nothing is told of who pays. -/
theorem Told.recharged (h : Told m) (hlog : m'.log = m.log) (hheld : m'.held = m.held)
    (hquarantined : m'.quarantined = m.quarantined)
    (haccounts : m'.accounts = m.accounts)
    (hdevices : m'.devices = m.devices) (change : Run → Option ℕ)
    (hruns : ∀ p, m'.runs p = (m.runs p).map fun r => { r with charged := change r }) :
    Told m' := by
  have hold {p : ℕ × ℕ} {r : Run} (hp : m'.runs p = some r) :
      ∃ s, m.runs p = some s ∧ { s with charged := change s } = r :=
        Option.map_eq_some_iff.mp ((hruns p).symm.trans hp)
  have hnew {p : ℕ × ℕ} {r : Run} (hp : m.runs p = some r) :
      m'.runs p = some { r with charged := change r } := by
    rw [hruns, hp, Option.map_some]
  refine Tells.told (s := seen m.log) ?_ (congrArg seen hlog) (hlog ▸ h.orderly)
  exact {
    reached := by
      intro pid slot hslot
      obtain ⟨hlt, hreached⟩ := mem_resetSet.mp (h.reached pid slot hslot)
      refine mem_resetSet.mpr
        ⟨hdevices ▸ hlt, hreached.imp (fun hmapped => haccounts ▸ hmapped) ?_⟩
      intro ⟨k, r, hk, hr, hheld⟩
      exact ⟨k, _, hk, hnew hr, hheld⟩
    holds := by
      intro pid frames
      rw [h.holds]
      constructor
      · intro ⟨p, r, hp, hr, hframes⟩
        exact ⟨p, _, hnew hp, hr, hframes⟩
      · intro ⟨p, r, hp, hr, hframes⟩
        obtain ⟨s, hs, rfl⟩ := hold hp
        exact ⟨p, s, hs, hr, hframes⟩
    out := by
      rw [hheld]
      exact h.out
    lost := by
      intro f hf
      obtain ⟨p, r, hp, hr, hhas⟩ := h.lost f hf
      exact ⟨p, _, hnew hp, hr, hhas⟩
    failed := by
      rw [hquarantined]
      exact h.failed }

/-- A step that only concerns budgets. -/
theorem Told.same (h : Told m) (hlog : m'.log = m.log) (hheld : m'.held = m.held)
    (hquarantined : m'.quarantined = m.quarantined)
    (haccounts : m'.accounts = m.accounts)
    (hdevices : m'.devices = m.devices) (hruns : m'.runs = m.runs) : Told m' := by
  refine h.recharged hlog hheld hquarantined haccounts hdevices Run.charged fun p => ?_
  rw [hruns]
  exact (Option.map_id_apply).symm

/-! ### Processes and mappings -/

/-- The devices a process reached are those its account and its runs name. -/
theorem mem_resetSet_of {pid slot : ℕ} (hdevices : m'.devices = m.devices)
    (hslot : slot ∈ m.resetSet pid)
    (haccount : ∀ a, m.accounts pid = some a → slot ∈ a.mapped → ∃ a',
      m'.accounts pid = some a' ∧ slot ∈ a'.mapped)
    (hruns : ∀ p r, m.runs p = some r → r.heldBy pid = true → m'.runs p = some r) :
    slot ∈ m'.resetSet pid := by
  obtain ⟨hlt, hreached⟩ := mem_resetSet.mp hslot
  refine mem_resetSet.mpr ⟨hdevices ▸ hlt, ?_⟩
  rcases hreached with ⟨a, ha, hmapped⟩ | ⟨k, r, hk, hr, hheld⟩
  · exact .inl (haccount a ha hmapped)
  · exact .inr ⟨k, r, hk, hruns _ r hr hheld, hheld⟩

theorem Told.start (h : Told m) (hkept : Kept m) (pid b : ℕ) :
    Told (m.start pid b) := by
  rw [Memory.start]
  split
  · next hfree =>
      -- nobody held a run under this PID
      have hnone {p : ℕ × ℕ} {r : Run} (hp : m.runs p = some r) :
          ¬ r.heldBy pid = true := by
        intro hheld
        obtain ⟨hlive, hholder⟩ := heldBy_iff.mp hheld
        obtain ⟨pid', a, hpid', ha, -⟩ := hkept.live p r hp hlive
        cases hholder.symm.trans hpid'
        cases hfree.2.1.symm.trans ha
      refine Tells.told (s := (seen m.log).step (.started pid)) ?_ (seen_snoc ..)
        (h.orderly.snoc trivial)
      exact { h.tells with
        reached := by
          intro pid' slot hslot
          change slot ∈ update (seen m.log).reached pid ∅ pid' at hslot
          rw [update_apply] at hslot
          split at hslot
          · exact absurd hslot (Set.notMem_empty slot)
          · next hne =>
              refine mem_resetSet_of (m := m) rfl (h.reached pid' slot hslot)
                (fun a ha hmapped => ?_) fun _ _ hr _ => hr
              exact ⟨a, (update_of_ne hne _ _).trans ha, hmapped⟩
        holds := by
          intro pid' frames
          change frames ∈ update (seen m.log).holds pid ∅ pid' ↔ _
          rw [update_apply]
          split
          · next heq =>
              subst heq
              refine ⟨fun hmem => absurd hmem (Set.notMem_empty frames), ?_⟩
              rintro ⟨p, r, hp, hr, -⟩
              exact absurd hr (hnone hp)
          · exact h.holds pid' frames }
  · exact h

theorem Told.mapDevice (h : Told m) (pid slot : ℕ) (mapped : Bool) :
    Told (m.mapDevice pid slot mapped) := by
  rw [Memory.mapDevice]
  split
  · exact h
  · next a ha =>
      split
      · next hmapped =>
          refine Tells.told (s := (seen m.log).step (.mapped pid slot)) ?_
            (seen_snoc ..) (h.orderly.snoc trivial)
          exact { h.tells with
            reached := by
              intro pid' slot' hslot
              change slot' ∈ update (seen m.log).reached pid
                (insert slot ((seen m.log).reached pid)) pid' at hslot
              let new : Account := { a with mapped := insert slot a.mapped }
              let after : Memory :=
                { m with accounts := update m.accounts pid (some new) }
              have hkeeps (hold : slot' ∈ (seen m.log).reached pid') :
                  slot' ∈ (after.note (.mapped pid slot)).resetSet pid' := by
                refine mem_resetSet_of (m := m) rfl (h.reached pid' slot' hold)
                  (fun a' ha' hin => ?_) fun _ _ hr _ => hr
                by_cases heq : pid' = pid
                · subst heq
                  cases ha.symm.trans ha'
                  exact ⟨_, update_self _ _ _, Finset.mem_insert_of_mem hin⟩
                · exact ⟨a', (update_of_ne heq _ _).trans ha', hin⟩
              by_cases heq : pid' = pid
              · subst heq
                rw [update_self] at hslot
                rcases Set.mem_insert_iff.mp hslot with rfl | hold
                · exact mem_resetSet.mpr ⟨hmapped.2,
                    .inl ⟨_, update_self _ _ _, Finset.mem_insert_self _ _⟩⟩
                · exact hkeeps hold
              · rw [update_of_ne heq] at hslot
                exact hkeeps hslot }
      · exact h

/-! ### Allocation -/

/-- Frames just taken were in the pool. -/
theorem Told.inOrder_taken (h : Told m) (hkept : Kept m) {pid slot npages start : ℕ}
    {m' : Memory} (hpos : 0 < npages)
    (hnew : m.newRun pid slot npages = some (start, m')) :
    InOrder m.log (.taken (start, npages)) := by
  obtain ⟨k, a, -, -, -, -, hfree, -⟩ := newRun_spec hpos hnew
  intro f hf
  have hnot : ¬ m.held f = true := by
    rw [hfree f hf.1 hf.2]
    exact nofun
  refine ⟨fun hout => hnot ((h.out f).mp hout), fun hlost => ?_⟩
  obtain ⟨p, r, hp, -, hhas⟩ := h.lost f hlost
  exact hnot ((hkept.held f).mpr ⟨p, r, hp, hhas⟩)

/-- A run that could not be mapped. -/
theorem Told.dropped (h : Told m) (hkept : Kept m) {pid slot npages start : ℕ}
    {m' : Memory} (hpos : 0 < npages)
    (hnew : m.newRun pid slot npages = some (start, m')) :
    Told { m with
      log := m.log ++ [.taken (start, npages)] ++ [.dropped (start, npages)] } := by
  have htaken := h.inOrder_taken hkept hpos hnew
  have hseen : seen (m.log ++ [.taken (start, npages)] ++ [.dropped (start, npages)]) =
      seen m.log := by
    rw [seen_snoc, seen_snoc]
    have hout : ((seen m.log).out ∪ { f | Within (start, npages) f }) \
        { f | Within (start, npages) f } =
        (seen m.log).out := by
      ext f
      constructor
      · intro hf
        exact hf.1.resolve_right hf.2
      · intro hf
        exact ⟨.inl hf, fun hwithin => (htaken f hwithin).1 hf⟩
    exact congrArg (fun out => { seen m.log with out := out }) hout
  exact Tells.told { h.tells with } hseen ((h.orderly.snoc htaken).snoc ⟨m.log, rfl⟩)

theorem Told.allocated (h : Told m) (hkept : Kept m) {pid slot npages start : ℕ}
    {m' : Memory} (hpos : 0 < npages)
    (hslot : slot < m.devices) (hnew : m.newRun pid slot npages = some (start, m')) :
    Told (m'.note (.allocated pid slot (start, npages))) := by
  have htaken := h.inOrder_taken hkept hpos hnew
  obtain ⟨k, a, hentry, hk, -, -, -, rfl⟩ := newRun_spec hpos hnew
  let r : Run := ⟨start, npages, some pid, some a.budget, false, a.budget⟩
  let s : Seen := ((seen m.log).step (.taken (start, npages))).step
    (.allocated pid slot (start, npages))
  have hseen :
      seen (m.log ++ [.taken (start, npages)] ++
        [.allocated pid slot (start, npages)]) = s := by
    rw [seen_snoc, seen_snoc]
  have hheld : r.heldBy pid = true := heldBy_iff.mpr ⟨rfl, rfl⟩
  have hself : update m.runs (slot, k) (some r) (slot, k) = some r := update_self _ _ _
  have hkeeps {p : ℕ × ℕ} {s : Run} (hp : m.runs p = some s) :
      update m.runs (slot, k) (some r) p = some s := by
    have hne : p ≠ (slot, k) := by
      rintro rfl
      exact nomatch hentry.symm.trans hp
    exact (update_of_ne hne _ _).trans hp
  refine Tells.told (s := s) ?_ hseen ((h.orderly.snoc htaken).snoc ⟨m.log, rfl⟩)
  exact { h.tells with
    reached := by
      intro pid' slot' hslot'
      change slot' ∈ update (seen m.log).reached pid
        (insert slot ((seen m.log).reached pid)) pid' at hslot'
      by_cases hold : slot' ∈ (seen m.log).reached pid'
      · exact mem_resetSet_of (m := m) rfl (h.reached pid' slot' hold)
          (fun a ha hin => ⟨a, ha, hin⟩)
          fun _ _ hr _ => hkeeps hr
      · rw [update_apply] at hslot'
        split at hslot'
        · next heq =>
            subst heq
            obtain rfl := hslot'.resolve_right hold
            exact mem_resetSet.mpr ⟨hslot, .inr ⟨k, r, hk, hself, hheld⟩⟩
        · exact absurd hslot' hold
    holds := by
      intro pid' frames
      change frames ∈ update (seen m.log).holds pid
        (insert (start, npages) ((seen m.log).holds pid)) pid' ↔
        ∃ p s, update m.runs (slot, k) (some r) p = some s ∧ _
      have hiff : (∃ p s, update m.runs (slot, k) (some r) p = some s ∧
          s.heldBy pid' = true ∧ s.frames = frames) ↔
          pid' = pid ∧ frames = (start, npages) ∨ frames ∈ (seen m.log).holds pid' := by
        rw [h.holds]
        constructor
        · intro ⟨p, s, hp, hs, hframes⟩
          rw [update_apply] at hp
          split at hp
          · cases hp
            exact .inl ⟨(Option.some.inj (heldBy_iff.mp hs).2).symm, hframes.symm⟩
          · exact .inr ⟨p, s, hp, hs, hframes⟩
        · rintro (⟨rfl, rfl⟩ | ⟨p, s, hp, hs, hframes⟩)
          · exact ⟨(slot, k), r, hself, hheld, rfl⟩
          · exact ⟨p, s, hkeeps hp, hs, hframes⟩
      rw [hiff]
      by_cases heq : pid' = pid
      · subst heq
        rw [update_self, Set.mem_insert_iff, eq_self, true_and]
      · rw [update_of_ne heq]
        exact ⟨.inr, fun hor => hor.resolve_left fun hand => heq hand.1⟩
    out := by
      intro f
      change f ∈ (seen m.log).out ∨ Within (start, npages) f ↔
        (if start ≤ f ∧ f < start + npages then true else m.held f) = true
      rw [h.out]
      split
      · next hin => exact ⟨fun _ => rfl, fun _ => .inr hin⟩
      · next hnot => exact or_iff_left hnot
    lost := by
      intro f hf
      obtain ⟨p, s, hp, hs, hhas⟩ := h.lost f hf
      exact ⟨p, s, hkeeps hp, hs, hhas⟩ }

theorem Told.dmaAlloc (h : Told m) (hkept : Kept m) (pid slot npages : ℕ)
    (mapped : Bool) :
    Told (m.dmaAlloc pid slot npages mapped) := by
  rcases dmaAlloc_cases hkept pid slot npages mapped with heq | ⟨start, m', hpos, hslot,
    hnew, heq | heq⟩
  · exact heq.symm ▸ h
  · exact heq.symm ▸ h.allocated hkept hpos hslot hnew
  · exact heq.symm ▸ h.dropped hkept hpos hnew

end Redoubt.Dma
