import Redoubt.Dma.History

/-!
# Whole runs

Whatever is asked of the kernel and however devices answer: the log is in order, the
pool is as the log tells, runs share no frame, and each run is paid for by one budget as
long as there is one.
-/

namespace Redoubt.Dma

open Function Finset History Memory

variable {m : Memory}

/-! ### Deaths -/

section Death

variable {confirms : ℕ → Bool} {pid : ℕ}

/-- The frames a death pools. -/
def Memory.pooledIn (m : Memory) (confirms : ℕ → Bool) (pid : ℕ) : List (ℕ × ℕ) :=
  if m.allConfirmed confirms pid = true then m.heldFrames pid (m.resetSet pid) else []

theorem mem_pooledIn (h : Kept m) {frames : ℕ × ℕ} : frames ∈ m.pooledIn confirms pid ↔
    m.allConfirmed confirms pid = true ∧ ∃ p r, m.runs p = some r ∧
      r.heldBy pid = true ∧ r.frames = frames := by
  rw [pooledIn]
  split
  · next hall => rw [h.mem_heldFrames, and_iff_right hall]
  · next hnot =>
      exact ⟨fun hmem => absurd hmem List.not_mem_nil, fun hand => absurd hand.1 hnot⟩

theorem mem_resets {slots : List ℕ} {reset : ℕ → Bool} {slot : ℕ} {ok : Bool} :
    (slot, ok) ∈ slots.map (fun i => (i, reset i)) ↔ slot ∈ slots ∧
    reset slot = ok := by
  rw [List.mem_map]
  constructor
  · intro ⟨i, hi, heq⟩
    cases heq
    exact ⟨hi, rfl⟩
  · intro ⟨hslot, hreset⟩
    exact ⟨slot, hslot, by rw [hreset]⟩

/-- A death that pools anything is one in which every device the process reached
confirmed. -/
theorem Told.inOrder_died (h : Told m) (hkept : Kept m) :
    InOrder m.log (.died pid ((m.resetSet pid).map fun i => (i, m.reset confirms i))
      (m.pooledIn confirms pid)) := by
  refine ⟨fun frames hframes => ?_, fun hpooled slot hslot => ?_,
    fun slot hslot hfailed => ?_⟩
  · obtain ⟨-, p, r, hp, hr, rfl⟩ := (mem_pooledIn hkept).mp hframes
    refine ⟨(h.holds pid _).mpr ⟨p, r, hp, hr, rfl⟩, fun f hf hlost => ?_⟩
    obtain ⟨q, s, hq, hs, hhas⟩ := h.lost f hlost
    cases hkept.apart p q r s f hp hq hf hhas
    cases hp.symm.trans hq
    exact not_heldBy_quarantined hs hr
  · have hall : m.allConfirmed confirms pid = true := by
      by_contra hnot
      exact hpooled (if_neg hnot)
    have hreset := h.reached pid slot hslot
    exact mem_resets.mpr ⟨hreset, allConfirmed_iff.mp hall slot hreset⟩
  · have hreset := (mem_resets.mp hslot).2
    rw [reset, h.failed slot hfailed] at hreset
    exact nomatch hreset

/-- What others hold, and what is quarantined, stays as it is. -/
theorem release_other (h : Kept m) {p : ℕ × ℕ} {r : Run} (hp : m.runs p = some r)
    (hr : ¬ r.heldBy pid = true) :
    (m.release confirms pid).runs p = some r := by
  rw [release_runs h, hp]
  exact releasedRun_of_not hr

/-- What is live after it was so before, in other hands. -/
theorem release_live (h : Kept m) {p : ℕ × ℕ} {r : Run}
    (hp : (m.release confirms pid).runs p = some r)
    (hr : r.quarantined = false) : m.runs p = some r ∧ ¬ r.heldBy pid = true := by
  rw [release_runs h] at hp
  refine ⟨?_, releasedRun_spec hp⟩
  cases hentry : m.runs p with
  | none =>
    rw [hentry] at hp
    cases hp
  | some s =>
    rw [hentry, releasedRun] at hp
    split at hp
    · split at hp
      · cases hp
      · cases hp
        cases hr
    · exact hp

/-- What the process held and was not pooled is quarantined. -/
theorem release_quarantined (h : Kept m) {p : ℕ × ℕ} {r : Run} (hp : m.runs p = some r)
    (hr : r.heldBy pid = true)
    (hnot : r.frames ∉ m.pooledIn confirms pid) :
    (m.release confirms pid).runs p = some { r with
      quarantined := true, holder := none } := by
  have hall : ¬ m.allConfirmed confirms pid = true := fun hall =>
    hnot ((mem_pooledIn h).mpr ⟨hall, p, r, hp, hr, rfl⟩)
  rw [release_runs h, hp, releasedRun, if_pos hr, if_neg hall]

/-- The frames in runs after it are those before it that were not pooled. -/
theorem release_frames (h : Kept m) (f : ℕ) :
    (∃ p r, m.runs p = some r ∧ r.Has f) ∧
    ¬ (∃ frames ∈ m.pooledIn confirms pid, Within frames f) ↔
      ∃ p r, (m.release confirms pid).runs p = some r ∧ r.Has f := by
  constructor
  · rintro ⟨⟨p, r, hp, hhas⟩, hnot⟩
    by_cases hr : r.heldBy pid = true
    · exact ⟨p, _, release_quarantined h hp hr fun hmem => hnot ⟨r.frames, hmem, hhas⟩,
        hhas⟩
    · exact ⟨p, r, release_other h hp hr, hhas⟩
  · rintro ⟨p, r, hp, hhas⟩
    rw [release_runs h] at hp
    cases hentry : m.runs p with
    | none =>
      rw [hentry] at hp
      cases hp
    | some s =>
      have hs : s.Has f ∧
          (m.allConfirmed confirms pid = true → ¬ s.heldBy pid = true) := by
        rw [hentry, releasedRun] at hp
        split at hp
        · split at hp
          · cases hp
          · next hnot =>
              cases hp
              exact ⟨hhas, fun hall => absurd hall hnot⟩
        · next hnot =>
            cases hp
            exact ⟨hhas, fun _ => hnot⟩
      refine ⟨⟨p, s, hentry, hs.1⟩, ?_⟩
      rintro ⟨frames, hframes, hf⟩
      obtain ⟨hall, q, s', hq, hs', rfl⟩ := (mem_pooledIn h).mp hframes
      cases h.apart p q s s' f hentry hq hs.1 hf
      cases hentry.symm.trans hq
      exact hs.2 hall hs'

theorem not_heldBy_of_ne {r : Run} {pid' : ℕ} (hne : pid' ≠ pid)
    (hr : r.heldBy pid' = true) :
    ¬ r.heldBy pid = true := by
  intro hheld
  exact hne (Option.some.inj ((heldBy_iff.mp hr).2.symm.trans (heldBy_iff.mp hheld).2))

theorem Told.die (h : Told m) (hkept : Kept m) (confirms : ℕ → Bool) (pid : ℕ) :
    Told (Memory.die confirms m pid) := by
  have hafter := hkept.die confirms pid
  rw [Memory.die] at hafter ⊢
  split
  · exact h
  · next a ha =>
      rw [ha] at hafter
      have huntouched : Untouched m
          ((Memory.places (m.resetSet pid)).foldl
            (Memory.releaseAt (m.allConfirmed confirms pid) pid) m) :=
        untouched_releaseAll _ m
      have hlog : (m.release confirms pid).log = m.log ++
          [.died pid ((m.resetSet pid).map fun i => (i, m.reset confirms i))
            (m.pooledIn confirms pid)] :=
        congrArg (· ++ _) huntouched.log
      refine Tells.told ?_ ((congrArg seen hlog).trans (seen_snoc ..))
        (hlog.symm ▸ h.orderly.snoc (h.inOrder_died hkept))
      exact {
        reached := by
          intro pid' slot hslot
          change slot ∈ update (seen m.log).reached pid ∅ pid' at hslot
          rw [update_apply] at hslot
          split at hslot
          · exact absurd hslot (Set.notMem_empty slot)
          · next hne =>
              refine mem_resetSet_of (m := m) huntouched.devices
                (h.reached pid' slot hslot) (fun a ha hmapped => ?_)
                fun p r hp hr => release_other hkept hp (not_heldBy_of_ne hne hr)
              exact ⟨a, (update_of_ne hne _ _).trans
                ((congrFun huntouched.accounts pid').trans ha), hmapped⟩
        holds := by
          intro pid' frames
          change frames ∈ update (seen m.log).holds pid ∅ pid' ↔ _
          by_cases heq : pid' = pid
          · subst heq
            rw [update_self]
            refine ⟨fun hmem => absurd hmem (Set.notMem_empty frames), ?_⟩
            rintro ⟨p, r, hp, hr, -⟩
            exact absurd hr (release_live hkept hp (heldBy_iff.mp hr).1).2
          · rw [update_of_ne heq, h.holds]
            constructor
            · rintro ⟨p, r, hp, hr, hframes⟩
              exact ⟨p, r, release_other hkept hp (not_heldBy_of_ne heq hr), hr,
                hframes⟩
            · rintro ⟨p, r, hp, hr, hframes⟩
              exact ⟨p, r, (release_live hkept hp (heldBy_iff.mp hr).1).1, hr, hframes⟩
        out := by
          intro f
          refine Iff.trans ?_ (hafter.held f).symm
          refine Iff.trans ?_ (release_frames hkept f)
          rw [← hkept.held, ← h.out]
          rfl
        lost := by
          intro f hf
          rcases hf with hold | ⟨frames, hframes, hnot, hin⟩
          · obtain ⟨p, r, hp, hr, hhas⟩ := h.lost f hold
            exact ⟨p, r, release_other hkept hp (not_heldBy_quarantined hr), hr, hhas⟩
          · obtain ⟨p, r, hp, hr, rfl⟩ := (h.holds pid frames).mp hframes
            exact ⟨p, _, release_quarantined hkept hp hr hnot, rfl, hin⟩
        failed := by
          intro slot hslot
          change (m.quarantined slot ||
            (slot ∈ m.resetSet pid && !m.reset confirms slot)) = true
          rw [Bool.or_eq_true]
          rcases hslot with hold | hnew
          · exact .inl (h.failed slot hold)
          · obtain ⟨hin, hreset⟩ := mem_resets.mp hnew
            refine .inr (Bool.and_eq_true_iff.mpr ⟨decide_eq_true hin, ?_⟩)
            rw [hreset]
            rfl }

end Death

theorem Told.deaths {m : Memory} (h : Told m) (hkept : Kept m) (confirms : ℕ → ℕ → Bool)
    (order : List ℕ) :
    Told (m.deaths confirms order) := by
  induction order generalizing m with
  | nil => exact h
  | cons pid order ih =>
    exact ih (h.die hkept (confirms pid) pid) (hkept.die (confirms pid) pid)

/-! ### Every step -/

theorem Told.destroy (h : Told m) (hkept : Kept m) (hlinked : m.tree.Linked) (top : ℕ)
    (caller : Option ℕ)
    (also : List ℕ) (confirms : ℕ → ℕ → Bool) :
    Told (m.destroy top caller also confirms) := by
  cases hT : m.tree.budgets top with
  | none =>
    rw [Memory.destroy, hT]
    exact h
  | some T =>
    obtain ⟨dead, hdead, -, -, heq, -⟩ :=
      destroy_eq hkept hlinked hT caller also confirms
    have hmarked : Kept (m.markDying top) := hkept.markDying top
    have htold : Told (m.markDying top) := h.same rfl rfl rfl rfl rfl rfl
    have hafter : Told dead := hdead ▸ htold.deaths hmarked confirms _
    rw [heq]
    refine hafter.recharged rfl rfl rfl rfl rfl
      (fun r => if r.charged.any (· ∈ Forest.preorder m.tree.children maxDepth top) =
        true then T.parent else r.charged)
      fun p => ?_
    refine congrArg (fun change => (dead.runs p).map change) ?_
    funext r
    rw [moved]
    split <;> rfl

/-- What holds between any two steps. -/
structure Steady (m : Memory) : Prop where
  kept : Kept m
  linked : m.tree.Linked
  told : Told m

theorem Steady.handle (h : Steady m) (call : Call) : Steady (handle m call) := by
  cases call with
  | start pid b =>
    refine ⟨h.kept.start pid b, ?_, h.told.start h.kept pid b⟩
    rw [Dma.handle, start]
    split <;> exact h.linked
  | createBudget parent pages =>
    refine ⟨h.kept.createBudget parent pages, createBudget_linked h.kept h.linked, ?_⟩
    rw [Dma.handle, createBudget]
    split
    · exact h.told
    · split
      · exact h.told.same rfl rfl rfl rfl rfl rfl
      · exact h.told
  | charge b n =>
    have hkept := h.kept.chargeElsewhere b n
    rw [Dma.handle]
    rw [chargeElsewhere] at hkept ⊢
    split at hkept
    · next m' hcharge =>
        obtain ⟨-, rfl⟩ := charge_spec hcharge
        exact ⟨hkept, h.linked, h.told.same rfl rfl rfl rfl rfl rfl⟩
    · exact h
  | uncharge b n =>
    have hkept := h.kept.unchargeElsewhere b n
    rw [Dma.handle]
    rw [unchargeElsewhere] at hkept ⊢
    by_cases hle : n ≤ m.elsewhere b
    · rw [if_pos hle] at hkept ⊢
      exact ⟨hkept, h.linked, h.told.same rfl rfl rfl rfl rfl rfl⟩
    · rw [if_neg hle]
      exact h
  | mapDevice pid slot mapped =>
    refine ⟨h.kept.mapDevice pid slot mapped, ?_, h.told.mapDevice pid slot mapped⟩
    rw [Dma.handle, mapDevice]
    split
    · exact h.linked
    · split <;> exact h.linked
  | dmaAlloc pid slot npages mapped =>
    refine ⟨h.kept.dmaAlloc pid slot npages mapped, ?_,
      h.told.dmaAlloc h.kept pid slot npages mapped⟩
    exact (dmaAlloc_tree h.kept pid slot npages mapped).symm ▸ h.linked
  | die pid confirms =>
    refine ⟨h.kept.die confirms pid, ?_, h.told.die h.kept confirms pid⟩
    exact (die_tree confirms m pid).symm ▸ h.linked
  | destroy top caller also confirms =>
    exact ⟨h.kept.destroy h.linked top caller also confirms,
      destroy_linked h.kept h.linked top caller also confirms,
      h.told.destroy h.kept h.linked top caller also confirms⟩

theorem Steady.run {m : Memory} (h : Steady m) (calls : List Call) :
    Steady (run calls m) := by
  induction calls generalizing m with
  | nil => exact h
  | cons call calls ih => exact ih (h.handle call)

theorem steady_boot {limit used devices : ℕ} (virtio : ℕ → Bool)
    (hused : used ≤ limit) :
    Steady (boot limit used devices virtio) := by
  have hroot {b : ℕ} {B : Budget}
      (hB : (boot limit used devices virtio).tree.budgets b = some B) :
      b = 0 ∧ B = ⟨none, 0, limit⟩ := by
    change update (fun _ => none) 0 (some (⟨none, 0, limit⟩ : Budget)) b = some B at hB
    rw [update_apply] at hB
    split at hB
    · next heq => exact ⟨heq, (Option.some.inj hB).symm⟩
    · exact nomatch hB
  refine ⟨?_, ?_, ?_⟩
  · exact {
      tree := {
        known := fun b B hB => (hroot hB).1 ▸ Nat.zero_lt_one
        up := by
          intro b B p hB hp
          obtain ⟨-, rfl⟩ := hroot hB
          exact nomatch hp
        shallow := by
          intro b B hB
          obtain ⟨-, rfl⟩ := hroot hB
          exact (by decide : 0 < maxDepth)
        root := fun b B hB _ => (hroot hB).1
        parents := by
          intro b B hB
          obtain ⟨-, rfl⟩ := hroot hB
          rfl
        past := nofun
        orphan := fun b hb _ => Nat.lt_one_iff.mp hb }
      placed := nofun
      apart := nofun
      held := fun f => ⟨nofun, fun ⟨_, _, hp, _⟩ => nomatch hp⟩
      accounts := nofun
      live := nofun
      survivor := nofun
      paid := by
        intro b B hB
        obtain ⟨rfl, rfl⟩ := hroot hB
        have hcharges : (boot limit used devices virtio).charges 0 = 0 :=
          sum_eq_zero fun _ _ => rfl
        have hcarved : (boot limit used devices virtio).tree.carved 0 = 0 := by
          refine sum_eq_zero fun c _ => ?_
          cases hC : (boot limit used devices virtio).tree.budgets c with
          | none => rfl
          | some C =>
            obtain ⟨-, rfl⟩ := hroot hC
            rfl
        rw [hcharges]
        exact ⟨rfl, hused⟩
      unrefused := rfl }
  · refine ⟨fun b c => ⟨nofun, fun ⟨C, hC, hparent⟩ => ?_⟩,
      fun b => List.nodup_nil, rfl⟩
    obtain ⟨-, rfl⟩ := hroot hC
    exact nomatch hparent
  · exact {
      reached := fun pid slot hslot => absurd hslot (Set.notMem_empty slot)
      holds := fun pid frames => ⟨fun hmem => absurd hmem (Set.notMem_empty frames),
        fun ⟨_, _, hp, _⟩ => nomatch hp⟩
      out := fun f => ⟨fun hmem => absurd hmem (Set.notMem_empty f), nofun⟩
      lost := fun f hmem => absurd hmem (Set.notMem_empty f)
      failed := fun slot hmem => absurd hmem (Set.notMem_empty slot)
      orderly := chronicle_nil }

/-! ### Who pays -/

/-- Only when there is no budget left does nobody pay. -/
theorem Kept.unpaid (h : Kept m) {p : ℕ × ℕ} {r : Run} (hp : m.runs p = some r)
    (hnone : r.charged = none) (b : ℕ) :
    m.tree.budgets b = none := by
  -- then `root` is gone
  have hroot : m.tree.budgets 0 = none := by
    have hs := h.survivor p r hp
    have horigin := (h.placed p r hp).2.2
    rw [hnone] at hs
    generalize r.origin = o, hpaid : none = paid at hs horigin
    induction hs with
    | here _ => exact nomatch hpaid
    | up _ hup _ ih => exact ih hpaid (h.tree.past _ _ hup).2
    | @gone b hgone hup => exact h.tree.orphan b horigin hup ▸ hgone
  -- and every budget is below it
  cases hB : m.tree.budgets b with
  | none => rfl
  | some B =>
    exfalso
    induction hdepth : B.depth using Nat.strong_induction_on generalizing b B with
    | _ n ih =>
      cases hparent : B.parent with
      | none =>
        cases h.tree.root b B hB hparent
        exact nomatch hroot.symm.trans hB
      | some q =>
        obtain ⟨Q, hQ, hlevel⟩ := h.tree.up b B q hB hparent
        exact ih Q.depth (by omega) q Q hQ rfl

/-- Where the frames are and who pays for them. -/
structure Accounted (m : Memory) : Prop where
  /-- Frames came back to the pool only as `InOrder` says, -/
  orderly : Chronicle InOrder m.log
  /-- and the log has every frame that left the pool or came back. -/
  out : ∀ f, m.held f = true ↔ f ∈ (seen m.log).out
  held : ∀ f, m.held f = true ↔ ∃ p r, m.runs p = some r ∧ r.Has f
  apart : ∀ p q r r' f, m.runs p = some r → m.runs q = some r' → r.Has f →
    r'.Has f → p = q
  holder : ∀ p r, m.runs p = some r → r.quarantined = false →
    ∃ pid a, r.holder = some pid ∧ m.accounts pid = some a ∧ r.charged = some a.budget ∧
    r.origin = a.budget
  heir : ∀ p r, m.runs p = some r → Survivor m.tree r.origin r.charged
  last : ∀ p r, m.runs p = some r → r.charged = none → ∀ b, m.tree.budgets b = none
  paid : ∀ b B, m.tree.budgets b = some B →
    m.used b = m.elsewhere b + m.charges b + m.tree.carved b ∧ m.used b ≤ B.limit
  unrefused : m.refused = false

/-- In every run from boot, however processes are started and end, budgets come and go,
and devices confirm their resets. -/
theorem frames_accounted {limit used : ℕ} (hused : used ≤ limit) (devices : ℕ)
    (virtio : ℕ → Bool)
    (calls : List Call) : Accounted (run calls (boot limit used devices virtio)) := by
  have h : Steady (run calls (boot limit used devices virtio)) :=
    (steady_boot virtio hused).run calls
  exact {
    orderly := h.told.orderly
    out := fun f => (h.told.out f).symm
    held := h.kept.held
    apart := h.kept.apart
    holder := h.kept.live
    heir := h.kept.survivor
    last := fun p r hp hnone => h.kept.unpaid hp hnone
    paid := h.kept.paid
    unrefused := h.kept.unrefused }

/-- A process whose two devices confirm, and one whose device does not: the first one's
frames are handed out again, the second one's are not. -/
theorem frames_accounted_twoDeaths :
    Accounted (run [.start 1 0, .mapDevice 1 0 true, .dmaAlloc 1 1 3 true,
      .die 1 fun _ => true, .createBudget 0 8,
      .start 2 1, .dmaAlloc 2 1 2 true, .destroy 1 none [] fun _ _ => false, .start 3 0,
      .dmaAlloc 3 0 2 true]
      (boot 20 2 2 fun _ => true)) ∧
    (run [.start 1 0, .mapDevice 1 0 true, .dmaAlloc 1 1 3 true, .die 1 fun _ => true,
      .createBudget 0 8,
      .start 2 1, .dmaAlloc 2 1 2 true, .destroy 1 none [] fun _ _ => false, .start 3 0,
      .dmaAlloc 3 0 2 true]
      (boot 20 2 2 fun _ => true)).log =
    [.started 1, .mapped 1 0, .taken (0, 3), .allocated 1 1 (0, 3),
      .died 1 [(0, true), (1, true)] [(0, 3)],
      .started 2, .taken (0, 2), .allocated 2 1 (0, 2), .died 2 [(1, false)] [],
      .started 3, .taken (2, 2), .allocated 3 0 (2, 2)] :=
  ⟨frames_accounted (by decide) 2 (fun _ => true) _, by decide +kernel⟩

end Redoubt.Dma
