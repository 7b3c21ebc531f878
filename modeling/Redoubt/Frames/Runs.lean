import Redoubt.Frames.Owners

/-!
# Frames are zero when handed out, and none is lost

Every run: the invariant of the machinery holds in each state, and each allocation's
answer is what the ownership table says.
-/

namespace Redoubt.Frames

open Function List Option

namespace Machine

variable {harts : ℕ} {ram : Ram} {m m' : Machine harts}
variable {at' : Option (Place harts) → List ℕ} {deferred : List ℕ} {uncounted : ℤ}
variable {h : Fin harts}

variable (ram) in
/-- What holds between any two steps. -/
structure Inv (m : Machine harts) : Prop where
  sound : ∃ at' deferred, Sound ram m at' deferred 0 ∧ at' none = []
  staged : ∀ h, m.lock ≠ some h → (m.lists h).staged = []
  loops : ∀ h, (m.doing h).inLoop = true → m.lock = some h
  holder : ∀ h, m.lock = some h → m.doing h = .running ∨ (m.doing h).inLoop = true
  waits : ∀ h want, m.doing h = .waiting want → m.Drained

/-- An operation of the lock's holder keeps the invariant. -/
theorem Inv.of_went (hinv : Inv ram m) (hlock : m.lock = some h) (hkept : Went h m m')
    (hsound : ∃ at' deferred, Sound ram m' at' deferred 0 ∧ at' none = [])
    (hdoing : m'.doing h = .running ∨ (m'.doing h).inLoop = true)
    (hwaits : ∀ want, m'.doing h = .waiting want → m'.Drained) : Inv ram m' where
  sound := hsound
  staged g hg := by
    rw [hkept.lock, hlock] at hg
    have hne : g ≠ h := fun heq => hg (by rw [heq])
    rw [hkept.staged g hne, hinv.staged g (by rwa [hlock])]
  loops g hg := by
    by_cases heq : g = h
    · rw [heq, hkept.lock, hlock]
    · rw [hkept.doing g heq] at hg
      rw [hkept.lock, hinv.loops g hg]
  holder g hg := by
    rw [hkept.lock, hlock] at hg
    obtain rfl := some.inj hg
    exact hdoing
  waits g want hg := by
    by_cases heq : g = h
    · subst heq
      exact hwaits want hg
    · rw [hkept.doing g heq] at hg
      have hloop := hinv.loops g (by rw [hg]; rfl)
      exact absurd (some.inj (hloop.symm.trans hlock)) heq

/-- An operation in a section, which leaves its hart running. -/
theorem Inv.of_section (hinv : Inv ram m) (hsection : m.InSection h)
    (hkept : Kept h m m')
    (hsound : ∃ at' deferred, Sound ram m' at' deferred 0 ∧ at' none = []) :
    Inv ram m' := by
  have hrunning : m'.doing h = .running := by rw [hkept.doing, hsection.2]
  refine hinv.of_went hsection.1 hkept.toWent hsound (Or.inl hrunning) fun want hwant =>
    ?_
  rw [hrunning] at hwant
  exact Doing.noConfusion hwant

theorem deferredFrames_eq {first : Option ℕ} {fuel : ℕ}
    (hchain : Chained m.next (frameWord first) deferred)
    (hfuel : deferred.length ≤ fuel) :
    m.deferredFrames fuel first = deferred := by
  induction deferred generalizing first fuel with
  | nil =>
    cases first with
    | none => cases fuel <;> rfl
    | some frame => exact absurd hchain (Nat.succ_ne_zero frame)
  | cons frame rest ih =>
    cases first with
    | none => exact absurd hchain.1 (Nat.succ_ne_zero frame).symm
    | some other =>
      obtain ⟨heq, hrest⟩ := hchain
      obtain rfl := Nat.succ.inj heq
      cases fuel with
      | zero => exact absurd hfuel (Nat.not_succ_le_zero _)
      | succ fuel =>
        rw [deferredFrames]
        congr 1
        refine ih ?_ (Nat.le_of_succ_le_succ hfuel)
        rw [frameWord_named]
        exact hrest

/-- The deferred list is read off the frames' words. -/
theorem Sound.notMem_of_isDeferred (hsound : Sound ram m at' deferred uncounted)
    {index : ℕ}
    (hnot : m.isDeferred ram index = false) : index ∉ deferred := by
  intro hmem
  have hroom : deferred.length ≤ ram.frames := hsound.length_deferred_le
  rw [isDeferred, deferredFrames_eq hsound.chained hroom] at hnot
  rw [contains_eq_mem, decide_eq_false_iff_not] at hnot
  exact hnot hmem

/-- What an idling hart takes: nothing, or the first frame of its pending list. -/
theorem takeOne_cases (allIdle : Bool) : ((m.takeOne h allIdle).2.1 = 0 ∧
        ∃ drainer, (m.takeOne h allIdle).1 = { m with drainer := drainer }) ∨
      ((m.lists h).pending ≠ 0 ∧ (m.takeOne h allIdle).2.1 = (m.lists h).pending ∧
        ∃ drainer, (m.takeOne h allIdle).1 =
          { (m.unpend h).setLists h
              { (m.unpend h).lists h with zeroing := (m.lists h).pending } with
            drainer := drainer }) := by
  rw [takeOne]
  by_cases hframe :
    (if allIdle && (decide (m.drainer = 0) || decide (m.drainer = h + 1)) then
      (m.lists h).pending else 0) = 0
  · left
    simp only [hframe, ne_eq, not_true_eq_false, if_false, false_and]
    exact ⟨trivial, _, rfl⟩
  · right
    have hfree : (allIdle && (decide (m.drainer = 0) || decide (m.drainer = h + 1))) =
        true := by
      by_contra hnot
      exact hframe (if_neg hnot)
    rw [if_pos hfree] at hframe
    simp only [ne_eq, hframe, not_false_eq_true, true_and]
    split_ifs <;> exact ⟨rfl, _, rfl⟩

/-- Between sections, with the lock free, no hart in a loop and nothing staged. -/
theorem Inv.of_unlocked (hsound : ∃ at' deferred, Sound ram m at' deferred 0 ∧
      at' none = [])
    (hlock : m.lock = none) (hstaged : ∀ g, (m.lists g).staged = [])
    (hloops : ∀ g, (m.doing g).inLoop = false) : Inv ram m := by
  refine ⟨hsound, fun g _ => hstaged g, fun g hg => ?_, fun g hg => ?_,
    fun g want hg => ?_⟩
  · rw [hloops g] at hg
    exact absurd hg Bool.false_ne_true
  · rw [hlock] at hg
    exact absurd hg (some_ne_none g).symm
  · have hloop := hloops g
    rw [hg] at hloop
    exact absurd hloop.symm Bool.false_ne_true

section

variable (hinv : Inv ram m)
include hinv

theorem Inv.enter (hlock : m.lock = none) (hrunning : m.doing h = .running) :
    Inv ram (({ m with lock := some h } : Machine harts).commit ram commitMax) ∧
      ∀ frame,
      m.KeptOrFreed (({ m with lock := some h } : Machine harts).commit ram commitMax)
        frame := by
  obtain ⟨at', deferred, hsound, hhands⟩ := hinv.sound
  have hlocked : Sound ram ({ m with lock := some h } : Machine harts) at' deferred 0 :=
    hsound.same ⟨rfl, rfl, rfl, rfl, rfl, rfl⟩ rfl
      (fun p => by cases p <;> rfl) hsound.work
  have hnone : ∀ g, (m.doing g).inLoop = false := by
    intro g
    by_contra hloop
    have hholds := hinv.loops g (by simpa using hloop)
    rw [hlock] at hholds
    exact some_ne_none g hholds.symm
  have hfirst : Inv ram ({ m with lock := some h } : Machine harts) := by
    refine ⟨⟨at', deferred, hlocked, hhands⟩, fun g _ => hinv.staged g ?_,
      fun g hg => ?_,
      fun g hg => ?_, fun g want hg =>
        (hinv.waits g want hg).congr rfl (fun _ => rfl) (fun _ => rfl) rfl⟩
    · rw [hlock]
      exact (some_ne_none g).symm
    · rw [hnone g] at hg
      exact absurd hg Bool.false_ne_true
    · obtain rfl := some.inj hg
      exact Or.inl hrunning
  obtain ⟨committed, hcommitted, hempty, hfreed⟩ :=
    hlocked.commitFrom commitMax (List.finRange harts) hhands
  exact ⟨hfirst.of_section ⟨rfl, hrunning⟩ (kept_commitFrom _ _)
    ⟨committed, deferred, hcommitted, hempty⟩, hfreed⟩

theorem Inv.store {index word : ℕ} (value : ℕ)
    (hstorable : m.Storable ram index word) : Inv ram (m.write index word value) := by
  obtain ⟨at', deferred, hsound, hhands⟩ := hinv.sound
  refine ⟨⟨at', deferred, ?_, hhands⟩, hinv.staged, hinv.loops, hinv.holder,
    fun h want hwant => ?_⟩
  · rcases hstorable.2 with ⟨howner, hflight, hdeferred⟩ | ⟨h, hstaged⟩
    · have hnot : ¬ m.InFlight ram index := fun hin => hflight hin.2
      exact hsound.write value howner (fun p _ => hsound.placed.notMem hnot (some p))
        fun hword => hsound.notMem_of_isDeferred (hdeferred hword)
    · have hplace : at' (some (.stage h)) = (m.lists h).staged :=
        hsound.holds (.stage h)
      rw [← hplace] at hstaged
      refine hsound.write value ?_ ?_ fun _ => hsound.notMem_deferred hstaged
      · rw [(hsound.placed.member_of_mem hstaged).2]
        exact some_ne_none _
      · intro p hopen hmem
        have heq := hsound.placed.unique index _ _ hmem hstaged
        rw [some.inj heq] at hopen
        exact Bool.false_ne_true hopen.symm
  · exact (hinv.waits h want hwant).congr rfl (fun _ => rfl) (fun _ => rfl) rfl

/-- A step of a hart that zeroes a frame outside the lock keeps the invariant. -/
theorem Inv.of_zeroing {doing : Doing}
    (hbusy : (m.doing h).inLoop = false ∧ m.doing h ≠ .running)
    (hnow : m'.doing = update m.doing h doing)
    (hloop : doing.inLoop = false) (hlock : m'.lock = m.lock)
    (hcommitting : m'.committing = m.committing)
    (hpending : ∀ g, (m'.lists g).pending = (m.lists g).pending)
    (hstaged : ∀ g, (m'.lists g).staged = (m.lists g).staged)
    (hinFlight : m'.inFlight = m.inFlight)
    (hsound : ∃ at' deferred, Sound ram m' at' deferred 0 ∧ at' none = []) :
    Inv ram m' := by
  have hne : m.lock ≠ some h := by
    intro hholds
    rcases hinv.holder h hholds with hrunning | hloop
    · exact hbusy.2 hrunning
    · rw [hbusy.1] at hloop
      exact Bool.false_ne_true hloop
  have hfree : (m'.doing h).inLoop = false := by rw [hnow, update_self, hloop]
  have hothers : ∀ g, g ≠ h → m'.doing g = m.doing g := fun g hg => by
    rw [hnow, update_of_ne hg]
  refine ⟨hsound, fun g hg => ?_, fun g hg => ?_, fun g hg => ?_, fun g want hg => ?_⟩
  · rw [hstaged, hinv.staged g (by rwa [hlock] at hg)]
  · by_cases heq : g = h
    · rw [heq, hfree] at hg
      exact absurd hg Bool.false_ne_true
    · rw [hothers g heq] at hg
      rw [hlock, hinv.loops g hg]
  · rw [hlock] at hg
    have heq : g ≠ h := fun heq => hne (heq ▸ hg)
    rw [hothers g heq]
    exact hinv.holder g hg
  · have heq : g ≠ h := by
      rintro rfl
      rw [hg] at hfree
      exact Bool.false_ne_true hfree.symm
    rw [hothers g heq] at hg
    exact (hinv.waits g want hg).congr hcommitting hpending hstaged hinFlight

theorem Inv.zeroStep {spurious : Bool} (hstep : m.zeroStep h spurious = some m') :
    Inv ram m' := by
  obtain ⟨at', deferred, hsound, hhands⟩ := hinv.sound
  have hwork := hsound.work h
  unfold Machine.zeroStep at hstep
  have hbusy : (m.doing h).inLoop = false ∧ m.doing h ≠ .running := by
    cases hdoing : m.doing h <;> simp_all [Doing.inLoop]
  cases hdoing : m.doing h with
  | running => simp [hdoing] at hstep
  | reclaiming want => simp [hdoing] at hstep
  | waiting want => simp [hdoing] at hstep
  | zeroing frame word =>
    rw [hdoing] at hstep hwork
    dsimp only at hstep
    split_ifs at hstep with hword
    · obtain rfl := some.inj hstep
      refine hinv.of_zeroing hbusy rfl rfl rfl rfl (fun _ => rfl) (fun _ => rfl) rfl
        ⟨at', deferred, ?_, hhands⟩
      refine hsound.heldWrite (by rw [hdoing]; rfl) rfl fun i hi hpage => ?_
      rw [write_mem_self]
      by_cases heq : i = word
      · rw [heq, update_self]
      · rw [update_of_ne heq, hwork i (by omega) hpage]
    · obtain rfl := some.inj hstep
      refine hinv.of_zeroing hbusy rfl rfl rfl rfl (fun _ => rfl) (fun _ => rfl) rfl
        ⟨at', deferred, ?_, hhands⟩
      refine hsound.setDoing (by rw [hdoing]; rfl) fun i hi _ => ?_
      exact hwork i (by omega) hi
  | linking frame head =>
    rw [hdoing] at hstep hwork
    obtain rfl := some.inj hstep
    refine hinv.of_zeroing hbusy rfl rfl rfl rfl (fun _ => rfl) (fun _ => rfl) rfl
        ⟨at', deferred, ?_, hhands⟩
    refine hsound.heldWrite (by rw [hdoing]; rfl) rfl ?_
    change ZeroBut _ ∧ _
    rw [write_mem_self]
    exact ⟨zeroBut_update hwork head, update_self _ _ _⟩
  | pushing frame head =>
    rw [hdoing] at hstep hwork
    dsimp only at hstep
    split_ifs at hstep with hexchanged
    · obtain rfl := some.inj hstep
      obtain ⟨pushed, hpushed, hempty⟩ :=
        hsound.push hhands (by rw [hdoing, hexchanged.1])
      exact hinv.of_zeroing hbusy rfl rfl rfl rfl
        (setLists_field h Lists.pending _ (by rfl))
        (setLists_field h Lists.staged _ (by rfl)) rfl
        ⟨pushed, deferred, hpushed, hempty⟩
    · obtain rfl := some.inj hstep
      exact hinv.of_zeroing hbusy rfl rfl rfl rfl (fun _ => rfl) (fun _ => rfl) rfl
        ⟨at', deferred, hsound.setDoing (by rw [hdoing]; rfl) hwork.1, hhands⟩
  | pushed frame =>
    rw [hdoing] at hstep
    obtain rfl := some.inj hstep
    refine hinv.of_zeroing hbusy rfl rfl rfl rfl
      (setLists_field h Lists.pending _ (by rfl))
      (setLists_field h Lists.staged _ (by rfl)) rfl
      ⟨at', deferred, ?_, hhands⟩
    have hcleared : Sound ram (m.setLists h { m.lists h with zeroing := 0 }) at'
        deferred 0 :=
      hsound.same ⟨rfl, rfl, rfl, rfl, rfl, rfl⟩ rfl (head_setZeroing h 0) hsound.work
    exact hcleared.setDoing (by
      change Doing.held .running = (m.doing h).held
      rw [hdoing]
      rfl) trivial

theorem Inv.reclaim {want : Want} (hdoing : m.doing h = .reclaiming want) :
    Inv ram (m.reclaimTurn ram h want).1 ∧
      Answers ram m (m.reclaimTurn ram h want).1 (some want)
        (m.reclaimTurn ram h want).2 ∧
      m.Spared (m.reclaimTurn ram h want).1 (m.reclaimTurn ram h want).2 := by
  obtain ⟨at', deferred, hsound, hhands⟩ := hinv.sound
  have hlock : m.lock = some h := hinv.loops h (by rw [hdoing]; rfl)
  have hothers : ∀ g, g ≠ h → (m.lists g).staged = [] := fun g hg =>
    hinv.staged g fun hholds => hg (some.inj (hholds.symm.trans hlock))
  obtain ⟨⟨at'', hturned, hempty⟩, hwent, hthen, hanswers, hspared⟩ :=
    reclaimTurn_spec hsound hhands hdoing hothers
  refine ⟨hinv.of_went hlock hwent ⟨at'', deferred, hturned, hempty⟩ ?_ ?_,
    hanswers, hspared⟩
  · rcases hthen with hrunning | hloop | ⟨hwaiting, -⟩
    · exact Or.inl hrunning
    · exact Or.inr (by rw [hloop]; rfl)
    · exact Or.inr (by rw [hwaiting]; rfl)
  · intro other hother
    rcases hthen with hrunning | hloop | ⟨-, hdrained⟩
    · exact Doing.noConfusion (hother.symm.trans hrunning)
    · exact Doing.noConfusion (hother.symm.trans hloop)
    · exact hdrained

theorem Inv.wake {want : Want} (hdoing : m.doing h = .waiting want) :
    Inv ram (m.setDoing h (.reclaiming want)) := by
  obtain ⟨at', deferred, hsound, hhands⟩ := hinv.sound
  have hlock : m.lock = some h := hinv.loops h (by rw [hdoing]; rfl)
  have hnow : (m.setDoing h (.reclaiming want)).doing h = .reclaiming want :=
    update_self _ _ _
  refine hinv.of_went hlock ((Kept.refl h m).went _)
    ⟨at', deferred, hsound.setDoing (by rw [hdoing]; rfl) trivial, hhands⟩ ?_
    fun other hother => ?_
  · exact Or.inr (by rw [hnow]; rfl)
  · exact Doing.noConfusion (hother.symm.trans hnow)

section

variable (hsection : m.InSection h)
include hsection

theorem Inv.endSection_lists (g : Fin harts) :
    ((m.endSection h).lists g).staged = [] := by
  by_cases hg : g = h
  · rw [hg]
    exact endSection_staged
  · refine (kept_endSection.staged g hg).trans (hinv.staged g fun hlock => hg ?_)
    exact some.inj (hlock.symm.trans hsection.1)

theorem Inv.endSection_doing (g : Fin harts) :
    ((m.endSection h).doing g).inLoop = false := by
  rw [kept_endSection.doing]
  by_contra hloop
  have hlock := hinv.loops g (by simpa using hloop)
  obtain rfl := some.inj (hlock.symm.trans hsection.1)
  exact hloop (by rw [hsection.2]; rfl)

theorem Inv.idle (allIdle : Bool) : Inv ram (m.idle h allIdle) := by
  obtain ⟨at', deferred, hsound, hhands⟩ := hinv.sound
  obtain ⟨ended, hended, hsame⟩ := hsound.endSection h
  have hstaged := hinv.endSection_lists hsection
  have hidle : (m.endSection h).doing h = .running := by
    rw [kept_endSection.doing, hsection.2]
  rw [Machine.idle]
  rcases @takeOne_cases harts (m.endSection h) h allIdle with
    ⟨hframe, drainer, htaken⟩ | ⟨hpending, hframe, drainer, htaken⟩
  · rw [hframe, htaken]
    refine Inv.of_unlocked ⟨ended, deferred, ?_, hsame.trans hhands⟩ rfl hstaged
      (hinv.endSection_doing hsection)
    exact hended.same ⟨rfl, rfl, rfl, rfl, rfl, rfl⟩ rfl
      (fun p => by cases p <;> rfl) hended.work
  · rw [hframe, htaken, if_pos hpending]
    obtain ⟨rest, -, hfetched⟩ := hended.unpend hpending
    have hlisted : Sound ram
        { ((m.endSection h).unpend h).setLists h
            { ((m.endSection h).unpend h).lists h with
              zeroing := ((m.endSection h).lists h).pending } with
          drainer := drainer, lock := none }
        _ deferred 0 :=
      hfetched.same ⟨rfl, rfl, rfl, rfl, rfl, rfl⟩ rfl
        (fun p => (head_setZeroing h _ p)) hfetched.work
    have hone : update (update ended (some (.pending h)) rest) none
        ((((m.endSection h).lists h).pending - 1) :: ended none) none =
        [((m.endSection h).lists h).pending - 1] := by
      rw [update_self, hsame, hhands]
    obtain ⟨held, hheld, hempty⟩ := hlisted.hold h hone (by
      change ((m.endSection h).doing h).held = []
      rw [hidle]
      rfl)
    refine Inv.of_unlocked ⟨held, deferred, hheld, hempty⟩ rfl (fun g => ?_) fun g => ?_
    · have hunpended : (((m.endSection h).unpend h).lists g).staged = [] :=
        (setLists_field h Lists.staged _ (by rfl) g).trans (hstaged g)
      exact (setLists_field h Lists.staged _ (by rfl) g).trans hunpended
    · by_cases hg : g = h
      · rw [hg, setDoing_doing, update_self]
        rfl
      · rw [setDoing_doing, update_of_ne hg]
        exact hinv.endSection_doing hsection g

theorem Inv.leave : Inv ram { m.endSection h with lock := none } := by
  obtain ⟨at', deferred, hsound, hhands⟩ := hinv.sound
  obtain ⟨ended, hended, hsame⟩ := hsound.endSection h
  refine Inv.of_unlocked ⟨ended, deferred, ?_, hsame.trans hhands⟩ rfl
    (hinv.endSection_lists hsection) (hinv.endSection_doing hsection)
  exact hended.same ⟨rfl, rfl, rfl, rfl, rfl, rfl⟩ rfl
    (fun p => by cases p <;> rfl) hended.work

theorem Inv.alloc (want : Want) : Inv ram (m.alloc ram h want).1 ∧
      Answers ram m (m.alloc ram h want).1 (some want) (m.alloc ram h want).2 ∧
      m.Spared (m.alloc ram h want).1 (m.alloc ram h want).2 := by
  obtain ⟨at', deferred, hsound, hhands⟩ := hinv.sound
  obtain ⟨hallocated, hwent, hdoing, hanswers, hspared⟩ :=
    alloc_spec hsound hsection.2 want
  refine ⟨hinv.of_went hsection.1 hwent ⟨at', deferred, hallocated, hhands⟩ ?_ ?_,
    hanswers,
    hspared⟩
  · exact hdoing.imp_right fun hloop => by rw [hloop]; rfl
  · intro other hother
    rcases hdoing with hrunning | hloop
    · exact Doing.noConfusion (hother.symm.trans hrunning)
    · exact Doing.noConfusion (hother.symm.trans hloop)

/-- A frame that may be given up is retired. -/
theorem Inv.retire {index : ℕ}
    (hloose : m.Loose ram index) (shot : Option ℕ) :
    Inv ram (m.retire ram h index shot) := by
  obtain ⟨at', deferred, hsound, hhands⟩ := hinv.sound
  obtain ⟨hindex, howner, hdeferred⟩ := hloose
  obtain ⟨at'', hretired, hempty⟩ := hsound.retire h shot hhands hindex howner
    (hsound.notMem_of_isDeferred hdeferred)
  exact hinv.of_section hsection (kept_retire index shot)
    ⟨at'', deferred, hretired, hempty⟩

theorem Inv.own {index : ℕ} {owner : Owner}
    (hloose : m.Loose ram index) (howner : owner ≠ .inFlight) :
    Inv ram (m.setOwner ram index (some owner)) := by
  obtain ⟨at', deferred, hsound, hhands⟩ := hinv.sound
  exact hinv.of_section hsection (kept_setOwner index _) ⟨at', deferred,
    hsound.own hloose.1 hloose.2.1 howner (hsound.notMem_of_isDeferred hloose.2.2),
    hhands⟩

theorem Inv.kernelFrame {index : ℕ}
    (hfound : findFree ram.frames ram.levels m.bits true = some index) :
    Inv ram (m.setOwner ram index (some (.process kernelPid))) := by
  obtain ⟨at', deferred, hsound, hhands⟩ := hinv.sound
  obtain ⟨hindex, hfree, -⟩ := findFree_some ram.topped hsound.exact hfound
  have hnone : m.owner index = none := isNone_iff_eq_none.1 hfree
  refine hinv.of_section hsection (kept_setOwner index _) ⟨at', deferred,
    hsound.own hindex ?_ Owner.noConfusion (hsound.notMem_deferred_of_free hnone),
    hhands⟩
  rw [hnone]
  exact (some_ne_none _).symm

theorem Inv.deferring (deferring : Bool) :
    Inv ram { m with deferring := deferring } := by
  obtain ⟨at', deferred, hsound, hhands⟩ := hinv.sound
  exact hinv.of_section hsection ⟨rfl, rfl, fun _ _ => rfl⟩ ⟨at', deferred,
    hsound.same ⟨rfl, rfl, rfl, rfl, rfl, rfl⟩ rfl (fun p => by cases p <;> rfl)
      hsound.work, hhands⟩

theorem Inv.releaseObject {frame : ℕ}
    (hloose : m.Loose ram frame) (howner : m.owner frame = some .object) :
    Inv ram (m.releaseObjectFrame ram h frame) := by
  rw [releaseObjectFrame]
  split_ifs
  · obtain ⟨at', deferred, hsound, hhands⟩ := hinv.sound
    exact hinv.of_section hsection ⟨rfl, rfl, fun _ _ => rfl⟩ ⟨at', frame :: deferred,
      hsound.defer hloose.1 howner (hsound.notMem_of_isDeferred hloose.2.2), hhands⟩
  · exact hinv.retire hsection hloose none

theorem Inv.freeDeferred : Inv ram (m.freeDeferredFrames ram h) := by
  obtain ⟨at', deferred, hsound, hhands⟩ := hinv.sound
  obtain ⟨at'', hfreed, hempty⟩ := hsound.freeDeferredFrames h hhands
  exact hinv.of_section hsection kept_freeDeferredFrames ⟨at'', [], hfreed, hempty⟩

theorem Inv.retireObjects {objects : List ℕ} (hnodup : objects.Nodup)
    (hobjects : ∀ frame ∈ objects, m.Loose ram frame ∧ m.owner frame = some .object) :
    Inv ram (m.retireObjects ram h objects) := by
  obtain ⟨at', deferred, hsound, hhands⟩ := hinv.sound
  obtain ⟨at'', hretired, hempty⟩ :=
    hsound.retireObjects h hhands hnodup fun frame hframe =>
    ⟨(hobjects frame hframe).1.1, (hobjects frame hframe).2,
      hsound.notMem_of_isDeferred (hobjects frame hframe).1.2.2⟩
  exact hinv.of_section hsection (kept_retireObjects objects)
    ⟨at'', deferred, hretired, hempty⟩

theorem Inv.shoot (pid : ℕ) : Inv ram (m.shoot h pid) := by
  obtain ⟨at', deferred, hsound, hhands⟩ := hinv.sound
  obtain ⟨at'', hshot, hsame⟩ := hsound.shot h pid
  exact hinv.of_section hsection (kept_shot pid)
    ⟨at'', deferred, hshot, hsame.trans hhands⟩

end

/-- Each step keeps the invariant, an allocation's answer is right, and owners change
only as the operation says. -/
theorem Inv.step {op : Op harts} {event : Event}
    (hstep : m.step ram op = some (m', event)) :
    Inv ram m' ∧ Answers ram m m' (op.want m) event ∧ op.Moves ram m m' event := by
  have hquiet : ∀ {next : Machine harts}, Inv ram next → op.Moves ram m next .quiet →
      some (next, Event.quiet) = some (m', event) →
      Inv ram m' ∧ Answers ram m m' (op.want m) event ∧ op.Moves ram m m' event := by
    intro next hnext hmoves heq
    obtain ⟨rfl, rfl⟩ := Prod.mk.inj (some.inj heq)
    exact ⟨hnext, trivial, hmoves⟩
  have hguarded : ∀ {allowed : Prop} [Decidable allowed] {next : Machine harts},
      (if allowed then some (next, Event.quiet) else none) = some (m', event) →
      (allowed → Inv ram next) → (allowed → op.Moves ram m next .quiet) →
      Inv ram m' ∧ Answers ram m m' (op.want m) event ∧ op.Moves ram m m' event := by
    intro allowed _ next hif hnext hmoves
    split_ifs at hif with hallowed
    exact hquiet (hnext hallowed) (hmoves hallowed) hif
  cases op with
  | enter h =>
    exact hguarded hstep (fun hguard => (hinv.enter hguard.1 hguard.2).1)
      fun hguard frame => Or.inr ((hinv.enter hguard.1 hguard.2).2 frame)
  | leave h =>
    exact hguarded hstep (fun hguard => hinv.leave hguard) fun _ => endSection_tables.2
  | idle h allIdle =>
    exact hguarded hstep (fun hguard => hinv.idle hguard allIdle) fun _ =>
      idle_owner allIdle
  | alloc h want =>
    rw [Machine.step] at hstep
    split_ifs at hstep with hguard
    have hnext := hinv.alloc hguard want
    rwa [some.inj hstep] at hnext
  | reclaim h =>
    rw [Machine.step] at hstep
    split at hstep
    · rename_i want hdoing
      have hnext := hinv.reclaim hdoing
      rw [some.inj hstep] at hnext
      rwa [Op.want, hdoing]
    · exact absurd hstep (some_ne_none _).symm
  | wake h =>
    rw [Machine.step] at hstep
    split at hstep
    · rename_i want hdoing
      split_ifs at hstep
      exact hquiet (hinv.wake hdoing) rfl hstep
    · exact absurd hstep (some_ne_none _).symm
  | release h index pid =>
    exact hguarded hstep (fun hguard => hinv.retire hguard.1 hguard.2.1 (some pid))
      fun _ => retire_owner index (some pid)
  | retire h index =>
    exact hguarded hstep (fun hguard => hinv.retire hguard.1 hguard.2.1 none)
      fun _ => retire_owner index none
  | shoot h pid =>
    exact hguarded hstep (fun hguard => hinv.shoot hguard pid) fun _ =>
      (shot_tables pid).2
  | setOwner h index owner =>
    exact hguarded hstep (fun hguard => hinv.own hguard.1 hguard.2.1 hguard.2.2)
      fun _ => setOwner_owner m index (some owner)
  | kernelFrame h =>
    rw [Machine.step] at hstep
    split_ifs at hstep with hguard
    obtain ⟨index, hfound, heq⟩ := map_eq_some_iff.1 hstep
    obtain ⟨at', deferred, hsound, -⟩ := hinv.sound
    obtain ⟨-, hfree, -⟩ := findFree_some ram.topped hsound.exact hfound
    exact hquiet (hinv.kernelFrame hguard hfound)
      ⟨index, isNone_iff_eq_none.1 hfree, setOwner_owner m index _⟩ (congrArg some heq)
  | beginDestruction h =>
    exact hguarded hstep (fun hguard => hinv.deferring hguard true) fun _ => rfl
  | endDestruction h =>
    exact hguarded hstep (fun hguard => hinv.deferring hguard false) fun _ => rfl
  | releaseObject h frame =>
    exact hguarded hstep
      (fun hguard => hinv.releaseObject hguard.1 hguard.2.1 hguard.2.2)
      fun _ => releaseObjectFrame_owner frame
  | freeDeferred h =>
    exact hguarded hstep (fun hguard => hinv.freeDeferred hguard) fun _ =>
      freeDeferredFrames_owner
  | retireObjects h objects =>
    exact hguarded hstep
      (fun hguard => hinv.retireObjects hguard.1 hguard.2.1 hguard.2.2)
      fun _ => retireObjects_owner objects
  | store index word value =>
    exact hguarded hstep (fun hguard => hinv.store value hguard) fun _ => rfl
  | zero h spurious =>
    obtain ⟨next, hzeroed, heq⟩ := map_eq_some_iff.1 hstep
    exact hquiet (hinv.zeroStep hzeroed) (zeroStep_owner hzeroed) (congrArg some heq)

end

theorem isDirty_boot (owner : ℕ → Option Owner) (mem : ℕ → ℕ → ℕ) {index : ℕ}
    (hindex : index < ram.frames) :
    (boot ram harts owner mem).isDirty index = (owner index).isNone := by
  have hlevels : 0 < ram.levels := ram.topped.1
  have hword : index / 64 < entries ram.frames (0 + 1) :=
    div_lt_entries (show index < entries ram.frames 0 from hindex)
  have hbit := @exact_build ram.frames (fun i => (owner i).isNone) ram.levels 0
    hlevels index hword
  rw [due, decide_eq_true hindex, Bool.true_and] at hbit
  rw [← hbit, bit, word]
  change (if index / 64 < words ram.frames 0 then _ else _ : BitVec 64).getLsbD _ = _
  rw [if_pos (by rwa [words_eq])]

theorem Inv.boot (owner : ℕ → Option Owner) (mem : ℕ → ℕ → ℕ)
    (howner : ∀ index, owner index ≠ some .inFlight) :
    Inv ram (Machine.boot ram harts owner mem) := by
  have hsound : Sound ram (Machine.boot ram harts owner mem) (fun _ => []) [] 0 := by
    constructor
    · exact exact_build ram.levels
    · intro index hindex hdirty
      rw [isDirty_boot owner mem hindex] at hdirty
      exact isNone_iff_eq_none.1 hdirty
    · intro index hindex hnone hclean
      rw [isDirty_boot owner mem hindex] at hclean
      change owner index = none at hnone
      rw [hnone] at hclean
      exact absurd hclean.symm Bool.false_ne_true
    · intro p
      cases p <;> rfl
    · intro p _ frame hframe
      exact absurd hframe not_mem_nil
    · intro h
      trivial
    · refine ⟨fun frame => ⟨fun hflight => absurd hflight.2 (howner frame), ?_⟩,
        fun _ => nodup_nil, fun _ _ _ hframe => absurd hframe not_mem_nil⟩
      rintro ⟨_, hframe⟩
      exact absurd hframe not_mem_nil
    · rfl
    · exact nodup_nil
    · intro frame hframe
      exact absurd hframe not_mem_nil
    · have hnone : (List.range ram.frames).countP (fun index => owner index =
          some .inFlight) = 0 := by
        rw [countP_eq_zero]
        intro index _
        simpa using howner index
      change ((0 : ℕ) : ℤ) + 0 = ((List.range ram.frames).countP
        (fun index => owner index = some .inFlight) : ℕ)
      rw [hnone]
      rfl
    · rfl
  refine ⟨⟨_, [], hsound, rfl⟩, fun _ _ => rfl, fun _ hloop => ?_, fun _ hlock => ?_,
    fun _ _ hwait => Doing.noConfusion hwait⟩
  · exact absurd hloop Bool.false_ne_true
  · exact absurd hlock (some_ne_none _).symm

theorem Reachable.inv (hreach : Reachable ram m) : Inv ram m := by
  induction hreach with
  | boot owner mem howner => exact Inv.boot owner mem howner
  | step _ hstep ih => exact (ih.step hstep).1

variable (ram) in
/-- Every frame in flight is in one place, `inFlight` is their number, every level of
the bitmap says what is due, no assertion has failed, and an allocation that waits for a
frame to be zeroed waits for a hart that has one. -/
structure Accounted (m : Machine harts) : Prop where
  places : ∃ places : Place harts → List ℕ,
    (∀ p, m.Holds p (places p)) ∧ Placed (m.InFlight ram) places
  counted : m.inFlight = (List.range ram.frames).countP fun index =>
    m.owner index = some .inFlight
  exact : Exact ram.frames ram.levels (fun index => (m.owner index).isNone) m.bits
  running : m.stopped = false
  waits : ∀ h want, m.doing h = .waiting want → ∃ g, (m.lists g).done ≠ 0 ∨
    (m.doing g).held ≠ []

theorem Inv.accounted (hinv : Inv ram m) : Accounted ram m := by
  obtain ⟨at', deferred, hsound, hhands⟩ := hinv.sound
  have hplaced : Placed (m.InFlight ram) fun p => at' (some p) := by
    refine ⟨fun frame => ?_, fun p => hsound.placed.nodup (some p),
      fun frame p q hp hq =>
      some.inj (hsound.placed.unique frame _ _ hp hq)⟩
    rw [hsound.placed.mem_iff]
    constructor
    · rintro ⟨_ | p, hmem⟩
      · rw [hhands] at hmem
        exact absurd hmem not_mem_nil
      · exact ⟨p, hmem⟩
    · rintro ⟨p, hmem⟩
      exact ⟨some p, hmem⟩
  have hcounted : m.inFlight =
      (List.range ram.frames).countP fun index => m.owner index = some .inFlight := by
    have hcount := hsound.counted
    omega
  refine ⟨⟨_, hsound.holds, hplaced⟩, hcounted, hsound.exact, hsound.running,
    fun h want hwait => ?_⟩
  obtain ⟨hcommitting, hpending, hstaged, hflight⟩ := hinv.waits h want hwait
  rw [hcounted, ← Nat.pos_iff_ne_zero, countP_pos_iff] at hflight
  obtain ⟨frame, hframe, hin⟩ := hflight
  -- Some frame is in flight; it is not staged, pending or being committed.
  obtain ⟨p, hmem⟩ := (hplaced.mem_iff frame).1 ⟨mem_range.1 hframe, by simpa using hin⟩
  have hholds := hsound.holds p
  cases p with
  | stage g =>
    have hlist : at' (some (.stage g)) = (m.lists g).staged := hholds
    rw [hlist, hstaged] at hmem
    exact absurd hmem not_mem_nil
  | pending g =>
    have hchain : Chained m.next (m.lists g).pending (at' (some (.pending g))) := hholds
    rw [hpending] at hchain
    rw [hchain.nil_of_zero] at hmem
    exact absurd hmem not_mem_nil
  | committing =>
    have hchain : Chained m.next (frameWord m.committing) (at' (some .committing)) :=
      hholds
    rw [hcommitting] at hchain
    rw [hchain.nil_of_zero] at hmem
    exact absurd hmem not_mem_nil
  | zeroing g =>
    refine ⟨g, Or.inr fun hnone => ?_⟩
    rw [hsound.held g, hnone] at hmem
    exact absurd hmem not_mem_nil
  | done g =>
    refine ⟨g, Or.inl fun hzero => ?_⟩
    have hchain : Chained m.next (m.lists g).done (at' (some (.done g))) := hholds
    rw [hzero] at hchain
    rw [hchain.nil_of_zero] at hmem
    exact absurd hmem not_mem_nil

/-- In every run, for any number of harts: no frame in flight is lost or in two places,
the count and the bitmap are exact before and after each step, owners change only as the
operation says, and every allocation gives the lowest free frame, zero in every word, or
fails because the budget does not pay, the frames found going back, or because no frame
is free or in flight. -/
theorem frames_zero_and_none_lost (hreach : Reachable ram m) :
    Accounted ram m ∧ ∀ (op : Op harts) (m' : Machine harts) (event : Event),
      m.step ram op = some (m', event) →
        Accounted ram m' ∧ Answers ram m m' (op.want m) event ∧
        op.Moves ram m m' event := by
  refine ⟨hreach.inv.accounted, fun op m' event hstep => ?_⟩
  obtain ⟨hinv, hanswers, hmoves⟩ := hreach.inv.step hstep
  exact ⟨hinv.accounted, hanswers, hmoves⟩

variable (ram) in
/-- The state after the operations that can happen, the others left out. -/
def after (m : Machine harts) (ops : List (Op harts)) : Machine harts :=
  ops.foldl (fun m op => ((m.step ram op).map Prod.fst).getD m) m

theorem Reachable.after (hreach : Reachable ram m) (ops : List (Op harts)) :
    Reachable ram (m.after ram ops) := by
  induction ops generalizing m with
  | nil => exact hreach
  | cons op rest ih =>
    refine ih ?_
    dsimp only
    cases hstep : m.step ram op with
    | none => exact hreach
    | some result => exact Reachable.step hreach hstep

/-- Two frames of RAM. -/
def twoFrames : Ram := ⟨2, 1, Nat.one_pos, rfl⟩

/-- Both frames go to processes, the first is written and given up by the hart that
leaves, and the second hart asks for a page: it takes the other's pending frame in a
turn of the waiting loop. -/
def stolenFrame : List (Op 2) :=
  [.enter 0, .alloc 0 (.page 2 true), .alloc 0 (.page 3 true), .store 0 5 9,
    .release 0 0 2,
    .leave 0, .enter 1, .alloc 1 (.page 3 true), .reclaim 1]

/-- Two harts, RAM full of sevens. -/
def twoHarts : Machine 2 := boot twoFrames 2 (fun _ => none) fun _ _ => 7

theorem twoHarts_reachable (ops : List (Op 2)) :
    Reachable twoFrames (twoHarts.after twoFrames ops) :=
  (Reachable.boot _ _ fun _ => (some_ne_none _).symm).after ops

/-- A frame that one process wrote and gave up is zero when the next has it. -/
theorem stolenFrame_allocated : ∃ m' : Machine 2,
    (twoHarts.after twoFrames stolenFrame).step twoFrames (.reclaim 1) =
        some (m', .allocated 0) ∧
      Zero (m'.mem 0) ∧ m'.owner 0 = some (.process 3) ∧ Accounted twoFrames m' := by
  have hevent : ((twoHarts.after twoFrames stolenFrame).step twoFrames (.reclaim 1)).map
      Prod.snd = some (.allocated 0) := by
    decide +kernel
  obtain ⟨⟨m', event⟩, hstep, rfl⟩ := map_eq_some_iff.1 hevent
  obtain ⟨-, hall⟩ := frames_zero_and_none_lost (twoHarts_reachable stolenFrame)
  obtain ⟨haccounted, hanswers, -⟩ := hall _ _ _ hstep
  have hwant : (Op.want (twoHarts.after twoFrames stolenFrame) (.reclaim 1)) =
      some (.page 3 true) := by
    decide +kernel
  rw [hwant] at hanswers
  exact ⟨m', hstep, hanswers.2.1, (some.inj hanswers.2.2.2.1).symm, haccounted⟩

/-- A page the budget does not pay for is refused with `NoFrame` while a frame is
free. -/
theorem unpaid_page_noFrame :
    Reachable twoFrames (twoHarts.after twoFrames [.enter 0, .alloc 0 (.page 2 true)]) ∧
    ((twoHarts.after twoFrames [.enter 0, .alloc 0 (.page 2 true)]).step twoFrames
      (.alloc 0 (.page 3 false))).map Prod.snd = some .noFrame ∧
    (twoHarts.after twoFrames [.enter 0, .alloc 0 (.page 2 true)]).owner 1 = none := by
  refine ⟨twoHarts_reachable _, ?_, ?_⟩
  · decide +kernel
  · decide +kernel

end Machine

end Redoubt.Frames
