import Redoubt.Frames.Operations

/-!
# Allocations and the zeroing of idle harts

An allocation takes the lowest free frame, or takes turns of the waiting loop until one
is given back; an idle hart zeroes the frame it took and pushes it onto its done list.
-/

namespace Redoubt.Frames

open Function List Option

namespace Machine

variable {harts : ℕ} {ram : Ram} {m m' : Machine harts}
variable {at' : Option (Place harts) → List ℕ} {deferred : List ℕ} {uncounted : ℤ}
variable {h : Fin harts}

/-! ## Allocations -/

namespace Sound

theorem notMem_deferred_of_free (hsound : Sound ram m at' deferred uncounted)
    {index : ℕ}
    (hfree : m.owner index = none) : index ∉ deferred := by
  intro hmem
  exact some_ne_none _ ((hsound.objects index hmem).2.symm.trans hfree)

/-- A free frame is taken zero. -/
theorem take (hsound : Sound ram m at' deferred uncounted) {index : ℕ} {owner : Owner}
    (hindex : index < ram.frames) (hfree : m.owner index = none)
    (howner : owner ≠ .inFlight) :
    Sound ram (m.take ram index owner) at' deferred uncounted ∧
      Zero ((m.take ram index owner).mem index) := by
  have hdeferred := hsound.notMem_deferred_of_free hfree
  have hnot : ∀ {m' : Machine harts}, m'.owner = m.owner →
      m'.owner index ≠ some .inFlight := by
    intro m' hsame
    rw [hsame, hfree]
    exact (some_ne_none _).symm
  rw [Machine.take]
  cases hdirty : m.isDirty index with
  | true =>
    have hzeroed := hsound.zeroFree hfree
    refine ⟨hzeroed.own hindex (hnot rfl) howner hdeferred, ?_⟩
    rw [(setOwner_same _ _ _).1]
    exact zero_mem_self index
  | false =>
    refine ⟨hsound.own hindex (hnot rfl) howner hdeferred, ?_⟩
    rw [(setOwner_same _ _ _).1]
    exact hsound.clean index hindex hfree hdirty

end Sound

theorem take_owner (index : ℕ) (owner : Owner) :
    (m.take ram index owner).owner = update m.owner index (some owner) := by
  rw [take, setOwner_owner]
  split_ifs <;> rfl

theorem kept_take (index : ℕ) (owner : Owner) : Kept h m (m.take ram index owner) := by
  refine Kept.trans ?_ (kept_setOwner index _)
  split_ifs
  · exact ⟨rfl, rfl, fun _ _ => rfl⟩
  · exact Kept.refl h m

end Machine

/-- What the operation asks a frame for, if it is an allocation. -/
def Op.want {harts : ℕ} (m : Machine harts) : Op harts → Option Want
  | .alloc _ want => some want
  | .reclaim h =>
    match m.doing h with
    | .reclaiming want => some want
    | _ => none
  | _ => none

theorem Want.owner_ne_inFlight (want : Want) : want.owner ≠ .inFlight := by
  cases want <;> exact Owner.noConfusion

namespace Machine

variable {harts : ℕ} {ram : Ram} {m m' : Machine harts}
variable {at' : Option (Place harts) → List ℕ} {deferred : List ℕ} {uncounted : ℤ}
variable {h : Fin harts}

variable (ram) in
/-- What an allocation for `want` that answers `event` says of the states before and
after it: a frame given was free or in flight, is the wanter's, zero in every word, and
no frame below it is free; none is given where none is free or in flight, or where the
budget does not pay, and then no frame's owner changes but by a commit. -/
def Answers (m m' : Machine harts) (want : Option Want) : Event → Prop
  | .quiet => True
  | .allocated frame =>
    frame < ram.frames ∧ Zero (m'.mem frame) ∧
      (m.owner frame = none ∨ m.owner frame = some .inFlight) ∧
      want.map (fun w => some w.owner) = some (m'.owner frame) ∧
      ∀ lower < frame, m'.owner lower ≠ none
  | .noFrame =>
    (∀ frame, m.KeptOrFreed m' frame) ∧ ((∃ pid, want = some (.page pid false)) ∨
      ∀ frame < ram.frames, m'.owner frame ≠ none ∧ m'.owner frame ≠ some .inFlight)

/-- Every frame but an allocated one keeps its owner, or was in flight and is free. -/
def Spared (m m' : Machine harts) (event : Event) : Prop :=
  ∀ frame, event = .allocated frame ∨ m.KeptOrFreed m' frame

/-- A hart goes on with the frames it has in its hands. -/
theorem Sound.setDoing (hsound : Sound ram m at' deferred uncounted) {doing : Doing}
    (hheld : doing.held = (m.doing h).held) (hwork : doing.Work m.mem) :
    Sound ram (m.setDoing h doing) at' deferred uncounted := by
  refine hsound.same ⟨rfl, rfl, rfl, rfl, rfl, rfl⟩ rfl (fun p => ?_) fun g => ?_
  · by_cases hp : p = .zeroing h
    · subst hp
      rw [head, setDoing_doing, update_self, hheld, head]
    · exact head_setDoing h doing hp
  · by_cases hg : g = h
    · subst hg
      rw [setDoing_doing, update_self]
      exact hwork
    · rw [setDoing_doing, update_of_ne hg]
      exact hsound.work g

/-- The end of an allocation that found a frame. -/
theorem finish_spec (hsound : Sound ram m at' deferred 0)
    (hidle : (m.doing h).held = [])
    (want : Want) {index : ℕ}
    (hfound : findFree ram.frames ram.levels m.bits false = some index) :
    Sound ram (m.finish ram h want index).1 at' deferred 0 ∧
      Went h m (m.finish ram h want index).1 ∧
      (m.finish ram h want index).1.doing h = .running ∧
      Answers ram m (m.finish ram h want index).1 (some want)
        (m.finish ram h want index).2 ∧
      m.Spared (m.finish ram h want index).1 (m.finish ram h want index).2 := by
  obtain ⟨hindex, hfree, hleast⟩ := findFree_some ram.topped hsound.exact hfound
  have hnone : m.owner index = none := isNone_iff_eq_none.1 hfree
  obtain ⟨htaken, hzero⟩ := hsound.take hindex hnone want.owner_ne_inFlight
  have hwent : Went h m ((m.take ram index want.owner).setDoing h .running) :=
    (kept_take index _).went _
  have hsame : (m.take ram index want.owner).doing = m.doing :=
    (kept_take index want.owner : Kept h m _).doing
  have hdone := @Sound.setDoing harts ram _ at' deferred 0 h htaken .running
    (by rw [hsame, hidle]; rfl) trivial
  have howner : ((m.take ram index want.owner).setDoing h .running).owner =
      update m.owner index (some want.owner) := take_owner index want.owner
  have hrunning : ((m.take ram index want.owner).setDoing h .running).doing h =
      .running :=
    update_self _ _ _
  have hgiven : Answers ram m ((m.take ram index want.owner).setDoing h .running)
      (some want)
      (.allocated index) := by
    refine ⟨hindex, hzero, Or.inl hnone, ?_, fun lower hlower => ?_⟩
    · rw [howner, update_self]
      rfl
    · rw [howner, update_of_ne (ne_of_lt hlower)]
      have hleast' := hleast rfl lower hlower
      rwa [isNone_eq_false_iff, isSome_iff_ne_none] at hleast'
  have hspared : m.Spared ((m.take ram index want.owner).setDoing h .running)
      (.allocated index) := by
    intro frame
    by_cases hframe : frame = index
    · exact Or.inl (by rw [hframe])
    · exact Or.inr (Or.inl (by rw [howner, update_of_ne hframe]))
  cases want with
  | object => exact ⟨hdone, hwent, hrunning, hgiven, hspared⟩
  | page pid pays =>
    cases pays with
    | true => exact ⟨hdone, hwent, hrunning, hgiven, hspared⟩
    | false =>
      have hback : (m.finish ram h (.page pid false) index).1.owner = m.owner := by
        change (Machine.setOwner ram _ index none).owner = _
        rw [setOwner_owner, howner, update_idem, ← hnone, update_eq_self]
      have hkept := keptOrFreed_of_eq hback
      refine ⟨hdone.disown hindex ?_ hzero (hsound.notMem_deferred_of_free hnone),
        hwent.trans (kept_setOwner index none).toWent, ?_, ⟨hkept, Or.inl ⟨pid, rfl⟩⟩,
        fun frame => Or.inr (hkept frame)⟩
      · rw [howner, update_self]
        exact fun heq => Owner.noConfusion (some.inj heq)
      · change ((Machine.setOwner ram _ index none).doing h) = _
        rw [(setOwner_same _ _ _).2.2.1]
        exact hrunning

/-- What a hart in `wait_done` waits for: every frame in flight is being zeroed or
done. -/
structure Drained (m : Machine harts) : Prop where
  committing : m.committing = none
  pending : ∀ g, (m.lists g).pending = 0
  staged : ∀ g, (m.lists g).staged = []
  inFlight : m.inFlight ≠ 0

theorem Drained.congr (hdrained : m.Drained)
    (hcommitting : m'.committing = m.committing)
    (hpending : ∀ g, (m'.lists g).pending = (m.lists g).pending)
    (hstaged : ∀ g, (m'.lists g).staged = (m.lists g).staged)
    (hinFlight : m'.inFlight = m.inFlight) : m'.Drained where
  committing := hcommitting.trans hdrained.committing
  pending g := (hpending g).trans (hdrained.pending g)
  staged g := (hstaged g).trans (hdrained.staged g)
  inFlight := by rw [hinFlight]; exact hdrained.inFlight

/-- No pending list has a frame when none is popped. -/
theorem pending_of_popPending (hnone : m.popPending h = none) (g : Fin harts) :
    (m.lists g).pending = 0 := by
  rw [popPending, map_eq_none_iff, find?_eq_none] at hnone
  have hmem : g ∈ h :: (List.finRange harts).filter (· ≠ h) := by
    by_cases hg : g = h
    · rw [hg]
      exact mem_cons_self
    · exact mem_cons_of_mem _ (mem_filter.2 ⟨mem_finRange g, by simpa using hg⟩)
  simpa using hnone g hmem

theorem popPending_some {popped : Machine harts} {index : ℕ} {g : Fin harts}
    (hsome : m.popPending h = some (popped, index, g)) :
    (m.lists g).pending ≠ 0 ∧ popped = m.unpend g ∧
    index = (m.lists g).pending - 1 := by
  rw [popPending, map_eq_some_iff] at hsome
  obtain ⟨found, hfound, heq⟩ := hsome
  obtain ⟨rfl, hrest⟩ := Prod.mk.inj heq
  obtain ⟨rfl, rfl⟩ := Prod.mk.inj hrest
  exact ⟨by simpa using find?_some hfound, rfl, rfl⟩

/-- The rest of a turn of the waiting loop. -/
theorem reclaimPending_spec (hsound : Sound ram m at' deferred 0)
    (hhands : at' none = [])
    {want : Want} (hdoing : m.doing h = .reclaiming want) (hflight : m.inFlight ≠ 0)
    (hothers : ∀ g, g ≠ h → (m.lists g).staged = []) :
    (∃ at'', Sound ram (m.reclaimPending ram h want) at'' deferred 0 ∧ at'' none = []) ∧
      Went h m (m.reclaimPending ram h want) ∧
      ((m.reclaimPending ram h want).doing h = .reclaiming want ∨
        (m.reclaimPending ram h want).doing h = .waiting want ∧
          (m.reclaimPending ram h want).Drained) ∧
      ∀ frame, m.KeptOrFreed (m.reclaimPending ram h want) frame := by
  obtain ⟨ended, hended, hsame⟩ := hsound.endSection h
  have hkept : Kept h m (m.endSection h) := kept_endSection
  have hdoing' : (m.endSection h).doing h = .reclaiming want := by
    rw [hkept.doing, hdoing]
  have howner : (m.endSection h).owner = m.owner := endSection_tables.2
  unfold reclaimPending
  cases hpop : (m.endSection h).popPending h with
  | none =>
    split_ifs with hcommitting
    · refine ⟨⟨ended, hended.setDoing ?_ trivial, hsame.trans hhands⟩,
        hkept.went _, Or.inr ⟨update_self _ _ _, ?_⟩, keptOrFreed_of_eq howner⟩
      · rw [hdoing']
        rfl
      · have hpending := pending_of_popPending hpop
        refine ⟨isNone_iff_eq_none.1 hcommitting, hpending, fun g => ?_, ?_⟩
        · by_cases hg : g = h
          · rw [hg]
            exact endSection_staged
          · exact (hkept.staged g hg).trans (hothers g hg)
        · change (m.endSection h).inFlight ≠ 0
          rwa [endSection_tables.1]
    · exact ⟨⟨ended, hended, hsame.trans hhands⟩, hkept.toWent, Or.inl hdoing',
        keptOrFreed_of_eq howner⟩
  | some result =>
    obtain ⟨popped, index, g⟩ := result
    obtain ⟨hpending, rfl, rfl⟩ := popPending_some hpop
    obtain ⟨rest, hlist, htaken⟩ := hended.unpend hpending
    rw [hsame, hhands] at htaken
    have hmem : ((m.endSection h).lists g).pending - 1 ∈ update
        (update ended (some (.pending g)) rest) none
        [((m.endSection h).lists g).pending - 1] none := by
      exact mem_cons_self
    have hgiven := (htaken.zero hmem).giveBack (update_self _ _ _) (zero_mem_self _)
    have hflight := (htaken.placed.member_of_mem hmem).2
    have hback := @keptOrFreed_giveBack harts ram (((m.endSection h).unpend g).zero
      (((m.endSection h).lists g).pending - 1)) _ hflight
    refine ⟨⟨_, hgiven, update_self _ _ _⟩, ?_, Or.inl ?_, fun frame =>
      (keptOrFreed_of_eq howner frame).trans (hback frame)⟩
    · have hzeroed : Kept h ((m.endSection h).unpend g)
          (((m.endSection h).unpend g).zero (((m.endSection h).lists g).pending - 1)) :=
        ⟨rfl, rfl, fun _ _ => rfl⟩
      exact (((hkept.trans (kept_unpend g)).trans hzeroed).trans
        (kept_giveBack _)).toWent
    · change (Machine.setOwner ram _ _ none).doing h = _
      rw [(setOwner_same _ _ _).2.2.1]
      exact hdoing'

/-- No frame is free or in flight where none is found and none is counted. -/
theorem exhausted (hsound : Sound ram m at' deferred 0)
    (hnone : findFree ram.frames ram.levels m.bits false = none)
    (hflight : m.inFlight = 0) :
    ∀ frame < ram.frames, m.owner frame ≠ none ∧ m.owner frame ≠ some .inFlight := by
  intro frame hframe
  constructor
  · intro hfree
    have hnot := findFree_none ram.topped hsound.exact hnone frame hframe
    rw [hfree] at hnot
    exact absurd hnot (by decide)
  · intro hin
    have hcounted := hsound.counted
    have hzero : (List.range ram.frames).countP (fun i => m.owner i = some .inFlight) =
        0 := by
      omega
    rw [countP_eq_zero] at hzero
    exact hzero frame (mem_range.2 hframe) (by simpa using hin)

/-- An answer from the state after a commit is one from the state before it. -/
theorem Answers.of_commit {m₀ : Machine harts} {want : Option Want} {event : Event}
    (hkept : ∀ frame, m₀.KeptOrFreed m frame)
    (hanswers : Answers ram m m' want event) : Answers ram m₀ m' want event := by
  cases event with
  | quiet => trivial
  | noFrame => exact ⟨fun frame => (hkept frame).trans (hanswers.1 frame), hanswers.2⟩
  | allocated frame =>
    obtain ⟨hframe, hzero, hbefore, hrest⟩ := hanswers
    refine ⟨hframe, hzero, ?_, hrest⟩
    rcases hkept frame with hsame | ⟨hflight, -⟩
    · rwa [hsame] at hbefore
    · exact Or.inr hflight

theorem Spared.of_commit {m₀ : Machine harts} {event : Event}
    (hkept : ∀ frame, m₀.KeptOrFreed m frame) (hspared : m.Spared m' event) :
    m₀.Spared m' event :=
  fun frame => (hspared frame).imp_right (hkept frame).trans

/-- One turn of the waiting loop. -/
theorem reclaimTurn_spec (hsound : Sound ram m at' deferred 0) (hhands : at' none = [])
    {want : Want} (hdoing : m.doing h = .reclaiming want)
    (hothers : ∀ g, g ≠ h → (m.lists g).staged = []) :
    (∃ at'', Sound ram (m.reclaimTurn ram h want).1 at'' deferred 0 ∧ at'' none = []) ∧
      Went h m (m.reclaimTurn ram h want).1 ∧
      ((m.reclaimTurn ram h want).1.doing h = .running ∨
        (m.reclaimTurn ram h want).1.doing h = .reclaiming want ∨
        (m.reclaimTurn ram h want).1.doing h = .waiting want ∧
          (m.reclaimTurn ram h want).1.Drained) ∧
      Answers ram m (m.reclaimTurn ram h want).1 (some want)
        (m.reclaimTurn ram h want).2 ∧
      m.Spared (m.reclaimTurn ram h want).1 (m.reclaimTurn ram h want).2 := by
  obtain ⟨committed, hcommitted, hempty, hfreed⟩ :=
    hsound.commitFrom commitMax (List.finRange harts) hhands
  have hkept : Kept h m (m.commit ram commitMax) := kept_commitFrom _ _
  have hdoing' : (m.commit ram commitMax).doing h = .reclaiming want := by
    rw [hkept.doing, hdoing]
  have hothers' : ∀ g, g ≠ h → ((m.commit ram commitMax).lists g).staged = [] :=
    fun g hg => (hkept.staged g hg).trans (hothers g hg)
  have hcommit : Sound ram (m.commit ram commitMax) committed deferred 0 := hcommitted
  unfold reclaimTurn
  dsimp only
  cases hfound : findFree ram.frames ram.levels (m.commit ram commitMax).bits false with
  | some index =>
    obtain ⟨hfinished, hfinishKept, hrunning, hanswers, hspared⟩ :=
      finish_spec hcommit (by rw [hdoing']; rfl) want hfound
    exact ⟨⟨committed, hfinished, hempty⟩, hkept.toWent.trans hfinishKept,
      Or.inl hrunning,
      hanswers.of_commit hfreed, hspared.of_commit hfreed⟩
  | none =>
    split_ifs with hflight
    · have hall := exhausted hcommit hfound hflight
      exact ⟨⟨committed, hcommit.setDoing (by rw [hdoing']; rfl) trivial, hempty⟩,
        hkept.went _, Or.inl (update_self _ _ _), ⟨hfreed, Or.inr hall⟩,
        fun frame => Or.inr (hfreed frame)⟩
    · obtain ⟨hrest, hrestKept, hrestDoing, hrestFreed⟩ :=
        reclaimPending_spec hcommit hempty hdoing' hflight hothers'
      exact ⟨hrest, hkept.toWent.trans hrestKept, Or.inr hrestDoing, trivial,
        fun frame => Or.inr ((hfreed frame).trans (hrestFreed frame))⟩

/-- `alloc_page` and `alloc_object_frame`, up to the waiting loop. -/
theorem alloc_spec (hsound : Sound ram m at' deferred 0) (hidle : m.doing h = .running)
    (want : Want) :
    Sound ram (m.alloc ram h want).1 at' deferred 0 ∧ Went h m (m.alloc ram h want).1 ∧
      ((m.alloc ram h want).1.doing h = .running ∨
        (m.alloc ram h want).1.doing h = .reclaiming want) ∧
      Answers ram m (m.alloc ram h want).1 (some want) (m.alloc ram h want).2 ∧
      m.Spared (m.alloc ram h want).1 (m.alloc ram h want).2 := by
  unfold alloc
  cases hfound : findFree ram.frames ram.levels m.bits false with
  | some index =>
    obtain ⟨hfinished, hkept, hrunning, hanswers, hspared⟩ :=
      finish_spec hsound (by rw [hidle]; rfl) want hfound
    exact ⟨hfinished, hkept, Or.inl hrunning, hanswers, hspared⟩
  | none =>
    exact ⟨hsound.setDoing (by rw [hidle]; rfl) trivial, (Kept.refl h m).went _,
      Or.inr (update_self _ _ _), trivial, fun _ => Or.inr (Or.inl rfl)⟩

/-! ## The zeroing of an idle hart -/

/-- A hart writes the frame in its hands, and goes on. -/
theorem Sound.heldWrite (hsound : Sound ram m at' deferred uncounted)
    {frame word value : ℕ}
    {doing : Doing} (hheld : (m.doing h).held = [frame]) (hheld' : doing.held = [frame])
    (hwork : doing.Work (m.write frame word value).mem) :
    Sound ram ((m.write frame word value).setDoing h doing) at' deferred uncounted := by
  have hin : frame ∈ at' (some (.zeroing h)) := by
    rw [hsound.held h, hheld]
    exact mem_singleton_self frame
  have hother : ∀ p, p ≠ .zeroing h → ∀ other ∈ at' (some p),
      (m.write frame word value).mem other = m.mem other := by
    intro p hp other hmem
    refine write_mem_of_ne _ _ fun heq => hp ?_
    exact some.inj (hsound.placed.unique other _ _ hmem (heq ▸ hin))
  refine hsound.move ⟨rfl, rfl, rfl, rfl, rfl, rfl⟩ ?_ hsound.placed ?_ ?_ ?_
  · intro other hnot
    exact write_mem_of_ne _ _ fun heq => hnot (heq ▸ hsound.placed.member_of_mem hin)
  · intro p
    by_cases hp : p = .zeroing h
    · subst hp
      change at' (some (.zeroing h)) = _
      rw [setDoing_doing, update_self, hheld', hsound.held h, hheld]
    · refine (hsound.holds p).congr (head_setDoing h doing hp) fun other hmem => ?_
      exact congrFun (hother p hp other hmem) link
  · intro p hzero other hmem
    have hp : p ≠ .zeroing h := by
      rintro rfl
      exact Bool.false_ne_true hzero
    change ZeroBut ((m.write frame word value).mem other)
    rw [hother p hp other hmem]
    exact hsound.zeroed p hzero other hmem
  · intro g
    by_cases hg : g = h
    · subst hg
      rw [setDoing_doing, update_self]
      exact hwork
    · rw [setDoing_doing, update_of_ne hg]
      refine (hsound.work g).congr fun other hmem => ?_
      have hp : Place.zeroing g ≠ .zeroing h := fun heq => hg (Place.zeroing.inj heq)
      exact hother _ hp other (hsound.held g ▸ hmem)

/-- The compare-and-exchange succeeds: the frame is on the done list. -/
theorem Sound.push (hsound : Sound ram m at' deferred uncounted)
    (hhands : at' none = [])
    {frame : ℕ} (hdoing : m.doing h = .pushing frame (m.lists h).done) :
    ∃ at'', Sound ram ((m.setLists h { m.lists h with done := frame + 1 }).setDoing h
        (.pushed frame)) at'' deferred uncounted ∧ at'' none = [] := by
  have hheld : at' (some (.zeroing h)) = [frame] := by
    rw [hsound.held h, hdoing]
    rfl
  have hwork := hsound.work h
  rw [hdoing] at hwork
  obtain ⟨hbut, hlink⟩ := hwork
  have hfetched : Sound ram (m.setDoing h (.pushed frame))
      (update (update at' (some (.zeroing h)) []) none ([frame] ++ at' none))
      deferred uncounted := by
    refine hsound.fetch (.zeroing h) [frame] [] ⟨rfl, rfl, rfl, rfl, rfl, rfl⟩ ?_
      (fun _ _ => rfl)
      (fun p hp => head_setDoing h _ hp) ?_ ?_ ?_
    · rw [hheld, append_nil]
    · change [] = ((m.setDoing h (.pushed frame)).doing h).held
      rw [setDoing_doing, update_self]
      rfl
    · intro g hg
      have hne : g ≠ h := fun heq => hg (by rw [heq])
      rw [setDoing_doing, update_of_ne hne]
    · rintro g ⟨⟩
      rw [setDoing_doing, update_self]
      trivial
  have hdone : Chained m.next (m.lists h).done (at' (some (.done h))) :=
    hsound.holds (.done h)
  have htables : SameTables (m.setDoing h (.pushed frame))
      ((m.setLists h { m.lists h with done := frame + 1 }).setDoing h
        (.pushed frame)) :=
    ⟨rfl, rfl, rfl, rfl, rfl, rfl⟩
  refine ⟨_, hfetched.put (.done h) [frame] [] (frame :: at' (some (.done h))) htables
    ?_
    (fun _ _ => rfl) ?_ ?_ ?_ ?_ (fun _ _ => rfl) nofun, ?_⟩
  · rw [update_self, hhands]
  · intro p hp
    exact head_setDone (m := m.setDoing h (.pushed frame)) h (frame + 1) hp
  · change Chained m.next ((m.setLists h _).lists h).done _
    rw [setLists_self]
    refine ⟨rfl, ?_⟩
    rw [next, hlink]
    exact hdone
  · rw [update_of_ne (some_ne_none _), update_of_ne (by simp), singleton_append]
  · intro _ other hother
    rcases mem_cons.1 hother with rfl | hrest
    · exact hbut
    · exact hsound.zeroed (.done h) rfl other hrest
  · rw [update_of_ne (some_ne_none _).symm, update_self]

end Machine

end Redoubt.Frames
