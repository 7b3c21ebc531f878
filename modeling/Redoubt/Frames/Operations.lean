import Redoubt.Frames.Moves

/-!
# The operations of the lock's holder

Each operation is a sequence of the moves of `Redoubt.Frames.Moves`, so it leaves the
places sound and the hands as they were (`Settled`: empty).  `Kept` says what an
operation of one hart leaves of the others: what they are doing, and their stages.
-/

namespace Redoubt.Frames.Machine

open Function List

variable {harts : ℕ} {ram : Ram} {m m' m'' : Machine harts}
variable {at' : Option (Place harts) → List ℕ} {deferred : List ℕ} {uncounted : ℤ}
variable {h : Fin harts}

/-! ## What an operation leaves of the other harts -/

/-- Hart `h` acted: the lock, what each hart does and the other harts' stages are as
they were. -/
structure Kept (h : Fin harts) (m m' : Machine harts) : Prop where
  lock : m'.lock = m.lock
  doing : m'.doing = m.doing
  staged : ∀ g, g ≠ h → (m'.lists g).staged = (m.lists g).staged

/-- As `Kept`, but hart `h` may have gone on to something else. -/
structure Went (h : Fin harts) (m m' : Machine harts) : Prop where
  lock : m'.lock = m.lock
  doing : ∀ g, g ≠ h → m'.doing g = m.doing g
  staged : ∀ g, g ≠ h → (m'.lists g).staged = (m.lists g).staged

namespace Kept

theorem refl (h : Fin harts) (m : Machine harts) : Kept h m m :=
  ⟨rfl, rfl, fun _ _ => rfl⟩

theorem trans (hfirst : Kept h m m') (hsecond : Kept h m' m'') : Kept h m m'' :=
  ⟨hsecond.lock.trans hfirst.lock, hsecond.doing.trans hfirst.doing,
    fun g hg => (hsecond.staged g hg).trans (hfirst.staged g hg)⟩

theorem went (hkept : Kept h m m') (doing : Doing) : Went h m (m'.setDoing h doing) :=
  ⟨hkept.lock, fun g hg => (update_of_ne hg _ _).trans (congrFun hkept.doing g),
    hkept.staged⟩

theorem toWent (hkept : Kept h m m') : Went h m m' :=
  ⟨hkept.lock, fun g _ => congrFun hkept.doing g, hkept.staged⟩

end Kept

theorem Went.trans (hfirst : Went h m m') (hsecond : Went h m' m'') : Went h m m'' :=
  ⟨hsecond.lock.trans hfirst.lock, fun g hg => (hsecond.doing g hg).trans
    (hfirst.doing g hg),
    fun g hg => (hsecond.staged g hg).trans (hfirst.staged g hg)⟩

theorem kept_setLists {g : Fin harts} {lists : Lists}
    (hsame : g = h ∨ lists.staged = (m.lists g).staged) :
    Kept h m (m.setLists g lists) where
  lock := rfl
  doing := rfl
  staged other hother := by
    by_cases heq : other = g
    · subst heq
      rw [setLists_self]
      exact hsame.resolve_left hother
    · rw [setLists_of_ne g _ heq]

theorem kept_setOwner (index : ℕ) (given : Option Owner) :
    Kept h m (m.setOwner ram index given) := by
  obtain ⟨-, hlists, hdoing, hlock, -⟩ := @setOwner_same harts ram m index given
  exact ⟨hlock, hdoing, fun _ _ => by rw [hlists]⟩

theorem kept_pend (index : ℕ) : Kept h m (m.pend h index) :=
  (show Kept h m (m.write index link (m.lists h).pending) from
    ⟨rfl, rfl, fun _ _ => rfl⟩).trans (kept_setLists (Or.inl rfl))

theorem kept_pendAll (frames : List ℕ) :
    Kept h m (frames.foldl (fun m index => m.pend h index) m) := by
  induction frames generalizing m with
  | nil => exact Kept.refl h m
  | cons index rest ih => exact (kept_pend index).trans ih

theorem kept_shot (pid : ℕ) : Kept h m (m.shot h pid) := by
  rw [shot]
  split_ifs
  · exact Kept.refl h m
  · exact (kept_setLists (Or.inl rfl)).trans (kept_pendAll _)

theorem kept_endSection : Kept h m (m.endSection h) := by
  rw [endSection]
  split_ifs
  · exact kept_shot _
  · exact Kept.refl h m

theorem kept_stage (index pid : ℕ) : Kept h m (m.stage h index pid) := by
  rw [stage]
  split_ifs
  · exact (kept_shot _).trans (kept_setLists (Or.inl rfl))
  · exact kept_setLists (Or.inl rfl)

theorem kept_giveBack (index : ℕ) : Kept h m (m.giveBack ram index) :=
  (kept_setOwner index none).trans ⟨rfl, rfl, fun _ _ => rfl⟩

theorem kept_unpend (g : Fin harts) : Kept h m (m.unpend g) :=
  kept_setLists (Or.inr rfl)

theorem kept_refill (left : List (Fin harts)) : Kept h m (refill left m).1 := by
  induction left generalizing m with
  | nil => exact Kept.refl h m
  | cons g rest ih =>
    rw [refill]
    split_ifs
    · have htaken : Kept h m { (m.takeDone g).1 with committing := (m.takeDone g).2 } :=
        (@kept_setLists harts m h g { m.lists g with done := 0 } (Or.inr rfl)).trans
          ⟨rfl, rfl, fun _ _ => rfl⟩
      exact htaken.trans ih
    · exact Kept.refl h m

theorem kept_commitOne (index : ℕ) : Kept h m (m.commitOne ram index) :=
  (show Kept h m { (m.unlink index).1 with committing := (m.unlink index).2 } from
    ⟨rfl, rfl, fun _ _ => rfl⟩).trans (kept_giveBack index)

theorem kept_commitFrom (limit : ℕ) (left : List (Fin harts)) :
    Kept h m (commitFrom ram limit left m) := by
  induction limit generalizing m left with
  | zero => exact Kept.refl h m
  | succ limit ih =>
    rw [commitFrom]
    refine (kept_refill left).trans ?_
    split
    · exact Kept.refl h _
    · rename_i index _
      exact (kept_commitOne index).trans (ih _)

/-! ## Stages and pending lists -/

namespace Sound

section

variable (hsound : Sound ram m at' deferred uncounted)
include hsound

/-- Frames in the hands go onto a pending list one by one. -/
theorem pendAll (h : Fin harts) {frames rest : List ℕ}
    (hhands : at' none = frames ++ rest) :
    ∃ at'', Sound ram (frames.foldl (fun m index => m.pend h index) m) at''
      deferred uncounted ∧
      at'' none = rest := by
  induction frames generalizing m at' with
  | nil => exact ⟨at', hsound, hhands⟩
  | cons index frames ih =>
    refine ih (hsound.pend h hhands) ?_
    rfl

/-- A shootdown leaves the hands as they were. -/
theorem shot (h : Fin harts) (pid : ℕ) :
    ∃ at'', Sound ram (m.shot h pid) at'' deferred uncounted ∧
      at'' none = at' none := by
  rw [Machine.shot]
  split_ifs
  · exact ⟨at', hsound, rfl⟩
  · exact (hsound.unstage h).pendAll h (update_self _ _ _)

theorem endSection (h : Fin harts) :
    ∃ at'', Sound ram (m.endSection h) at'' deferred uncounted ∧
      at'' none = at' none := by
  rw [Machine.endSection]
  split_ifs
  · exact hsound.shot h _
  · exact ⟨at', hsound, rfl⟩

/-- `stage` puts the frame in the hands on the stage, the stage shot down first where it
is full or another process's. -/
theorem stage (h : Fin harts) {index : ℕ} (pid : ℕ) (hhands : at' none = [index]) :
    ∃ at'', Sound ram (m.stage h index pid) at'' deferred uncounted ∧
      at'' none = [] := by
  rw [Machine.stage]
  split_ifs
  · obtain ⟨at'', hshot, hsame⟩ := hsound.shot h (m.lists h).stagedPid
    refine ⟨_, hshot.stageOn h pid (hsame.trans hhands), ?_⟩
    rw [update_of_ne (Option.some_ne_none _).symm, update_self]
  · refine ⟨_, hsound.stageOn h pid hhands, ?_⟩
    rw [update_of_ne (Option.some_ne_none _).symm, update_self]

end

/-- A frame its owner gives up is staged or pending. -/
theorem retire (hsound : Sound ram m at' deferred 0) (h : Fin harts) {index : ℕ}
    (shot : Option ℕ) (hhands : at' none = []) (hindex : index < ram.frames)
    (howner : m.owner index ≠ some .inFlight) (hdeferred : index ∉ deferred) :
    ∃ at'', Sound ram (m.retire ram h index shot) at'' deferred 0 ∧ at'' none = [] := by
  have hcounted := (hsound.enlist hindex howner hdeferred).count 1
  have hone : update at' none (index :: at' none) none = [index] := by
    rw [update_self, hhands]
  cases shot with
  | none =>
    refine ⟨_, hcounted.pend h hone, ?_⟩
    rw [update_of_ne (Option.some_ne_none _).symm, update_self]
  | some pid => exact hcounted.stage h pid hone

end Sound

theorem pendAll_staged (frames : List ℕ) :
    ((frames.foldl (fun m index => m.pend h index) m).lists h).staged =
    (m.lists h).staged := by
  induction frames generalizing m with
  | nil => rfl
  | cons index rest ih =>
    rw [foldl_cons, ih, pend, setLists_self]

/-- The section's end leaves nothing staged. -/
theorem endSection_staged : ((m.endSection h).lists h).staged = [] := by
  rw [endSection]
  split_ifs with hstaged
  · rw [shoot, shot, if_neg (not_not.2 rfl), pendAll_staged, setLists_self]
  · exact length_eq_zero_iff.1 (Nat.eq_zero_of_not_pos hstaged)

/-- Frames put on a pending list keep their owners, and the count of those in flight. -/
theorem pendAll_tables (frames : List ℕ) :
    (frames.foldl (fun m index => m.pend h index) m).inFlight = m.inFlight ∧
      (frames.foldl (fun m index => m.pend h index) m).owner = m.owner := by
  induction frames generalizing m with
  | nil => exact ⟨rfl, rfl⟩
  | cons index rest ih => exact ih

theorem shot_tables (pid : ℕ) :
    (m.shot h pid).inFlight = m.inFlight ∧ (m.shot h pid).owner = m.owner := by
  rw [shot]
  split_ifs
  · exact ⟨rfl, rfl⟩
  · exact pendAll_tables _

theorem endSection_tables :
    (m.endSection h).inFlight = m.inFlight ∧ (m.endSection h).owner = m.owner := by
  rw [endSection]
  split_ifs
  · exact shot_tables _
  · exact ⟨rfl, rfl⟩

/-! ## Done lists -/

namespace Sound

theorem refill (hsound : Sound ram m at' deferred uncounted) (left : List (Fin harts))
    (hhands : at' none = []) :
    ∃ at'', Sound ram (refill left m).1 at'' deferred uncounted ∧ at'' none = [] := by
  induction left generalizing m at' with
  | nil => exact ⟨at', hsound, hhands⟩
  | cons g rest ih =>
    rw [Machine.refill]
    split_ifs with hcommitting
    · obtain ⟨at'', htaken, hhands'⟩ :=
        hsound.takeDone g hhands (Option.isNone_iff_eq_none.1 hcommitting)
      exact ih htaken hhands'
    · exact ⟨at', hsound, hhands⟩

end Sound

theorem refill_owner (left : List (Fin harts)) : (refill left m).1.owner = m.owner := by
  induction left generalizing m with
  | nil => rfl
  | cons g rest ih =>
    rw [refill]
    split_ifs
    · rw [ih]
      rfl
    · rfl

/-- A frame keeps its owner, or was in flight and is free. -/
def KeptOrFreed (m m' : Machine harts) (frame : ℕ) : Prop :=
  m'.owner frame = m.owner frame ∨ m.owner frame = some .inFlight ∧
    m'.owner frame = none

theorem KeptOrFreed.trans {frame : ℕ} (hfirst : m.KeptOrFreed m' frame)
    (hsecond : m'.KeptOrFreed m'' frame) : m.KeptOrFreed m'' frame := by
  rcases hfirst with hsame | ⟨hflight, hfree⟩
  · rwa [KeptOrFreed, hsame] at hsecond
  · rcases hsecond with hsame | ⟨hflight', -⟩
    · exact Or.inr ⟨hflight, hsame.trans hfree⟩
    · exact absurd (hfree.symm.trans hflight') (Option.some_ne_none _).symm

theorem keptOrFreed_of_eq (howner : m'.owner = m.owner) (frame : ℕ) :
    m.KeptOrFreed m' frame :=
  Or.inl (congrFun howner frame)

theorem keptOrFreed_giveBack {index : ℕ} (hflight : m.owner index = some .inFlight)
    (frame : ℕ) :
    m.KeptOrFreed (m.giveBack ram index) frame := by
  rw [KeptOrFreed, giveBack, setOwner_owner]
  by_cases hframe : frame = index
  · rw [hframe, update_self]
    exact Or.inr ⟨hflight, rfl⟩
  · rw [update_of_ne hframe]
    exact Or.inl rfl

namespace Sound

/-- The first frame of the list being committed goes back to the bitmap. -/
theorem commitOne (hsound : Sound ram m at' deferred 0) {index : ℕ}
    (hhands : at' none = [])
    (hcommitting : m.committing = some index) :
    ∃ at'', Sound ram (m.commitOne ram index) at'' deferred 0 ∧ at'' none = [] ∧
      m.owner index = some .inFlight := by
  obtain ⟨rest, hunlinked, hzero⟩ := hsound.unlink hcommitting
  have hone : update (update at' (some .committing) rest) none
      (index :: at' none) none = index :: [] := by
    rw [update_self, hhands]
  have hmem : index ∈ update (update at' (some .committing) rest) none
      (index :: at' none) none := by
    exact mem_cons_self
  exact ⟨_, hunlinked.giveBack hone hzero, update_self _ _ _,
    (hunlinked.placed.member_of_mem hmem).2⟩

/-- A commit gives frames in flight back to the bitmap, and changes no other frame's
owner. -/
theorem commitFrom (hsound : Sound ram m at' deferred 0) (limit : ℕ)
    (left : List (Fin harts))
    (hhands : at' none = []) :
    ∃ at'', Sound ram (commitFrom ram limit left m) at'' deferred 0 ∧ at'' none = [] ∧
      ∀ frame, m.KeptOrFreed (Machine.commitFrom ram limit left m) frame := by
  induction limit generalizing m at' left with
  | zero => exact ⟨at', hsound, hhands, keptOrFreed_of_eq rfl⟩
  | succ limit ih =>
    obtain ⟨at'', hfilled, hhands'⟩ := hsound.refill left hhands
    rw [Machine.commitFrom]
    split
    · exact ⟨at'', hfilled, hhands', keptOrFreed_of_eq (refill_owner left)⟩
    · rename_i index hcommitting
      obtain ⟨next, hone, hempty, hflight⟩ := hfilled.commitOne hhands' hcommitting
      obtain ⟨last, hlast, hempty', hrest⟩ := ih hone (Machine.refill left m).2 hempty
      refine ⟨last, hlast, hempty', fun frame => ?_⟩
      have hstep : (Machine.refill left m).1.KeptOrFreed
          ((Machine.refill left m).1.commitOne ram index) frame :=
        keptOrFreed_giveBack (m := { ((Machine.refill left m).1.unlink index).1 with
          committing := ((Machine.refill left m).1.unlink index).2 }) hflight frame
      exact ((keptOrFreed_of_eq (refill_owner left) frame).trans hstep).trans
        (hrest frame)

end Sound

/-! ## A destruction's chains -/

/-- The chain is `nodes`, linked through the frames' words. -/
structure Chains (m : Machine harts) (chain : ObjectChain) (nodes : List ℕ) : Prop where
  first : chain.first = nodes.head?
  last : chain.last = nodes.getLast?
  linked : chain.linked = nodes.length
  chained : Chained m.next (frameWord chain.first) nodes

namespace Sound

theorem pendObjectChain {chain : ObjectChain} {nodes : List ℕ}
    (hsound : Sound ram m at' deferred nodes.length) (h : Fin harts)
    (hhands : (at' none).Perm nodes) (hchain : m.Chains chain nodes) :
    ∃ at'', Sound ram (m.pendObjectChain h chain) at'' deferred 0 ∧ at'' none = [] := by
  have hcount : ∀ {m' : Machine harts} {at'' : Option (Place harts) → List ℕ},
      Sound ram m' at'' deferred nodes.length →
        Sound ram { m' with inFlight := m'.inFlight + chain.linked } at''
          deferred 0 := by
    intro m' at'' hsound'
    have hcounted := hsound'.count nodes.length
    rw [Int.sub_self] at hcounted
    rwa [hchain.linked]
  rcases eq_nil_or_concat' nodes with rfl | ⟨front, last, rfl⟩
  · have hfirst : chain.first = none := hchain.first
    rw [Machine.pendObjectChain, hfirst]
    exact ⟨at', hcount hsound, hhands.eq_nil⟩
  · have hlast : chain.last = some last := by rw [hchain.last, getLast?_concat]
    obtain ⟨first, hfirst⟩ : ∃ first, chain.first = some first := by
      rw [hchain.first]
      cases front with
      | nil => exact ⟨last, rfl⟩
      | cons head rest => exact ⟨head, rfl⟩
    have hlinked := hchain.chained
    rw [hfirst] at hlinked
    obtain ⟨at'', hpended, hempty⟩ := hsound.pendChain h hhands hlinked
    refine ⟨at'', ?_, hempty⟩
    rw [Machine.pendObjectChain, hfirst, hlast]
    exact hcount hpended

/-- The first deferred frame leaves the deferred list. -/
theorem undefer {frame : ℕ} {rest : List ℕ}
    (hsound : Sound ram m at' (frame :: rest) uncounted) :
    Sound ram { m with deferred := named (m.mem frame link) } at' rest uncounted :=
  { hsound with
    chained := by
      rw [frameWord_named]
      exact hsound.chained.2
    nodup := hsound.nodup.of_cons
    objects := fun other hother => hsound.objects other (mem_cons_of_mem frame hother) }

theorem freeDeferredLoop {fuel : ℕ} {chain : ObjectChain} {freed : List ℕ}
    (hsound : Sound ram m at' deferred freed.length) (hfuel : deferred.length ≤ fuel)
    (hhands : (at' none).Perm freed) (hfirst : chain.first = (freed ++ deferred).head?)
    (hlast : chain.last = freed.getLast?) (hlinked : chain.linked = freed.length)
    (hchain : Chained m.next (frameWord chain.first) (freed ++ deferred)) :
    ∃ at'', Sound ram (m.freeDeferredLoop ram fuel chain).1 at'' []
      (freed ++ deferred).length ∧
      (at'' none).Perm (freed ++ deferred) ∧
      (m.freeDeferredLoop ram fuel chain).1.Chains (m.freeDeferredLoop ram fuel chain).2
        (freed ++ deferred) := by
  induction fuel generalizing m at' deferred freed chain with
  | zero =>
    obtain rfl := length_eq_zero_iff.1 (Nat.le_zero.1 hfuel)
    rw [append_nil] at *
    exact ⟨at', hsound, hhands, hfirst, hlast, hlinked, hchain⟩
  | succ fuel ih =>
    have hlist := hsound.chained
    rw [Machine.freeDeferredLoop]
    cases hdeferred : m.deferred with
    | none =>
      rw [hdeferred] at hlist
      obtain rfl := hlist.nil_of_zero
      rw [append_nil] at *
      exact ⟨at', hsound, hhands, hfirst, hlast, hlinked, hchain⟩
    | some frame =>
      rw [hdeferred] at hlist
      obtain ⟨rest, rfl, -⟩ := chained_some hlist
      obtain ⟨hframe, hobject⟩ := hsound.objects frame mem_cons_self
      have hfresh := (nodup_cons.1 hsound.nodup).1
      have howner : m.owner frame ≠ some .inFlight := by
        rw [hobject]
        decide
      have hnext : Sound ram
          (Machine.setOwner ram { m with deferred := named (m.mem frame link) } frame
            (some .inFlight))
          (update at' none (frame :: at' none)) rest (freed ++ [frame]).length := by
        rw [length_append]
        exact hsound.undefer.enlist hframe howner hfresh
      have hperm : (update at' none (frame :: at' none) none).Perm
          (freed ++ [frame]) := by
        exact (Perm.cons frame hhands).trans (perm_append_singleton frame freed).symm
      have hmem :=
        (@setOwner_same harts ram { m with deferred := named (m.mem frame link) } frame
        (some .inFlight)).1
      rw [append_cons] at hfirst hchain ⊢
      refine ih hnext (Nat.le_of_succ_le_succ hfuel) hperm hfirst
        (getLast?_concat).symm ?_ ?_
      · change chain.linked + 1 = _
        rw [hlinked, length_append, length_singleton]
      · exact hchain.congr fun other _ => congrFun (congrFun hmem other) link

theorem length_deferred_le (hsound : Sound ram m at' deferred uncounted) :
    deferred.length ≤ ram.frames := by
  have hsub : deferred ⊆ List.range ram.frames := fun frame hframe =>
    mem_range.2 (hsound.objects frame hframe).1
  simpa using (subperm_of_subset hsound.nodup hsub).length_le

/-- Every deferred frame goes onto the pending list. -/
theorem freeDeferredFrames (hsound : Sound ram m at' deferred 0) (h : Fin harts)
    (hhands : at' none = []) :
    ∃ at'', Sound ram (m.freeDeferredFrames ram h) at'' [] 0 ∧ at'' none = [] := by
  have hroom := hsound.length_deferred_le
  have hfirst : m.deferred = deferred.head? := by
    have hlist := hsound.chained
    cases hdeferred : m.deferred with
    | none =>
      rw [hdeferred] at hlist
      rw [hlist.nil_of_zero]
      rfl
    | some frame =>
      rw [hdeferred] at hlist
      obtain ⟨rest, rfl, -⟩ := chained_some hlist
      rfl
  have hnone : Sound ram m at' deferred ([] : List ℕ).length := hsound
  have hempty : (at' none).Perm [] := by rw [hhands]
  obtain ⟨at'', hfreed, hperm, hchains⟩ :=
    @freeDeferredLoop harts ram m at' deferred ram.frames
    ⟨m.deferred, none, 0⟩ [] hnone hroom hempty hfirst rfl rfl hsound.chained
  exact hfreed.pendObjectChain h hperm hchains

end Sound

namespace Sound

/-- One object's frame joins the chain of frames being retired. -/
theorem retireObject {chain : ObjectChain} {nodes : List ℕ} {frame : ℕ}
    (hsound : Sound ram m at' deferred nodes.length) (hhands : (at' none).Perm nodes)
    (hchain : m.Chains chain nodes) (hframe : frame < ram.frames)
    (howner : m.owner frame = some .object) (hdeferred : frame ∉ deferred) :
    ∃ at'', Sound ram (m.retireObject ram chain frame).1 at'' deferred
      (frame :: nodes).length ∧
      (at'' none).Perm (frame :: nodes) ∧
      (m.retireObject ram chain frame).1.Chains (m.retireObject ram chain frame).2
        (frame :: nodes) := by
  have hnot : ¬ m.InFlight ram frame := by
    rintro ⟨-, hflight⟩
    rw [howner] at hflight
    exact absurd hflight (by decide)
  have hfresh : frame ∉ nodes := fun hmem =>
    hsound.placed.notMem hnot none (hhands.mem_iff.2 hmem)
  have hwritten := hsound.write (frameWord chain.first) (howner ▸ Option.some_ne_none _)
    (fun p _ => hsound.placed.notMem hnot (some p)) fun _ : link = link => hdeferred
  have howner' : (m.write frame link (frameWord chain.first)).owner frame ≠
      some .inFlight := by
    change m.owner frame ≠ some .inFlight
    rw [howner]
    decide
  have hmem :=
    (@setOwner_same harts ram (m.write frame link (frameWord chain.first)) frame
    (some .inFlight)).1
  refine ⟨_, hwritten.enlist hframe howner' hdeferred, ?_, rfl, ?_, ?_, ?_⟩
  · rw [update_self]
    exact Perm.cons frame hhands
  · change some (chain.last.getD frame) = (frame :: nodes).getLast?
    rw [hchain.last]
    cases nodes with
    | nil => rfl
    | cons head rest => rw [getLast?_cons_cons]; rfl
  · change chain.linked + 1 = _
    rw [hchain.linked, length_cons]
  · have hpushed := hchain.chained.push hfresh
    rw [← next_write] at hpushed
    exact hpushed.congr fun other _ => congrFun (congrFun hmem other) link

/-- A destruction's object frames go onto the pending list. -/
theorem retireObjects (hsound : Sound ram m at' deferred 0) (h : Fin harts)
    {objects : List ℕ}
    (hhands : at' none = []) (hnodup : objects.Nodup)
    (hobjects : ∀ frame ∈ objects, frame < ram.frames ∧ m.owner frame = some .object ∧
      frame ∉ deferred) :
    ∃ at'', Sound ram (m.retireObjects ram h objects) at'' deferred 0 ∧
      at'' none = [] := by
  -- The loop: the frames retired so far are the chain, and are in the hands.
  have hloop :
      ∀ {objects : List ℕ} {m : Machine harts} {at' : Option (Place harts) → List ℕ}
      {chain : ObjectChain} {nodes : List ℕ}, objects.Nodup →
      (∀ frame ∈ objects, frame < ram.frames ∧ m.owner frame = some .object ∧
        frame ∉ deferred) →
      Sound ram m at' deferred nodes.length → (at' none).Perm nodes →
      m.Chains chain nodes →
      ∃ at'' nodes', Sound ram (objects.foldl
          (fun freed frame => freed.1.retireObject ram freed.2 frame) (m, chain)).1
          at'' deferred
          nodes'.length ∧ (at'' none).Perm nodes' ∧
        (objects.foldl (fun freed frame => freed.1.retireObject ram freed.2 frame)
          (m, chain)).1.Chains (objects.foldl
            (fun freed frame => freed.1.retireObject ram freed.2 frame) (m, chain)).2
            nodes' := by
    intro objects
    induction objects with
    | nil =>
      intro m at' chain nodes _ _ hsound hhands hchain
      exact ⟨at', nodes, hsound, hhands, hchain⟩
    | cons frame rest ih =>
      intro m at' chain nodes hnodup hobjects hsound hhands hchain
      rw [nodup_cons] at hnodup
      obtain ⟨hframe, howner, hdeferred⟩ := hobjects frame mem_cons_self
      obtain ⟨at'', hnext, hhands', hchain'⟩ :=
        hsound.retireObject hhands hchain hframe howner hdeferred
      refine ih hnodup.2 (fun other hother => ?_) hnext hhands' hchain'
      obtain ⟨hother', howner', hdeferred'⟩ :=
        hobjects other (mem_cons_of_mem frame hother)
      refine ⟨hother', ?_, hdeferred'⟩
      have hne : other ≠ frame := fun heq => hnodup.1 (heq ▸ hother)
      change (Machine.setOwner ram _ frame _).owner other = _
      rw [setOwner_owner, update_of_ne hne]
      exact howner'
  obtain ⟨at'', nodes, hretired, hhands', hchain⟩ :=
    @hloop objects m at' ⟨none, none, 0⟩ [] hnodup
    hobjects hsound (by rw [hhands]) ⟨rfl, rfl, rfl, rfl⟩
  exact hretired.pendObjectChain h hhands' hchain

end Sound

theorem kept_inFlightLinked (chain : ObjectChain) (frame : ℕ) :
    Kept h m (m.inFlightLinked ram chain frame).1 :=
  kept_setOwner frame (some .inFlight)

theorem kept_pendObjectChain (chain : ObjectChain) :
    Kept h m (m.pendObjectChain h chain) := by
  rw [pendObjectChain]
  split
  · rename_i first last _ _
    have hwritten : Kept h m (m.write last link (m.lists h).pending) :=
      ⟨rfl, rfl, fun _ _ => rfl⟩
    exact (hwritten.trans (kept_setLists (Or.inl rfl))).trans ⟨rfl, rfl, fun _ _ => rfl⟩
  · exact ⟨rfl, rfl, fun _ _ => rfl⟩

theorem kept_freeDeferredLoop (fuel : ℕ) (chain : ObjectChain) :
    Kept h m (m.freeDeferredLoop ram fuel chain).1 := by
  induction fuel generalizing m chain with
  | zero => exact Kept.refl h m
  | succ fuel ih =>
    rw [freeDeferredLoop]
    split
    · exact Kept.refl h m
    · rename_i frame _
      have hunlinked : Kept h m { m with deferred := named (m.mem frame link) } :=
        ⟨rfl, rfl, fun _ _ => rfl⟩
      exact (hunlinked.trans (kept_inFlightLinked chain frame)).trans (ih _)

theorem kept_freeDeferredFrames : Kept h m (m.freeDeferredFrames ram h) :=
  (kept_freeDeferredLoop _ _).trans (kept_pendObjectChain _)

theorem kept_retireObjects (objects : List ℕ) :
    Kept h m (m.retireObjects ram h objects) := by
  have hloop : ∀ {objects : List ℕ} {m : Machine harts} {chain : ObjectChain},
      Kept h m
        (objects.foldl (fun freed frame => freed.1.retireObject ram freed.2 frame)
        (m, chain)).1 := by
    intro objects
    induction objects with
    | nil =>
      intro m chain
      exact Kept.refl h m
    | cons frame rest ih =>
      intro m chain
      have hwritten : Kept h m (m.write frame link (frameWord chain.first)) :=
        ⟨rfl, rfl, fun _ _ => rfl⟩
      exact (hwritten.trans (kept_inFlightLinked chain frame)).trans ih
  exact hloop.trans (kept_pendObjectChain _)

theorem kept_retire (index : ℕ) (shot : Option ℕ) :
    Kept h m (m.retire ram h index shot) := by
  have hcounted : Kept h m { m.setOwner ram index (some .inFlight) with
      inFlight := (m.setOwner ram index (some .inFlight)).inFlight + 1 } :=
    (kept_setOwner index _).trans ⟨rfl, rfl, fun _ _ => rfl⟩
  cases shot with
  | none => exact hcounted.trans (kept_pend index)
  | some pid => exact hcounted.trans (kept_stage index pid)

end Redoubt.Frames.Machine
