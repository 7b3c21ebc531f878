import Redoubt.Frames.Allocation

/-!
# What a step does to the ownership table

Each operation names the frames whose owners it changes, and what they become.  No frame
leaves the bitmap without an owner, and none leaves the places for frames in flight but
for the bitmap.
-/

namespace Redoubt.Frames

open Function List Option

variable {harts : ℕ} {ram : Ram} {m m' : Machine harts} {h : Fin harts}

variable (ram) in
/-- What an operation that answers `event` does to the frames' owners. -/
def Op.Moves (m m' : Machine harts) (event : Machine.Event) : Op harts → Prop
  | .enter _ => m.Spared m' event
  | .alloc _ _ => m.Spared m' event
  | .reclaim _ => m.Spared m' event
  | .release _ index _ => m'.owner = update m.owner index (some .inFlight)
  | .retire _ index => m'.owner = update m.owner index (some .inFlight)
  | .setOwner _ index owner => m'.owner = update m.owner index (some owner)
  | .kernelFrame _ => ∃ index, m.owner index = none ∧
      m'.owner = update m.owner index (some (.process kernelPid))
  | .releaseObject _ frame =>
    m'.owner = if m.deferring then m.owner else update m.owner frame (some .inFlight)
  | .freeDeferred _ => ∀ frame,
      m'.owner frame = if m.isDeferred ram frame then some .inFlight else m.owner frame
  | .retireObjects _ objects => ∀ frame,
      m'.owner frame = if frame ∈ objects then some .inFlight else m.owner frame
  | _ => m'.owner = m.owner

namespace Machine

theorem stage_owner (index pid : ℕ) : (m.stage h index pid).owner = m.owner := by
  rw [stage]
  split_ifs
  · exact (shot_tables _).2
  · rfl

theorem retire_owner (index : ℕ) (shot : Option ℕ) :
    (m.retire ram h index shot).owner = update m.owner index (some .inFlight) := by
  rw [← @setOwner_owner harts ram]
  cases shot with
  | none => rfl
  | some pid => exact stage_owner index pid

theorem releaseObjectFrame_owner (frame : ℕ) :
    (m.releaseObjectFrame ram h frame).owner =
    if m.deferring then m.owner else update m.owner frame (some .inFlight) := by
  rw [releaseObjectFrame]
  split_ifs
  · rfl
  · exact retire_owner frame none

theorem pendObjectChain_owner (chain : ObjectChain) :
    (m.pendObjectChain h chain).owner = m.owner := by
  rw [pendObjectChain]
  split <;> rfl

theorem deferredFrames_congr (hmem : m'.mem = m.mem) (fuel : ℕ) (first : Option ℕ) :
    m'.deferredFrames fuel first = m.deferredFrames fuel first := by
  induction fuel generalizing first with
  | zero => rfl
  | succ fuel ih =>
    cases first with
    | none => rfl
    | some frame => rw [deferredFrames, deferredFrames, hmem, ih]

/-- The loop puts in flight the frames its list names. -/
theorem freeDeferredLoop_owner (fuel : ℕ) (chain : ObjectChain) (frame : ℕ) :
    (m.freeDeferredLoop ram fuel chain).1.owner frame =
      if frame ∈ m.deferredFrames fuel m.deferred then some .inFlight
      else m.owner frame := by
  induction fuel generalizing m chain with
  | zero => rfl
  | succ fuel ih =>
    rw [freeDeferredLoop]
    cases hdeferred : m.deferred with
    | none => rfl
    | some first =>
      rw [ih, deferredFrames]
      have hsame :=
        @setOwner_same harts ram { m with deferred := named (m.mem first link) } first
        (some .inFlight)
      have hmem : _ = m.mem := hsame.1
      rw [inFlightLinked, deferredFrames_congr hmem, hsame.2.2.2.2.2.1, setOwner_owner]
      by_cases hfirst : frame = first
      · rw [hfirst, update_self, if_pos mem_cons_self, ite_self]
      · rw [update_of_ne hfirst]
        simp only [mem_cons, hfirst, false_or]

theorem freeDeferredFrames_owner (frame : ℕ) :
    (m.freeDeferredFrames ram h).owner frame =
    if m.isDeferred ram frame then some .inFlight else m.owner frame := by
  rw [freeDeferredFrames, pendObjectChain_owner, freeDeferredLoop_owner, isDeferred]
  exact if_congr contains_iff_mem.symm rfl rfl

theorem retireObjects_owner (objects : List ℕ) (frame : ℕ) :
    (m.retireObjects ram h objects).owner frame =
      if frame ∈ objects then some .inFlight else m.owner frame := by
  have hloop : ∀ (objects : List ℕ) (m : Machine harts) (chain : ObjectChain),
      (objects.foldl (fun freed frame => freed.1.retireObject ram freed.2 frame)
        (m, chain)).1.owner frame = if frame ∈ objects then some .inFlight
          else m.owner frame := by
    intro objects
    induction objects with
    | nil => exact fun _ _ => rfl
    | cons first rest ih =>
      intro m chain
      rw [foldl_cons, ih, retireObject, inFlightLinked, setOwner_owner]
      by_cases hfirst : frame = first
      · rw [hfirst, update_self, if_pos mem_cons_self, ite_self]
      · rw [update_of_ne hfirst]
        simp only [mem_cons, hfirst, false_or]
        rfl
  rw [retireObjects, pendObjectChain_owner, hloop]

theorem takeOne_owner (allIdle : Bool) : (m.takeOne h allIdle).1.owner = m.owner := by
  rw [takeOne]
  split_ifs <;> rfl

theorem idle_owner (allIdle : Bool) : (m.idle h allIdle).owner = m.owner := by
  have htaken : ((m.endSection h).takeOne h allIdle).1.owner = m.owner := by
    rw [takeOne_owner, endSection_tables.2]
  rw [idle]
  split_ifs <;> exact htaken

/-- Zeroing writes frames and lists, and no owner. -/
theorem zeroStep_owner {spurious : Bool} (hstep : m.zeroStep h spurious = some m') :
    m'.owner = m.owner := by
  rw [zeroStep] at hstep
  split at hstep
  all_goals first | split_ifs at hstep | skip
  all_goals first
    | (obtain rfl := some.inj hstep; rfl)
    | exact absurd hstep.symm (some_ne_none _)

end Machine

end Redoubt.Frames
