import Redoubt.Frames.Invariant

/-!
# Frames move between places

`put` and `fetch` are the two moves the machinery is made of: frames in the lock
holder's hands go to a place, and frames of a place come into its hands.  The operations
of `reclaim.rs` are sequences of them.
-/

namespace Redoubt.Frames.Machine

open Function List Option

variable {harts : ℕ} {ram : Ram} {m m' : Machine harts}
    {at' : Option (Place harts) → List ℕ}
variable {deferred : List ℕ} {uncounted : ℤ}

/-- Two states with one ownership table and one bitmap. -/
def SameTables (m m' : Machine harts) : Prop :=
  m'.owner = m.owner ∧ m'.bits = m.bits ∧ m'.dirty = m.dirty ∧
    m'.inFlight = m.inFlight ∧
    m'.stopped = m.stopped ∧ m'.deferred = m.deferred

namespace Sound

section

variable (hsound : Sound ram m at' deferred uncounted)
include hsound

theorem notMem_place {frame : ℕ}
    (hhands : frame ∈ at' none) (p : Place harts) : frame ∉ at' (some p) :=
  fun hmem => some_ne_none p (hsound.placed.unique frame (some p) none hmem hhands)

/-- Frames go from the hands to place `q`. -/
theorem put (q : Place harts) (moved rest into : List ℕ) (htables : SameTables m m')
    (hhands : (at' none).Perm (moved ++ rest))
    (hmem : ∀ frame, frame ∉ moved → m'.mem frame = m.mem frame)
    (hhead : ∀ p, p ≠ q → m'.head p = m.head p) (hholds : m'.Holds q into)
    (hinto : into.Perm (moved ++ at' (some q)))
    (hzeroed : q.isZeroed = true → ∀ frame ∈ into, ZeroBut (m'.mem frame))
    (hdoing : ∀ h, q ≠ .zeroing h → m'.doing h = m.doing h)
    (hwork : ∀ h, q = .zeroing h → (m'.doing h).Work m'.mem) :
    Sound ram m' (update (update at' none rest) (some q) into) deferred
      uncounted := by
  have hmoved : ∀ frame ∈ moved, frame ∈ at' none := fun frame hframe =>
    hhands.mem_iff.2 (mem_append_left rest hframe)
  have hother : ∀ p, p ≠ q →
      update (update at' none rest) (some q) into (some p) = at' (some p) := by
    intro p hp
    rw [update_of_ne fun heq => hp (some.inj heq), update_of_ne (some_ne_none p)]
  have hkept : ∀ p, p ≠ q → ∀ frame ∈ at' (some p), m'.mem frame = m.mem frame := by
    intro p _ frame hframe
    exact hmem frame fun hmem' => hsound.notMem_place (hmoved frame hmem') p hframe
  refine hsound.move htables ?_ (hsound.placed.move (some_ne_none q) hhands hinto) ?_ ?_
    ?_
  · intro frame hnot
    exact hmem frame fun hframe =>
      hnot (hsound.placed.member_of_mem (hmoved frame hframe))
  · intro p
    by_cases hp : p = q
    · subst hp
      rw [update_self]
      exact hholds
    · rw [hother p hp]
      refine (hsound.holds p).congr (hhead p hp) fun frame hframe => ?_
      rw [next, next, hkept p hp frame hframe]
  · intro p hzero frame hframe
    by_cases hp : p = q
    · subst hp
      rw [update_self] at hframe
      exact hzeroed hzero frame hframe
    · rw [hother p hp] at hframe
      rw [hkept p hp frame hframe]
      exact hsound.zeroed p hzero frame hframe
  · intro h
    by_cases hq : q = .zeroing h
    · exact hwork h hq
    · rw [hdoing h hq]
      exact (hsound.work h).congr fun frame hframe =>
        hkept (.zeroing h) (Ne.symm hq) frame (hsound.held h ▸ hframe)

/-- Frames come from place `q` into the hands. -/
theorem fetch (q : Place harts) (moved rest : List ℕ) (htables : SameTables m m')
    (hlist : (at' (some q)).Perm (moved ++ rest))
    (hmem : ∀ frame, frame ∉ moved → m'.mem frame = m.mem frame)
    (hhead : ∀ p, p ≠ q → m'.head p = m.head p) (hholds : m'.Holds q rest)
    (hdoing : ∀ h, q ≠ .zeroing h → m'.doing h = m.doing h)
    (hwork : ∀ h, q = .zeroing h → (m'.doing h).Work m'.mem) :
    Sound ram m' (update (update at' (some q) rest) none (moved ++ at' none))
      deferred uncounted := by
  have hmoved : ∀ frame ∈ moved, frame ∈ at' (some q) := fun frame hframe =>
    hlist.mem_iff.2 (mem_append_left rest hframe)
  have hnodup := nodup_append'.1 (hlist.nodup_iff.1 (hsound.placed.nodup (some q)))
  have hplace : ∀ p, update (update at' (some q) rest) none
      (moved ++ at' none) (some p) = if p = q then rest else at' (some p) := by
    intro p
    rw [update_of_ne (some_ne_none p)]
    by_cases hp : p = q
    · rw [hp, update_self, if_pos rfl]
    · rw [update_of_ne fun heq => hp (some.inj heq), if_neg hp]
  -- What stays in any place is none of the frames that moved.
  have hstays : ∀ p, ∀ frame ∈ (if p = q then rest else at' (some p)),
      frame ∈ at' (some p) ∧ m'.mem frame = m.mem frame := by
    intro p frame hframe
    split_ifs at hframe with hp
    · subst hp
      exact ⟨hlist.mem_iff.2 (mem_append_right moved hframe),
        hmem frame fun hmem' => hnodup.2.2 hmem' hframe⟩
    · refine ⟨hframe, hmem frame fun hmem' => hp ?_⟩
      exact some.inj (hsound.placed.unique frame _ _ hframe (hmoved frame hmem'))
  refine hsound.move htables ?_
    (hsound.placed.move (some_ne_none q).symm hlist (Perm.refl _)) ?_ ?_ ?_
  · intro frame hnot
    exact hmem frame fun hframe =>
      hnot (hsound.placed.member_of_mem (hmoved frame hframe))
  · intro p
    rw [hplace]
    by_cases hp : p = q
    · rw [if_pos hp, hp]
      exact hholds
    · rw [if_neg hp]
      refine (hsound.holds p).congr (hhead p hp) fun frame hframe => ?_
      rw [next, next, (hstays p frame (by rwa [if_neg hp])).2]
  · intro p hzero frame hframe
    rw [hplace] at hframe
    obtain ⟨hin, hsame⟩ := hstays p frame hframe
    rw [hsame]
    exact hsound.zeroed p hzero frame hin
  · intro h
    by_cases hq : q = .zeroing h
    · exact hwork h hq
    · rw [hdoing h hq]
      refine (hsound.work h).congr fun frame hframe => ?_
      exact (hstays (.zeroing h) frame (by rwa [if_neg (Ne.symm hq), hsound.held h])).2

/-- Nothing that the places are kept by changes. -/
theorem same (htables : SameTables m m') (hmem : m'.mem = m.mem)
    (hhead : ∀ p, m'.head p = m.head p)
    (hwork : ∀ h, (m'.doing h).Work m.mem) :
    Sound ram m' at' deferred uncounted := by
  refine hsound.move htables (fun frame _ => by rw [hmem]) hsound.placed ?_ ?_
    (by rwa [hmem])
  · intro p
    exact (hsound.holds p).congr (hhead p) fun frame _ => by rw [next, next, hmem]
  · intro p hzero frame hframe
    rw [hmem]
    exact hsound.zeroed p hzero frame hframe

end

end Sound

theorem frameWord_named (word : ℕ) : frameWord (named word) = word := by
  rw [named]
  split_ifs with hzero
  · rw [hzero, frameWord]
  · rw [frameWord]
    omega

theorem chained_some {next : ℕ → ℕ} {frame : ℕ} {nodes : List ℕ}
    (hchain : Chained next (frameWord (some frame)) nodes) :
    ∃ rest, nodes = frame :: rest ∧ Chained next (next frame) rest :=
  hchain.cons_of_pos (Nat.succ_ne_zero frame)

theorem next_write (frame value : ℕ) :
    (m.write frame link value).next = update m.next frame value := by
  funext other
  by_cases heq : other = frame
  · subst heq
    rw [next, write_mem_self, update_self, update_self]
  · rw [next, write_mem_of_ne _ _ heq, update_of_ne heq, next]

namespace Sound

section

variable (hsound : Sound ram m at' deferred uncounted)
include hsound

variable (h : Fin harts)

/-- `pend`: a frame in the hands goes onto a pending list. -/
theorem pend {frame : ℕ} {rest : List ℕ} (hhands : at' none = frame :: rest) :
    Sound ram (m.pend h frame) (update (update at' none rest) (some (.pending h))
        (frame :: at' (some (.pending h)))) deferred uncounted := by
  have hin : frame ∈ at' none := by rw [hhands]; exact mem_cons_self
  have hperm : (at' none).Perm ([frame] ++ rest) := by rw [hhands]; exact Perm.refl _
  refine hsound.put (.pending h) [frame] rest _ ⟨rfl, rfl, rfl, rfl, rfl, rfl⟩
    hperm ?_ ?_ ?_
    (Perm.refl _) (fun hzero => (Bool.false_ne_true hzero).elim) (fun _ _ => rfl)
    nofun
  · intro other hother
    exact write_mem_of_ne _ _ fun heq => hother (mem_singleton.2 heq)
  · intro p hp
    exact head_setPending (m := m.write frame link (m.lists h).pending) h (frame + 1) hp
  · have hpending : Chained m.next (m.lists h).pending (at' (some (.pending h))) :=
      hsound.holds (.pending h)
    have hpushed := hpending.push (hsound.notMem_place hin (.pending h))
    rw [← next_write] at hpushed
    change Chained _ ((m.pend h frame).lists h).pending _
    rw [Machine.pend, setLists_self]
    exact hpushed

/-- The frame goes onto the hart's stage. -/
theorem stageOn {frame : ℕ} {rest : List ℕ} (pid : ℕ)
    (hhands : at' none = frame :: rest) :
    Sound ram (m.setLists h
        { m.lists h with staged := (m.lists h).staged ++ [frame], stagedPid := pid })
      (update (update at' none rest) (some (.stage h))
        ((m.lists h).staged ++ [frame])) deferred uncounted := by
  have hperm : (at' none).Perm ([frame] ++ rest) := by rw [hhands]; exact Perm.refl _
  have hstaged : at' (some (.stage h)) = (m.lists h).staged := hsound.holds (.stage h)
  refine hsound.put (.stage h) [frame] rest _ ⟨rfl, rfl, rfl, rfl, rfl, rfl⟩ hperm
    (fun _ _ => rfl) (fun p hp => head_setStaged h _ _ hp) ?_ ?_
    (fun hzero => (Bool.false_ne_true hzero).elim) (fun _ _ => rfl) nofun
  · change (m.lists h).staged ++ [frame] = ((m.setLists h _).lists h).staged
    rw [setLists_self]
  · rw [hstaged]
    exact perm_append_comm

/-- The hart's stage is emptied into the hands. -/
theorem unstage : Sound ram (m.setLists h { m.lists h with staged := [] })
      (update (update at' (some (.stage h)) []) none
        ((m.lists h).staged ++ at' none)) deferred uncounted := by
  have hstaged : at' (some (.stage h)) = (m.lists h).staged := hsound.holds (.stage h)
  refine hsound.fetch (.stage h) _ [] ⟨rfl, rfl, rfl, rfl, rfl, rfl⟩ ?_ (fun _ _ => rfl)
    (fun p hp => head_setStaged h [] _ hp) ?_ (fun _ _ => rfl) nofun
  · rw [hstaged, append_nil]
  · change [] = ((m.setLists h _).lists h).staged
    rw [setLists_self]

/-- A pending list's first frame comes into the hands. -/
theorem unpend {h : Fin harts} (hpending : (m.lists h).pending ≠ 0) :
    ∃ rest, at' (some (.pending h)) = ((m.lists h).pending - 1) :: rest ∧
      Sound ram (m.unpend h)
        (update (update at' (some (.pending h)) rest) none
          (((m.lists h).pending - 1) :: at' none)) deferred uncounted := by
  have hchain : Chained m.next (m.lists h).pending (at' (some (.pending h))) :=
    hsound.holds (.pending h)
  obtain ⟨rest, hlist, hrest⟩ := hchain.cons_of_pos hpending
  have htables : SameTables m (m.unpend h) := ⟨rfl, rfl, rfl, rfl, rfl, rfl⟩
  refine ⟨rest, hlist, hsound.fetch (.pending h) [(m.lists h).pending - 1]
    rest htables ?_
    (fun _ _ => rfl) (fun p hp => head_setPending h _ hp) ?_ (fun _ _ => rfl)
    nofun⟩
  · rw [hlist]
    exact Perm.refl _
  · change Chained m.next ((m.unpend h).lists h).pending rest
    rw [Machine.unpend, setLists_self]
    exact hrest

/-- A done list, taken whole, becomes the list being committed. -/
theorem takeDone (hhands : at' none = []) (hcommitting : m.committing = none) :
    ∃ at'', Sound ram { (m.takeDone h).1 with committing := (m.takeDone h).2 }
      at'' deferred
      uncounted ∧ at'' none = [] := by
  have hempty : at' (some .committing) = [] := by
    have hchain : Chained m.next (frameWord m.committing) (at' (some .committing)) :=
      hsound.holds .committing
    rw [hcommitting] at hchain
    exact hchain.nil_of_zero
  have hdone : Chained m.next (m.lists h).done (at' (some (.done h))) :=
    hsound.holds (.done h)
  have htables : SameTables m (m.setLists h { m.lists h with done := 0 }) :=
    ⟨rfl, rfl, rfl, rfl, rfl, rfl⟩
  have hfetched : Sound ram (m.setLists h { m.lists h with done := 0 })
      (update (update at' (some (.done h)) []) none
        (at' (some (.done h)) ++ at' none)) deferred uncounted := by
    refine hsound.fetch (.done h) (at' (some (.done h))) [] htables ?_ (fun _ _ => rfl)
      (fun p hp => head_setDone h 0 hp) ?_ (fun _ _ => rfl) nofun
    · rw [append_nil]
    · change Chained m.next ((m.setLists h _).lists h).done []
      rw [setLists_self]
      rfl
  have hput : SameTables (m.setLists h { m.lists h with done := 0 })
      { (m.takeDone h).1 with committing := (m.takeDone h).2 } :=
        ⟨rfl, rfl, rfl, rfl, rfl, rfl⟩
  refine ⟨_, hfetched.put .committing (at' (some (.done h))) []
    (at' (some (.done h))) hput ?_
    (fun _ _ => rfl) ?_ ?_ ?_ ?_ (fun _ _ => rfl) nofun, ?_⟩
  · rw [update_self, hhands]
  · intro p hp
    cases p with
    | committing => exact absurd rfl hp
    | stage g => rfl
    | pending g => rfl
    | zeroing g => rfl
    | done g => rfl
  · change Chained m.next (frameWord (named (m.lists h).done)) _
    rw [frameWord_named]
    exact hdone
  · rw [update_of_ne (some_ne_none _), update_of_ne (by simp), hempty, append_nil]
  · intro _ frame hframe
    exact hsound.zeroed (.done h) rfl frame hframe
  · rw [update_of_ne (some_ne_none _).symm, update_self]

/-- The list being committed gives its first frame up, now zero in every word. -/
theorem unlink {index : ℕ} (hcommitting : m.committing = some index) :
    ∃ rest, Sound ram { (m.unlink index).1 with committing := (m.unlink index).2 }
        (update (update at' (some .committing) rest) none (index :: at' none))
        deferred uncounted ∧ Zero ((m.unlink index).1.mem index) := by
  have hchain : Chained m.next (frameWord m.committing) (at' (some .committing)) :=
    hsound.holds .committing
  rw [hcommitting] at hchain
  obtain ⟨rest, hlist, hrest⟩ := chained_some hchain
  have hnodup := nodup_cons.1 (hlist ▸ hsound.placed.nodup (some .committing))
  have hbut := hsound.zeroed .committing rfl index (hlist ▸ mem_cons_self)
  have htables : SameTables m { (m.unlink index).1 with
      committing := (m.unlink index).2 } :=
    ⟨rfl, rfl, rfl, rfl, rfl, rfl⟩
  refine ⟨rest, hsound.fetch .committing [index] rest htables ?_ ?_ ?_ ?_
    (fun _ _ => rfl) nofun, ?_⟩
  · rw [hlist]
    exact Perm.refl _
  · intro frame hframe
    exact write_mem_of_ne _ _ fun heq => hframe (mem_singleton.2 heq)
  · intro p hp
    cases p with
    | committing => exact absurd rfl hp
    | stage g => rfl
    | pending g => rfl
    | zeroing g => rfl
    | done g => rfl
  · change Chained (m.write index link 0).next (frameWord (named (m.mem index link)))
      rest
    rw [frameWord_named, next_write]
    exact Chained.update hrest hnodup.1 0
  · change Zero ((m.write index link 0).mem index)
    rw [write_mem_self]
    exact zero_of_zeroBut (zeroBut_update hbut 0) (update_self _ _ _)

/-- Frames linked in a chain, all in the hands, go onto a pending list whole. -/
theorem pendChain {first last : ℕ} {nodes : List ℕ}
    (hhands : (at' none).Perm (nodes ++ [last]))
    (hchain : Chained m.next (first + 1) (nodes ++ [last])) :
    ∃ at'', Sound ram (m.pendChain h first last) at'' deferred uncounted ∧
      at'' none = [] := by
  have hin : ∀ frame ∈ nodes ++ [last], frame ∈ at' none := fun frame hframe =>
    hhands.mem_iff.2 hframe
  have hlast : last ∈ nodes ++ [last] :=
    mem_append_right nodes (mem_singleton_self last)
  have hnodup := nodup_append'.1 (hhands.nodup_iff.1 (hsound.placed.nodup none))
  have hpending : Chained m.next (m.lists h).pending (at' (some (.pending h))) :=
    hsound.holds (.pending h)
  have hjoined :=
    hchain.join hpending (fun hmem => hnodup.2.2 hmem (mem_singleton_self last))
    (hsound.notMem_place (hin last hlast) (.pending h))
  have htables : SameTables m (m.pendChain h first last) :=
    ⟨rfl, rfl, rfl, rfl, rfl, rfl⟩
  refine ⟨_, hsound.put (.pending h) (nodes ++ [last]) [] _ htables ?_ ?_ ?_ ?_
    (Perm.refl _)
    (fun hzero => (Bool.false_ne_true hzero).elim) (fun _ _ => rfl) nofun, ?_⟩
  · rw [append_nil]
    exact hhands
  · intro frame hframe
    exact write_mem_of_ne _ _ fun heq => hframe (heq ▸ hlast)
  · intro p hp
    exact head_setPending (m := m.write last link (m.lists h).pending) h (first + 1) hp
  · change Chained (m.write last link (m.lists h).pending).next
      ((m.pendChain h first last).lists h).pending _
    rw [Machine.pendChain, setLists_self, next_write]
    exact hjoined
  · rw [update_of_ne (some_ne_none _).symm, update_self]

/-- A store to a frame nothing relies on: an owned one, or one in flight that is staged
or in the lock holder's hands. -/
theorem write {frame word : ℕ} (value : ℕ) (howner : m.owner frame ≠ none)
    (hplace : ∀ p : Place harts, p.isOpen = false → frame ∉ at' (some p))
    (hdeferred : word = link → frame ∉ deferred) :
    Sound ram (m.write frame word value) at' deferred uncounted := by
  refine hsound.remember ?_ ?_ ?_
  · intro other hnone
    exact Or.inl (update_of_ne (fun heq : other = frame => howner (heq ▸ hnone)) _ _)
  · intro p hopen other hother
    exact update_of_ne (fun heq : other = frame => hplace p hopen (heq ▸ hother)) _ _
  · intro other hother
    by_cases heq : other = frame
    · subst heq
      have hword : link ≠ word := fun hword => hdeferred hword.symm hother
      rw [update_self, update_of_ne hword]
    · rw [update_of_ne heq]

/-- A frame in the hands may be zeroed. -/
theorem zero {frame : ℕ} (hhands : frame ∈ at' none) :
    Sound ram (m.zero frame) at' deferred uncounted := by
  refine hsound.remember ?_ ?_ ?_
  · intro other hnone
    refine Or.inl (update_of_ne (fun heq => ?_) _ _)
    have hflight := hsound.placed.member_of_mem hhands
    rw [← heq, InFlight, hnone] at hflight
    exact some_ne_none _ hflight.2.symm
  · intro p _ other hother
    exact update_of_ne
      (fun heq : other = frame => hsound.notMem_place hhands p (heq ▸ hother)) _ _
  · intro other hother
    have hne : other ≠ frame := fun heq => hsound.notMem_deferred hhands (heq ▸ hother)
    rw [update_of_ne hne]

/-- A free frame may be zeroed. -/
theorem zeroFree {frame : ℕ}
    (hfree : m.owner frame = none) :
    Sound ram (m.zero frame) at' deferred uncounted := by
  have hnot : ¬ m.InFlight ram frame := by
    rintro ⟨-, hflight⟩
    rw [hfree] at hflight
    exact some_ne_none _ hflight.symm
  refine hsound.remember ?_ ?_ ?_
  · intro other _
    by_cases heq : other = frame
    · subst heq
      exact Or.inr (zero_mem_self other)
    · exact Or.inl (zero_mem_of_ne heq)
  · intro p _ other hother
    exact zero_mem_of_ne fun heq => hsound.placed.notMem hnot (some p) (heq ▸ hother)
  · intro other hother
    have hne : other ≠ frame := by
      rintro rfl
      exact some_ne_none _ ((hsound.objects other hother).2.symm.trans hfree)
    exact congrFun (zero_mem_of_ne hne) link

/-- Frames are counted in flight. -/
theorem count (n : ℕ) :
    Sound ram { m with inFlight := m.inFlight + n } at' deferred (uncounted - n) :=
  { hsound with
    counted := by
      have hcounted := hsound.counted
      push_cast
      omega }

/-- An object's frame is linked onto the deferred list. -/
theorem defer {frame : ℕ} (hframe : frame < ram.frames)
    (howner : m.owner frame = some .object)
    (hnew : frame ∉ deferred) :
    Sound ram { m.write frame link (frameWord m.deferred) with
      deferred := some frame } at'
      (frame :: deferred) uncounted := by
  have hnot : ¬ m.InFlight ram frame := by
    rintro ⟨-, hflight⟩
    rw [howner] at hflight
    exact absurd hflight (by decide)
  have hwritten := hsound.write (frameWord m.deferred) (howner ▸ some_ne_none _)
    (fun p _ => hsound.placed.notMem hnot (some p)) fun _ : link = link => hnew
  exact {
    hwritten with
    chained := by
      have hpushed := hsound.chained.push hnew
      rw [← next_write] at hpushed
      exact hpushed
    nodup := nodup_cons.2 ⟨hnew, hsound.nodup⟩
    objects := fun other hother => by
      rcases mem_cons.1 hother with rfl | hrest
      · exact ⟨hframe, howner⟩
      · exact hsound.objects other hrest }

/-- The frame in the hands goes to an idle hart. -/
theorem hold {frame : ℕ} (hhands : at' none = [frame]) (hidle : (m.doing h).held = []) :
    ∃ at'', Sound ram (m.setDoing h (.zeroing frame 0)) at'' deferred uncounted ∧
      at'' none = [] := by
  have hempty : at' (some (.zeroing h)) = [] := (hsound.held h).trans hidle
  have htables : SameTables m (m.setDoing h (.zeroing frame 0)) :=
    ⟨rfl, rfl, rfl, rfl, rfl, rfl⟩
  refine ⟨_, hsound.put (.zeroing h) [frame] [] [frame] htables ?_ (fun _ _ => rfl)
    (fun p hp => head_setDoing h _ hp) ?_ ?_
    (fun hzero => (Bool.false_ne_true hzero).elim) ?_ ?_, ?_⟩
  · rw [hhands]
    exact Perm.refl _
  · change [frame] = ((m.setDoing h (.zeroing frame 0)).doing h).held
    rw [setDoing_doing, update_self]
    rfl
  · rw [hempty]
    exact Perm.refl _
  · intro g hg
    have hne : g ≠ h := fun heq => hg (by rw [heq])
    rw [setDoing_doing, update_of_ne hne]
  · rintro g ⟨⟩
    rw [setDoing_doing, update_self]
    exact fun i hi => absurd hi (Nat.not_lt_zero i)
  · rw [update_of_ne (some_ne_none _).symm, update_self]

end

end Sound

end Redoubt.Frames.Machine
