import Redoubt.Frames.Reclaim
import Redoubt.Library.Chains

/-!
# What holds of the frames in flight

Every frame in flight is in one place: a hart's stage, its pending list, its hands while
it zeroes it, its done list, or the list being committed.  Inside an operation a frame
may also be in the hands of the lock's holder, the place `none`, which is empty between
operations; each primitive step of the model moves frames between these places, and
`Sound` is what they all keep.
-/

namespace Redoubt.Frames

open Function List Option Bool

/-- Where a frame in flight is. -/
inductive Place (harts : ℕ) where
  | stage (h : Fin harts)
  | pending (h : Fin harts)
  | zeroing (h : Fin harts)
  | done (h : Fin harts)
  | committing
deriving DecidableEq

/-- The frames of this place are zero but for their links. -/
def Place.isZeroed {harts : ℕ} : Place harts → Bool
  | .done _ => true
  | .committing => true
  | _ => false

/-- Stores may still reach the frames of this place. -/
def Place.isOpen {harts : ℕ} : Place harts → Bool
  | .stage _ => true
  | _ => false

theorem Place.isOpen_of_isZeroed {harts : ℕ} {p : Place harts}
    (hzeroed : p.isZeroed = true) :
    p.isOpen = false := by
  cases p with
  | stage h => exact (false_ne_true hzeroed).elim
  | pending h => rfl
  | zeroing h => rfl
  | done h => rfl
  | committing => rfl

/-- The frame a hart has in its hands. -/
def Doing.held : Doing → List ℕ
  | .zeroing frame _ => [frame]
  | .linking frame _ => [frame]
  | .pushing frame _ => [frame]
  | _ => []

/-- A frame is zero in every word but its link. -/
def ZeroBut (page : ℕ → ℕ) : Prop :=
  ∀ word < pageWords, word ≠ link → page word = 0

/-- What a hart in `zero_taken` has written so far. -/
def Doing.Work (doing : Doing) (mem : ℕ → ℕ → ℕ) : Prop :=
  match doing with
  | .zeroing frame word => ∀ i < word, i < pageWords → mem frame i = 0
  | .linking frame _ => ZeroBut (mem frame)
  | .pushing frame head => ZeroBut (mem frame) ∧ mem frame link = head
  | _ => True

theorem Doing.Work.congr {doing : Doing} {mem mem' : ℕ → ℕ → ℕ} (hwork : doing.Work mem)
    (hsame : ∀ frame ∈ doing.held, mem' frame = mem frame) : doing.Work mem' := by
  cases doing with
  | zeroing frame word =>
    intro i hi hpage
    rw [hsame frame mem_cons_self, hwork i hi hpage]
  | linking frame head =>
    change ZeroBut (mem' frame)
    rw [hsame frame mem_cons_self]
    exact hwork
  | pushing frame head =>
    change ZeroBut (mem' frame) ∧ mem' frame link = head
    rw [hsame frame mem_cons_self]
    exact hwork
  | running => trivial
  | reclaiming want => trivial
  | waiting want => trivial
  | pushed frame => trivial

theorem zero_of_zeroBut {page : ℕ → ℕ} (hbut : ZeroBut page) (hlink : page link = 0) :
    Zero page := by
  intro word hword
  by_cases heq : word = link
  · rw [heq, hlink]
  · exact hbut word hword heq

theorem zeroBut_update {page : ℕ → ℕ} (hbut : ZeroBut page) (value : ℕ) :
    ZeroBut (update page link value) := by
  intro word hword hne
  rw [update_of_ne hne, hbut word hword hne]

/-- A count over a range, one value changed. -/
theorem countP_range_update (p : ℕ → Bool) {count index : ℕ}
    (hindex : index < count) (b : Bool) :
    (range count).countP (update p index b) + (p index).toNat =
      (range count).countP p + b.toNat := by
  induction count with
  | zero => omega
  | succ count ih =>
    rw [range_succ, countP_append, countP_append, countP_singleton, countP_singleton]
    rcases Nat.lt_succ_iff_lt_or_eq.1 hindex with hlt | rfl
    · have hrest := ih hlt
      rw [update_of_ne (ne_of_gt hlt)]
      omega
    · have hsame : (range index).countP (update p index b) =
          (range index).countP p := by
        apply countP_congr
        intro i hi
        rw [update_of_ne (ne_of_lt (mem_range.1 hi))]
      rw [hsame]
      cases b <;> cases p index <;> simp

namespace Machine

variable {harts : ℕ} (ram : Ram)

def next (m : Machine harts) (frame : ℕ) : ℕ :=
  m.mem frame link

/-- How a place is kept: as a list, or as the name of a chain's first frame. -/
def head (m : Machine harts) : Place harts → List ℕ ⊕ ℕ
  | .stage h => .inl (m.lists h).staged
  | .pending h => .inr (m.lists h).pending
  | .zeroing h => .inl (m.doing h).held
  | .done h => .inr (m.lists h).done
  | .committing => .inr (frameWord m.committing)

/-- Place `p` holds the frames `frames`, in this order. -/
def Holds (m : Machine harts) (p : Place harts) (frames : List ℕ) : Prop :=
  match m.head p with
  | .inl list => frames = list
  | .inr first => Chained m.next first frames

def InFlight (m : Machine harts) (frame : ℕ) : Prop :=
  frame < ram.frames ∧ m.owner frame = some .inFlight

/-- What every step of the frames' machinery keeps, with the frames each place holds,
the deferred list, and the frames in flight that `inFlight` does not count yet. -/
structure Sound (m : Machine harts) (at' : Option (Place harts) → List ℕ)
    (deferred : List ℕ)
    (uncounted : ℤ) : Prop where
  exact : Exact ram.frames ram.levels (fun index => (m.owner index).isNone) m.bits
  dirty : ∀ index < ram.frames, m.isDirty index = true → m.owner index = none
  clean : ∀ index < ram.frames, m.owner index = none → m.isDirty index = false →
    Zero (m.mem index)
  holds : ∀ p, m.Holds p (at' (some p))
  zeroed : ∀ p : Place harts, p.isZeroed = true → ∀ frame ∈ at' (some p),
    ZeroBut (m.mem frame)
  work : ∀ h, (m.doing h).Work m.mem
  placed : Placed (m.InFlight ram) at'
  chained : Chained m.next (frameWord m.deferred) deferred
  nodup : deferred.Nodup
  objects : ∀ frame ∈ deferred, frame < ram.frames ∧ m.owner frame = some .object
  counted : (m.inFlight : ℤ) + uncounted =
    ((range ram.frames).countP fun index => m.owner index = some .inFlight : ℕ)
  running : m.stopped = false

variable {ram} {m m' : Machine harts} {at' : Option (Place harts) → List ℕ}
    {deferred : List ℕ}
variable {uncounted : ℤ}

theorem Holds.congr {p : Place harts} {frames : List ℕ} (hholds : m.Holds p frames)
    (hhead : m'.head p = m.head p)
    (hnext : ∀ frame ∈ frames, m'.next frame = m.next frame) :
    m'.Holds p frames := by
  unfold Holds at hholds ⊢
  rw [hhead]
  cases hkept : m.head p with
  | inl list =>
    rw [hkept] at hholds
    exact hholds
  | inr first =>
    rw [hkept] at hholds
    exact hholds.congr hnext

@[simp] theorem write_mem_self (frame word value : ℕ) :
    (m.write frame word value).mem frame = update (m.mem frame) word value := by
  simp [write]

theorem write_mem_of_ne {frame other : ℕ} (word value : ℕ) (hne : other ≠ frame) :
    (m.write frame word value).mem other = m.mem other := by
  simp [write, hne]

theorem zero_mem_of_ne {frame other : ℕ} (hne : other ≠ frame) :
    (m.zero frame).mem other = m.mem other := by
  simp [zero, hne]

theorem zero_mem_self (frame : ℕ) : Zero ((m.zero frame).mem frame) := by
  intro word hword
  simp [zero, hword]

section Heads

variable (h : Fin harts)

theorem setLists_lists (lists : Lists) :
    (m.setLists h lists).lists = update m.lists h lists := rfl

theorem setDoing_doing (doing : Doing) :
    (m.setDoing h doing).doing = update m.doing h doing := rfl

theorem setLists_field {β : Type*} (field : Lists → β) (lists : Lists)
    (hsame : field lists = field (m.lists h)) (other : Fin harts) :
    field ((m.setLists h lists).lists other) = field (m.lists other) := by
  rw [setLists_lists]
  by_cases heq : other = h
  · subst heq
    rw [update_self, hsame]
  · rw [update_of_ne heq]

theorem setLists_of_ne (lists : Lists) {other : Fin harts} (hne : other ≠ h) :
    (m.setLists h lists).lists other = m.lists other := by
  rw [setLists_lists, update_of_ne hne]

@[simp] theorem setLists_self (lists : Lists) :
    (m.setLists h lists).lists h = lists := by
  rw [setLists_lists, update_self]

variable {p : Place harts}

/-- A place's list stays where the hart's own lists are what they were. -/
theorem head_setLists (lists : Lists)
    (hstaged : p = .stage h → lists.staged = (m.lists h).staged)
    (hpending : p = .pending h → lists.pending = (m.lists h).pending)
    (hdone : p = .done h → lists.done = (m.lists h).done) :
    (m.setLists h lists).head p = m.head p := by
  have hfield : ∀ {β : Type} (field : Lists → β) (g : Fin harts),
      (g = h → field lists = field (m.lists h)) →
        field ((m.setLists h lists).lists g) = field (m.lists g) := by
    intro β field g hsame
    by_cases heq : g = h
    · exact setLists_field h field lists (hsame heq) g
    · rw [setLists_of_ne h _ heq]
  cases p with
  | stage g =>
    exact congrArg Sum.inl (hfield Lists.staged g fun heq => hstaged (by rw [heq]))
  | pending g =>
    exact congrArg Sum.inr (hfield Lists.pending g fun heq => hpending (by rw [heq]))
  | zeroing g => rfl
  | done g =>
    exact congrArg Sum.inr (hfield Lists.done g fun heq => hdone (by rw [heq]))
  | committing => rfl

theorem head_setPending (pending : ℕ) (hp : p ≠ .pending h) :
    (m.setLists h { m.lists h with pending := pending }).head p = m.head p :=
  head_setLists h _ (fun _ => rfl) (fun heq => absurd heq hp) fun _ => rfl

theorem head_setDone (done : ℕ) (hp : p ≠ .done h) :
    (m.setLists h { m.lists h with done := done }).head p = m.head p :=
  head_setLists h _ (fun _ => rfl) (fun _ => rfl) fun heq => absurd heq hp

theorem head_setStaged (staged : List ℕ) (stagedPid : ℕ) (hp : p ≠ .stage h) :
    (m.setLists h { m.lists h with staged := staged, stagedPid := stagedPid }).head p =
    m.head p :=
  head_setLists h _ (fun heq => absurd heq hp) (fun _ => rfl) fun _ => rfl

theorem head_setZeroing (zeroing : ℕ) (p : Place harts) :
    (m.setLists h { m.lists h with zeroing := zeroing }).head p = m.head p :=
  head_setLists h _ (fun _ => rfl) (fun _ => rfl) fun _ => rfl

theorem head_setDoing (doing : Doing) (hp : p ≠ .zeroing h) :
    (m.setDoing h doing).head p = m.head p := by
  cases p with
  | zeroing g =>
    have hne : g ≠ h := fun heq => hp (by rw [heq])
    rw [head, setDoing_doing, update_of_ne hne, head]
  | stage g => rfl
  | pending g => rfl
  | done g => rfl
  | committing => rfl

end Heads

section SetOwner

variable (m) (index : ℕ) (given : Option Owner)

theorem setOwner_owner :
    (m.setOwner ram index given).owner = update m.owner index given := by
  unfold setOwner
  split <;> rfl

theorem setOwner_same : (m.setOwner ram index given).mem = m.mem ∧
    (m.setOwner ram index given).lists = m.lists ∧
    (m.setOwner ram index given).doing = m.doing ∧
    (m.setOwner ram index given).lock = m.lock ∧
    (m.setOwner ram index given).committing = m.committing ∧
    (m.setOwner ram index given).deferred = m.deferred ∧
    (m.setOwner ram index given).inFlight = m.inFlight ∧
    (m.setOwner ram index given).stopped = m.stopped := by
  unfold setOwner
  split <;> exact ⟨rfl, rfl, rfl, rfl, rfl, rfl, rfl, rfl⟩

/-- A frame that leaves the bitmap leaves the dirty set. -/
theorem setOwner_isDirty (other : ℕ) : (m.setOwner ram index given).isDirty other =
      if other = index ∧ m.owner index = none ∧ given ≠ none then false
      else m.isDirty other := by
  unfold setOwner
  split
  case h_1 _ value hnone =>
    rw [isDirty]
    by_cases hword : other / 64 = index / 64
    · rw [hword]
      dsimp only
      rw [update_self, getLsbD_markWord _ _ (Nat.mod_lt _ (by decide))]
      by_cases hsame : other = index
      · rw [if_pos (by rw [hsame]), if_pos ⟨hsame, hnone, some_ne_none value⟩]
      · rw [if_neg (by omega), if_neg fun hboth => hsame hboth.1, isDirty, hword]
    · have hother : other ≠ index := fun heq => hword (by rw [heq])
      dsimp only
      rw [update_of_ne hword, if_neg fun hboth => hother hboth.1, isDirty]
  case h_2 _ _ hsome => rw [if_neg fun hboth => hboth.2.2 rfl]; rfl
  case h_3 hnot _ =>
    rw [if_neg]
    · rfl
    · rintro ⟨-, hnone, hgiven⟩
      obtain ⟨value, rfl⟩ := ne_none_iff_exists'.1 hgiven
      exact hnot value hnone rfl

theorem setOwner_bits : (m.setOwner ram index given).bits =
      if given.isNone = (m.owner index).isNone then m.bits
      else markFree ram.frames ram.levels index given.isNone m.bits := by
  unfold setOwner
  cases howner : m.owner index <;> cases given <;> rfl

theorem setOwner_exact (hindex : index < ram.frames)
    (hexact : Exact ram.frames ram.levels (fun i => (m.owner i).isNone) m.bits) :
    Exact ram.frames ram.levels (fun i => ((m.setOwner ram index given).owner i).isNone)
      (m.setOwner ram index given).bits := by
  have hfree : (fun i => ((m.setOwner ram index given).owner i).isNone) =
      update (fun i => (m.owner i).isNone) index given.isNone := by
    funext i
    rw [setOwner_owner]
    by_cases hi : i = index
    · rw [hi, update_self, update_self]
    · rw [update_of_ne hi, update_of_ne hi]
  rw [hfree, setOwner_bits]
  split_ifs with hsame
  · rw [hsame, update_eq_self]
    exact hexact
  · exact exact_markFree given.isNone hindex hexact

theorem inFlight_setOwner (frame : ℕ) :
    (m.setOwner ram index given).InFlight ram frame ↔
      frame < ram.frames ∧
        (if frame = index then given = some .inFlight else m.owner frame =
          some .inFlight) := by
  rw [InFlight, setOwner_owner]
  by_cases heq : frame = index
  · rw [heq, update_self, if_pos rfl]
  · rw [update_of_ne heq, if_neg heq]

/-- How many frames are in flight by the ownership table. -/
theorem count_setOwner (hindex : index < ram.frames) : (range ram.frames).countP
        (fun i => (m.setOwner ram index given).owner i = some .inFlight) +
      (decide (m.owner index = some .inFlight)).toNat =
    (range ram.frames).countP (fun i => m.owner i = some .inFlight) +
      (decide (given = some .inFlight)).toNat := by
  have hsame :
      (fun i => decide ((m.setOwner ram index given).owner i = some .inFlight)) =
      update (fun i => decide (m.owner i = some .inFlight)) index
        (decide (given = some .inFlight)) := by
    funext i
    rw [setOwner_owner]
    by_cases hi : i = index
    · rw [hi, update_self, update_self]
    · rw [update_of_ne hi, update_of_ne hi]
  rw [hsame]
  exact countP_range_update (fun i => decide (m.owner i = some .inFlight)) hindex _

end SetOwner

namespace Sound

/-- A deferred frame is no frame in flight. -/
theorem notMem_deferred (hsound : Sound ram m at' deferred uncounted)
    {i : Option (Place harts)}
    {frame : ℕ} (hmem : frame ∈ at' i) : frame ∉ deferred := by
  intro hdeferred
  have hflight := hsound.placed.member_of_mem hmem
  have hobject := (hsound.objects frame hdeferred).2
  rw [hflight.2] at hobject
  exact absurd hobject (by decide)

theorem held (hsound : Sound ram m at' deferred uncounted) (h : Fin harts) :
    at' (some (.zeroing h)) = (m.doing h).held :=
  hsound.holds (.zeroing h)

/-- Memory may change where no list and no deferred link is, and a free frame may be
zeroed. -/
theorem remember (hsound : Sound ram m at' deferred uncounted) {mem : ℕ → ℕ → ℕ}
    (hfree : ∀ frame, m.owner frame = none → mem frame = m.mem frame ∨ Zero (mem frame))
    (hlists : ∀ p : Place harts, p.isOpen = false → ∀ frame ∈ at' (some p),
      mem frame = m.mem frame)
    (hdeferred : ∀ frame ∈ deferred, mem frame link = m.mem frame link) :
    Sound ram { m with mem := mem } at' deferred uncounted := by
  have hnext : ∀ p : Place harts, p.isOpen = false → ∀ frame ∈ at' (some p),
      ({ m with mem := mem } : Machine harts).next frame = m.next frame := by
    intro p hopen frame hframe
    exact congrFun (hlists p hopen frame hframe) link
  exact {
    hsound with
    clean := fun index hindex hnone hclean => by
      rcases hfree index hnone with hsame | hzero
      · change Zero (mem index)
        rw [hsame]
        exact hsound.clean index hindex hnone hclean
      · exact hzero
    holds := fun p => by
      cases hopen : p.isOpen with
      | false => exact (hsound.holds p).congr rfl (hnext p hopen)
      | true =>
        -- An open place is kept as a list, whatever its frames hold.
        cases p with
        | stage h => exact hsound.holds (.stage h)
        | zeroing h => exact (false_ne_true hopen).elim
        | pending h => exact (false_ne_true hopen).elim
        | done h => exact (false_ne_true hopen).elim
        | committing => exact (false_ne_true hopen).elim
    zeroed := fun p hzeroed frame hframe => by
      change ZeroBut (mem frame)
      rw [hlists p (Place.isOpen_of_isZeroed hzeroed) frame hframe]
      exact hsound.zeroed p hzeroed frame hframe
    work := fun h => (hsound.work h).congr fun frame hframe =>
      hlists (.zeroing h) rfl frame (hsound.held h ▸ hframe)
    chained := hsound.chained.congr hdeferred }

variable {index : ℕ}

section

variable (hsound : Sound ram m at' deferred uncounted)
include hsound

/-- A frame changes owner: what the bitmap and the dirty set need, and what is left to
say of the places. -/
theorem setOwner {given : Option Owner}
    {at'' : Option (Place harts) → List ℕ} {uncounted' : ℤ}
    (hindex : index < ram.frames)
    (hdeferred : index ∉ deferred) (hzero : given = none → Zero (m.mem index))
    (hplaced : Placed ((m.setOwner ram index given).InFlight ram) at'')
    (hat : ∀ p, at'' (some p) = at' (some p))
    (hcounted : (m.inFlight : ℤ) + uncounted' = ((range ram.frames).countP
      fun i => (m.setOwner ram index given).owner i = some .inFlight : ℕ)) :
    Sound ram (m.setOwner ram index given) at'' deferred uncounted' := by
  obtain ⟨hmem, hlists, hdoing, hlock, hcommitting, hdeferred', hinFlight, hstopped⟩ :=
    @setOwner_same harts ram m index given
  have hother : ∀ frame, frame ≠ index →
      (m.setOwner ram index given).owner frame = m.owner frame := by
    intro frame hne
    rw [setOwner_owner, update_of_ne hne]
  have hself : (m.setOwner ram index given).owner index = given := by
    rw [setOwner_owner, update_self]
  have hnext : (m.setOwner ram index given).next = m.next := by
    funext frame
    rw [next, next, hmem]
  constructor
  · exact setOwner_exact m index given hindex hsound.exact
  · intro i hi hdirty
    rw [setOwner_isDirty] at hdirty
    split_ifs at hdirty with hleft
    have hnone := hsound.dirty i hi hdirty
    by_cases heq : i = index
    · subst heq
      rw [hself]
      by_contra hgiven
      exact hleft ⟨rfl, hnone, hgiven⟩
    · rw [hother i heq, hnone]
  · intro i hi hnone hclean
    rw [hmem]
    by_cases heq : i = index
    · subst heq
      exact hzero (hself.symm.trans hnone)
    · rw [hother i heq] at hnone
      rw [setOwner_isDirty, if_neg fun hboth => heq hboth.1] at hclean
      exact hsound.clean i hi hnone hclean
  · intro p
    rw [hat]
    refine (hsound.holds p).congr ?_ fun frame _ => by rw [hnext]
    cases p <;> simp only [head, hlists, hdoing, hcommitting]
  · intro p hzeroed frame hframe
    rw [hat] at hframe
    rw [hmem]
    exact hsound.zeroed p hzeroed frame hframe
  · rw [hmem, hdoing]
    exact hsound.work
  · exact hplaced
  · rw [hdeferred', hnext]
    exact hsound.chained
  · exact hsound.nodup
  · intro frame hframe
    have hne : frame ≠ index := fun heq => hdeferred (heq ▸ hframe)
    rw [hother frame hne]
    exact hsound.objects frame hframe
  · rw [hinFlight, hcounted]
  · rw [hstopped, hsound.running]

/-- An owned frame goes in flight, in the lock holder's hands. -/
theorem enlist (hindex : index < ram.frames) (howner : m.owner index ≠ some .inFlight)
    (hdeferred : index ∉ deferred) :
    Sound ram (m.setOwner ram index (some .inFlight))
      (update at' none (index :: at' none)) deferred (uncounted + 1) := by
  refine hsound.setOwner hindex hdeferred (fun hnone => absurd hnone (some_ne_none _))
    ?_
    (fun p => update_of_ne (some_ne_none p) _ _) ?_
  · have hadded := hsound.placed.add (i := none) (Perm.refl ([index] ++ at' none))
      (nodup_singleton index) fun a ha hflight => by
        rw [mem_singleton] at ha
        exact howner (ha ▸ hflight.2)
    refine hadded.congr fun frame => ?_
    rw [inFlight_setOwner]
    by_cases heq : frame = index
    · simp [heq, hindex]
    · simp [heq, InFlight]
  · have hcount := @count_setOwner harts ram m index (some .inFlight) hindex
    rw [decide_eq_false howner, decide_eq_true rfl, toNat_false, toNat_true] at hcount
    have hcounted := hsound.counted
    omega

/-- A frame not in flight changes hands, or is taken from the bitmap. -/
theorem own {owner : Owner} (hindex : index < ram.frames)
    (howner : m.owner index ≠ some .inFlight)
    (hnew : owner ≠ .inFlight) (hdeferred : index ∉ deferred) :
    Sound ram (m.setOwner ram index (some owner)) at' deferred uncounted := by
  have hnew' : some owner ≠ some Owner.inFlight := fun heq => hnew (some.inj heq)
  refine hsound.setOwner hindex hdeferred (fun hnone => absurd hnone (some_ne_none _))
    ?_
    (fun _ => rfl) ?_
  · refine hsound.placed.congr fun frame => ?_
    rw [inFlight_setOwner, InFlight]
    by_cases heq : frame = index
    · simp [heq, howner, hnew]
    · simp [heq]
  · have hcount := @count_setOwner harts ram m index (some owner) hindex
    rw [decide_eq_false howner, decide_eq_false hnew',
      Nat.add_right_cancel_iff] at hcount
    rw [hcount, hsound.counted]

/-- An owned frame that is zero goes back to the bitmap at once. -/
theorem disown (hindex : index < ram.frames) (howner : m.owner index ≠ some .inFlight)
    (hzero : Zero (m.mem index)) (hdeferred : index ∉ deferred) :
    Sound ram (m.setOwner ram index none) at' deferred uncounted := by
  have hnone : (none : Option Owner) ≠ some .inFlight := (some_ne_none _).symm
  refine hsound.setOwner hindex hdeferred (fun _ => hzero) ?_ (fun _ => rfl) ?_
  · refine hsound.placed.congr fun frame => ?_
    rw [inFlight_setOwner, InFlight]
    by_cases heq : frame = index
    · simp [heq, howner]
    · simp [heq]
  · have hcount := @count_setOwner harts ram m index none hindex
    rw [decide_eq_false howner, decide_eq_false hnone,
      Nat.add_right_cancel_iff] at hcount
    rw [hcount, hsound.counted]

end

/-- A frame in the lock holder's hands, zero, goes back to the bitmap. -/
theorem giveBack (hsound : Sound ram m at' deferred 0) {rest : List ℕ}
    (hhands : at' none = index :: rest) (hzero : Zero (m.mem index)) :
    Sound ram (m.giveBack ram index) (update at' none rest) deferred 0 := by
  have hmem : index ∈ at' none := by rw [hhands]; exact mem_cons_self
  obtain ⟨hindex, howner⟩ := hsound.placed.member_of_mem hmem
  have hnone : (none : Option Owner) ≠ some .inFlight := (some_ne_none _).symm
  have hset : Sound ram (m.setOwner ram index none) (update at' none rest)
      deferred (-1) := by
    refine hsound.setOwner hindex (hsound.notMem_deferred hmem) (fun _ => hzero) ?_
      (fun p => update_of_ne (some_ne_none p) _ _) ?_
    · have hlist : (at' none).Perm ([index] ++ rest) := by
        rw [hhands]; exact Perm.refl _
      refine (hsound.placed.remove hlist).congr fun frame => ?_
      rw [inFlight_setOwner, InFlight]
      by_cases heq : frame = index <;> simp [heq]
    · have hcount := @count_setOwner harts ram m index none hindex
      rw [decide_eq_true howner, decide_eq_false hnone, toNat_true,
        toNat_false] at hcount
      have hcounted := hsound.counted
      omega
  have hcounted := hset.counted
  rw [(@setOwner_same harts ram m index none).2.2.2.2.2.2.1] at hcounted
  exact {
    hset with
    counted := by
      change ((m.inFlight - 1 : ℕ) : ℤ) + 0 = ((range ram.frames).countP
        fun i => (m.setOwner ram index none).owner i = some .inFlight : ℕ)
      omega
    running := by
      change (m.stopped || decide (m.owner index ≠ some .inFlight)) = false
      rw [hsound.running, howner]
      rfl }

/-- Frames move between places, the ownership table and the bitmap as they are. -/
theorem move (hsound : Sound ram m at' deferred uncounted) {m' : Machine harts}
    {at'' : Option (Place harts) → List ℕ}
    (htables : m'.owner = m.owner ∧ m'.bits = m.bits ∧ m'.dirty = m.dirty ∧
      m'.inFlight = m.inFlight ∧ m'.stopped = m.stopped ∧ m'.deferred = m.deferred)
    (hmem : ∀ frame, ¬ m.InFlight ram frame → m'.mem frame = m.mem frame)
    (hplaced : Placed (m.InFlight ram) at'') (hholds : ∀ p, m'.Holds p (at'' (some p)))
    (hzeroed : ∀ p : Place harts, p.isZeroed = true → ∀ frame ∈ at'' (some p),
      ZeroBut (m'.mem frame)) (hwork : ∀ h, (m'.doing h).Work m'.mem) :
    Sound ram m' at'' deferred uncounted := by
  obtain ⟨howner, hbits, hdirty, hcount, hstopped, hdeferred⟩ := htables
  have hnot : ∀ frame ∈ deferred, ¬ m.InFlight ram frame := by
    intro frame hframe hflight
    have hobject := (hsound.objects frame hframe).2
    rw [hflight.2] at hobject
    exact absurd hobject (by decide)
  constructor
  · rw [howner, hbits]
    exact hsound.exact
  · rw [howner]
    intro index hindex hdirtied
    exact hsound.dirty index hindex (by rwa [isDirty, hdirty] at hdirtied)
  · rw [howner]
    intro index hindex hnone hclean
    rw [hmem index fun hflight => absurd (hnone.symm.trans hflight.2)
      (some_ne_none _).symm]
    exact hsound.clean index hindex hnone (by rwa [isDirty, hdirty] at hclean)
  · exact hholds
  · exact hzeroed
  · exact hwork
  · exact hplaced.congr fun frame => by rw [InFlight, InFlight, howner]
  · rw [hdeferred]
    refine hsound.chained.congr fun frame hframe => ?_
    rw [next, next, hmem frame (hnot frame hframe)]
  · exact hsound.nodup
  · rw [howner]
    exact hsound.objects
  · rw [howner, hcount]
    exact hsound.counted
  · rw [hstopped, hsound.running]

end Sound

end Machine

end Redoubt.Frames
