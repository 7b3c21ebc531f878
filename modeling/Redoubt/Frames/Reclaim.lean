import Redoubt.Frames.Bitmap

/-!
# Frames in flight

A freed frame of RAM is owned by `inFlight` until it is zeroed.  It is staged by the
hart that retired it until its process is shot down, then pending on that hart, then
zeroed by an idle hart outside the kernel lock (or under the lock by an allocation that
finds the bitmap empty), then on the idle hart's done list, and is given back to the
bitmap by a later holder of the lock.  The pending and done lists are linked through a
word of the frames themselves.

The model is the state that `mem.rs` and `reclaim.rs` share and the steps the harts
take: the operations of the lock's holder, each atomic since only the done lists are
touched outside the lock, and the zeroing of an idle hart, one write or one
compare-and-exchange at a time.  An allocation that finds the bitmap empty takes its
turns of the waiting loop as separate steps, so that zeroing happens between them.
-/

namespace Redoubt.Frames

open Function

/-- The owner of a frame in the ownership table; the kernel is a process. -/
inductive Owner where
  | process (pid : ℕ)
  | object
  | dma
  | inFlight
deriving DecidableEq, Repr

def kernelPid : ℕ := 1

def pageWords : ℕ := 512

/-- The word that links a frame in flight, the one a destruction links its deferred
frames by. -/
def link : ℕ := 100

def stageMax : ℕ := 64

def commitMax : ℕ := 64

/-- One hart's frames in flight.  `pending`, `zeroing` and `done` name a frame by its
index plus one, 0 for none. -/
structure Lists where
  staged : List ℕ
  stagedPid : ℕ
  pending : ℕ
  zeroing : ℕ
  done : ℕ
deriving DecidableEq, Repr

/-- What an allocation is for: a page of a process, with whether the budget pays for it
when asked, or a kernel object. -/
inductive Want where
  | page (pid : ℕ) (pays : Bool)
  | object
deriving DecidableEq, Repr

def Want.owner : Want → Owner
  | .page pid _ => .process pid
  | .object => .object

/-- What a hart is in the middle of. -/
inductive Doing where
  | running
  /-- In the loop of `reclaim_wait`, the lock held. -/
  | reclaiming (want : Want)
  /-- In `wait_done`, the lock held. -/
  | waiting (want : Want)
  /-- In `zero_taken`: the frame's words below `word` are written. -/
  | zeroing (frame word : ℕ)
  /-- The done list's head is read, the link is to be written. -/
  | linking (frame head : ℕ)
  /-- The link is written, the head is to be exchanged. -/
  | pushing (frame head : ℕ)
  /-- The frame is on the done list, `zeroing` still names it. -/
  | pushed (frame : ℕ)
deriving DecidableEq, Repr

/-- In the loop of `reclaim_wait`. -/
def Doing.inLoop : Doing → Bool
  | .reclaiming _ => true
  | .waiting _ => true
  | _ => false

/-- RAM's size, and a depth of the bitmap that ends in one word. -/
structure Ram where
  frames : ℕ
  levels : ℕ
  topped : Topped frames levels

structure Machine (harts : ℕ) where
  owner : ℕ → Option Owner
  bits : ℕ → BitVec 64
  dirty : ℕ → BitVec 64
  mem : ℕ → ℕ → ℕ
  inFlight : ℕ
  committing : Option ℕ
  deferring : Bool
  deferred : Option ℕ
  lists : Fin harts → Lists
  drainer : ℕ
  lock : Option (Fin harts)
  doing : Fin harts → Doing
  /-- An assertion of `give_back` failed. -/
  stopped : Bool

/-- The name of an optional frame: `budget::frame_word`. -/
def frameWord : Option ℕ → ℕ
  | none => 0
  | some index => index + 1

/-- The frame a word names. -/
def named (word : ℕ) : Option ℕ :=
  if word = 0 then none else some (word - 1)

def Zero (page : ℕ → ℕ) : Prop :=
  ∀ word < pageWords, page word = 0

namespace Machine

variable {harts : ℕ}

section

variable (m : Machine harts)

def write (frame word value : ℕ) : Machine harts :=
  { m with mem := update m.mem frame (update (m.mem frame) word value) }

def zero (frame : ℕ) : Machine harts :=
  { m with
    mem := update m.mem frame fun word => if word < pageWords then 0
      else m.mem frame word }

def setLists (h : Fin harts) (lists : Lists) : Machine harts :=
  { m with lists := update m.lists h lists }

def setDoing (h : Fin harts) (doing : Doing) : Machine harts :=
  { m with doing := update m.doing h doing }

/-- Onto this hart's pending list, linked through the frame's word. -/
def pend (h : Fin harts) (index : ℕ) : Machine harts :=
  (m.write index link (m.lists h).pending).setLists h
    { m.lists h with pending := index + 1 }

/-- A process was shot down on every hart: its staged frames are pending. -/
def shot (h : Fin harts) (pid : ℕ) : Machine harts :=
  if (m.lists h).stagedPid ≠ pid then m
  else
    (m.lists h).staged.foldl (fun m index => m.pend h index)
      (m.setLists h { m.lists h with staged := [] })

/-- `mem::shoot`: the shootdown itself, after which no hart stores to the frames, then
`shot`. -/
def shoot (h : Fin harts) (pid : ℕ) : Machine harts :=
  m.shot h pid

def stage (h : Fin harts) (index pid : ℕ) : Machine harts :=
  let lists := m.lists h
  let m :=
    if lists.staged.length = stageMax ∨
      (0 < lists.staged.length ∧ lists.stagedPid ≠ pid) then
      m.shoot h lists.stagedPid
    else m
  m.setLists h
    { m.lists h with staged := (m.lists h).staged ++ [index], stagedPid := pid }

def endSection (h : Fin harts) : Machine harts :=
  if 0 < (m.lists h).staged.length then m.shoot h (m.lists h).stagedPid else m

/-- A destruction's frames, linked already, onto this hart's pending list whole. -/
def pendChain (h : Fin harts) (first last : ℕ) : Machine harts :=
  (m.write last link (m.lists h).pending).setLists h
    { m.lists h with pending := first + 1 }

/-- The first frame of hart `h`'s pending list comes off it. -/
def unpend (h : Fin harts) : Machine harts :=
  m.setLists h { m.lists h with pending := m.mem ((m.lists h).pending - 1) link }

/-- Take one frame off a pending list, this hart's own first; the frame and its hart. -/
def popPending (me : Fin harts) : Option (Machine harts × ℕ × Fin harts) :=
  ((me :: (List.finRange harts).filter (· ≠ me)).find? fun h =>
    (m.lists h).pending ≠ 0).map
    fun h => (m.unpend h, (m.lists h).pending - 1, h)

/-- This hart is about to idle: the frame it takes to zero (0 for none), whether more
are pending, and the harts to wake. -/
def takeOne (me : Fin harts) (allIdle : Bool) : Machine harts × ℕ × Bool × ℕ :=
  let free := allIdle && (m.drainer = 0 || m.drainer = me + 1)
  let frame := if free then (m.lists me).pending else 0
  let taken :=
    if frame ≠ 0 then
      (m.unpend me).setLists me { (m.unpend me).lists me with zeroing := frame }
    else m
  if frame ≠ 0 ∧ (taken.lists me).pending ≠ 0 then
    ({ taken with drainer := me + 1 }, frame, true, 0)
  else
    let next := (List.finRange harts).find? fun h => h ≠ me ∧
      (taken.lists h).pending ≠ 0
    ({ taken with drainer := if m.drainer = me + 1 then 0 else m.drainer },
      frame, false,
      if free then next.elim 0 fun h => 2 ^ (h : ℕ) else 0)

def takeDone (h : Fin harts) : Machine harts × Option ℕ :=
  (m.setLists h { m.lists h with done := 0 }, named (m.lists h).done)

/-- The frame after `index` on a done list, its link cleared. -/
def unlink (index : ℕ) : Machine harts × Option ℕ :=
  (m.write index link 0, named (m.mem index link))

end

variable (ram : Ram) (m : Machine harts)

/-- Write the ownership table's entry, keeping the bitmap and the dirty set. -/
def setOwner (index : ℕ) (owner : Option Owner) : Machine harts :=
  match m.owner index, owner with
  | none, some _ =>
    { m with
      owner := update m.owner index owner
      bits := markFree ram.frames ram.levels index false m.bits
      dirty := update m.dirty (index / 64)
        (markWord false (m.dirty (index / 64)) (index % 64)) }
  | some _, none =>
    { m with
      owner := update m.owner index owner
      bits := markFree ram.frames ram.levels index true m.bits }
  | _, _ => { m with owner := update m.owner index owner }

def isDirty (index : ℕ) : Bool :=
  (m.dirty (index / 64)).getLsbD (index % 64)

/-- A free frame goes to `owner`, zero. -/
def take (index : ℕ) (owner : Owner) : Machine harts :=
  (if m.isDirty index then m.zero index else m).setOwner ram index (some owner)

/-- A frame in flight and zero goes back to the bitmap. -/
def giveBack (index : ℕ) : Machine harts :=
  { m.setOwner ram index none with
    inFlight := m.inFlight - 1
    stopped := m.stopped || m.owner index ≠ some .inFlight }

/-- The inner loop of `commit`: done lists are taken until one is not empty. -/
def refill : List (Fin harts) → Machine harts → Machine harts × List (Fin harts)
  | [], m => (m, [])
  | h :: rest, m =>
    if m.committing.isNone then
      refill rest { (m.takeDone h).1 with committing := (m.takeDone h).2 }
    else (m, h :: rest)

/-- The first frame of the list being committed goes back to the bitmap. -/
def commitOne (index : ℕ) : Machine harts :=
  giveBack ram { (m.unlink index).1 with committing := (m.unlink index).2 } index

/-- `commit`, the harts whose done lists are still to be taken given. -/
def commitFrom : ℕ → List (Fin harts) → Machine harts → Machine harts
  | 0, _, m => m
  | limit + 1, left, m =>
    match (refill left m).1.committing with
    | none => (refill left m).1
    | some index =>
      commitFrom limit (refill left m).2 ((refill left m).1.commitOne ram index)

/-- Give back to the bitmap up to `limit` done frames. -/
def commit (limit : ℕ) : Machine harts :=
  commitFrom ram limit (List.finRange harts) m

variable (h : Fin harts)

/-- A frame its owner gives up: in flight, staged for the process whose entry for it was
just cleared or pending at once. -/
def retire (index : ℕ) (shot : Option ℕ) : Machine harts :=
  let m := m.setOwner ram index (some .inFlight)
  let m := { m with inFlight := m.inFlight + 1 }
  match shot with
  | some pid => m.stage h index pid
  | none => m.pend h index

/-- Kernel-object frames on their way to a pending list. -/
structure ObjectChain where
  first : Option ℕ
  last : Option ℕ
  linked : ℕ

def inFlightLinked (chain : ObjectChain) (frame : ℕ) : Machine harts × ObjectChain :=
  (m.setOwner ram frame (some .inFlight), { chain with linked := chain.linked + 1 })

def pendObjectChain (chain : ObjectChain) : Machine harts :=
  let m :=
    match chain.first, chain.last with
    | some first, some last => m.pendChain h first last
    | _, _ => m
  { m with inFlight := m.inFlight + chain.linked }

/-- An object's frame is due to be freed: linked until a destruction's sweep is over, or
at once. -/
def releaseObjectFrame (frame : ℕ) : Machine harts :=
  if m.deferring then
    { m.write frame link (frameWord m.deferred) with deferred := some frame }
  else m.retire ram h frame none

/-- The loop of `free_deferred_frames`; a deferred list is no longer than RAM has
frames. -/
def freeDeferredLoop : ℕ → Machine harts → ObjectChain → Machine harts × ObjectChain
  | 0, m, chain => (m, chain)
  | fuel + 1, m, chain =>
    match m.deferred with
    | none => (m, chain)
    | some frame =>
      let linked :=
        inFlightLinked ram { m with deferred := named (m.mem frame link) } chain frame
      freeDeferredLoop fuel linked.1 { linked.2 with last := some frame }

def freeDeferredFrames : Machine harts :=
  let freed := m.freeDeferredLoop ram ram.frames ⟨m.deferred, none, 0⟩
  freed.1.pendObjectChain h freed.2

/-- A destruction frees an object's frame: in flight, linked onto the front of
`chain`. -/
def retireObject (chain : ObjectChain) (frame : ℕ) : Machine harts × ObjectChain :=
  let linked := (m.write frame link (frameWord chain.first)).inFlightLinked
    ram chain frame
  (linked.1,
    { linked.2 with last := some (chain.last.getD frame), first := some frame })

/-- `destroy_marked`'s object frees. -/
def retireObjects (objects : List ℕ) : Machine harts :=
  let retired :=
    objects.foldl (fun freed frame => freed.1.retireObject ram freed.2 frame)
    (m, ⟨none, none, 0⟩)
  retired.1.pendObjectChain h retired.2

/-- What a step tells its caller: `alloc_frame` and `alloc_page` return a frame or
`NoFrame` (`alloc_object_frame` renames that `OutOfMemory`). -/
inductive Event where
  | quiet
  | allocated (frame : ℕ)
  | noFrame
deriving DecidableEq, Repr

/-- An allocation found frame `index`: taken, and given up again when it is a page the
budget cannot pay for. -/
def finish (want : Want) (index : ℕ) : Machine harts × Event :=
  let m := (m.take ram index want.owner).setDoing h .running
  match want with
  | .page _ false => (m.setOwner ram index none, .noFrame)
  | _ => (m, .allocated index)

/-- `alloc_page` and `alloc_object_frame`, up to the waiting loop. -/
def alloc (want : Want) : Machine harts × Event :=
  match findFree ram.frames ram.levels m.bits false with
  | some index => m.finish ram h want index
  | none => (m.setDoing h (.reclaiming want), .quiet)

/-- The rest of a turn of `reclaim_wait`, nothing being free and something in flight. -/
def reclaimPending (want : Want) : Machine harts :=
  match (m.endSection h).popPending h with
  | some (m, index, _) => (m.zero index).giveBack ram index
  | none =>
    if (m.endSection h).committing.isNone then (m.endSection h).setDoing h
      (.waiting want)
    else m.endSection h

def reclaimTurn (want : Want) : Machine harts × Event :=
  let m := m.commit ram commitMax
  match findFree ram.frames ram.levels m.bits false with
  | some index => m.finish ram h want index
  | none =>
    if m.inFlight = 0 then (m.setDoing h .running, .noFrame)
    else (m.reclaimPending ram h want, .quiet)

/-- One step of `zero_taken`; a compare-and-exchange may fail for no reason
(`spurious`). -/
def zeroStep (spurious : Bool) : Option (Machine harts) :=
  match m.doing h with
  | .zeroing frame word =>
    if word < pageWords then
      some ((m.write frame word 0).setDoing h (.zeroing frame (word + 1)))
    else some (m.setDoing h (.linking frame (m.lists h).done))
  | .linking frame head =>
    some ((m.write frame link head).setDoing h (.pushing frame head))
  | .pushing frame head =>
    if (m.lists h).done = head ∧ spurious = false then
      some ((m.setLists h { m.lists h with done := frame + 1 }).setDoing h
        (.pushed frame))
    else some (m.setDoing h (.linking frame (m.lists h).done))
  | .pushed _ =>
    some ((m.setLists h { m.lists h with zeroing := 0 }).setDoing h .running)
  | _ => none

/-- A hart gives up the lock to idle, and goes on with the frame it took, if any. -/
def idle (allIdle : Bool) : Machine harts :=
  let taken := (m.endSection h).takeOne h allIdle
  let m := { taken.1 with lock := none }
  if taken.2.1 ≠ 0 then m.setDoing h (.zeroing (taken.2.1 - 1) 0) else m

end Machine

/-- What a hart may do next. -/
inductive Op (harts : ℕ) where
  /-- The lock is taken, and done frames are given back (`mem::entered`). -/
  | enter (h : Fin harts)
  /-- The section ends and the lock is given up. -/
  | leave (h : Fin harts)
  | idle (h : Fin harts) (allIdle : Bool)
  | alloc (h : Fin harts) (want : Want)
  | reclaim (h : Fin harts)
  | wake (h : Fin harts)
  /-- A process gives a frame up, its entry for it just cleared
  (`claim_release_move`). -/
  | release (h : Fin harts) (index pid : ℕ)
  /-- A frame no process can store to is given up (`release_owned_frames`,
  `free_object_frame`). -/
  | retire (h : Fin harts) (index : ℕ)
  | shoot (h : Fin harts) (pid : ℕ)
  /-- A frame changes hands (a move, a lend reparented to the kernel, the DMA pool at
  boot). -/
  | setOwner (h : Fin harts) (index : ℕ) (owner : Owner)
  /-- `kernel_frame`: a frame of the kernel's own, at boot. -/
  | kernelFrame (h : Fin harts)
  | beginDestruction (h : Fin harts)
  | endDestruction (h : Fin harts)
  | releaseObject (h : Fin harts) (frame : ℕ)
  | freeDeferred (h : Fin harts)
  | retireObjects (h : Fin harts) (objects : List ℕ)
  /-- A store to an owned frame, or through a stale translation to a staged one. -/
  | store (index word value : ℕ)
  | zero (h : Fin harts) (spurious : Bool)

namespace Machine

variable {harts : ℕ} (ram : Ram) (m : Machine harts)

/-- Hart `h` holds the lock and is in no waiting loop. -/
def InSection (h : Fin harts) : Prop :=
  m.lock = some h ∧ m.doing h = .running

instance (m : Machine harts) (h : Fin harts) : Decidable (m.InSection h) :=
  inferInstanceAs (Decidable (_ ∧ _))

def deferredFrames (m : Machine harts) : ℕ → Option ℕ → List ℕ
  | 0, _ => []
  | _, none => []
  | fuel + 1, some frame => frame :: m.deferredFrames fuel (named (m.mem frame link))

/-- A frame is on the list of frames a destruction has deferred. -/
def isDeferred (index : ℕ) : Bool :=
  (m.deferredFrames ram.frames m.deferred).contains index

/-- What `retire` asserts of a frame's owner. -/
def isOwned (index : ℕ) : Bool :=
  match m.owner index with
  | none => false
  | some owner => owner ≠ .inFlight && owner ≠ .dma

/-- A frame that may change hands or be given up: a deferred one is freed with its
list. -/
def Loose (index : ℕ) : Prop :=
  index < ram.frames ∧ m.owner index ≠ some .inFlight ∧ m.isDeferred ram index = false

instance (m : Machine harts) (index : ℕ) : Decidable (m.Loose ram index) :=
  inferInstanceAs (Decidable (_ ∧ _))

/-- Who may store to a frame: its owner, but not to the link of a deferred one, and a
process not yet shot down, to a staged one. -/
def Storable (index word : ℕ) : Prop :=
  index < ram.frames ∧ ((m.owner index ≠ none ∧ m.owner index ≠ some .inFlight ∧
        (word = link → m.isDeferred ram index = false)) ∨
      ∃ h, index ∈ (m.lists h).staged)

instance (m : Machine harts) (index word : ℕ) : Decidable (m.Storable ram index word) :=
  inferInstanceAs (Decidable (_ ∧ _))

/-- One step; none where the operation is not one that can happen. -/
def step : Op harts → Option (Machine harts × Event)
  | .enter h =>
    if m.lock = none ∧ m.doing h = .running then
      some (({ m with lock := some h }).commit ram commitMax, .quiet)
    else none
  | .leave h =>
    if m.InSection h then some ({ m.endSection h with lock := none }, .quiet) else none
  | .idle h allIdle => if m.InSection h then some (m.idle h allIdle, .quiet) else none
  | .alloc h want => if m.InSection h then some (m.alloc ram h want) else none
  | .reclaim h =>
    match m.doing h with
    | .reclaiming want => some (m.reclaimTurn ram h want)
    | _ => none
  | .wake h =>
    match m.doing h with
    | .waiting want =>
      if ∃ g, (m.lists g).done ≠ 0 then some (m.setDoing h (.reclaiming want), .quiet)
        else none
    | _ => none
  | .release h index pid =>
    if m.InSection h ∧ m.Loose ram index ∧ m.owner index = some (.process pid) then
      some (m.retire ram h index (some pid), .quiet)
    else none
  | .retire h index =>
    if m.InSection h ∧ m.Loose ram index ∧ m.isOwned index then
      some (m.retire ram h index none, .quiet)
    else none
  | .shoot h pid => if m.InSection h then some (m.shoot h pid, .quiet) else none
  | .setOwner h index owner =>
    if m.InSection h ∧ m.Loose ram index ∧ owner ≠ .inFlight then
      some (m.setOwner ram index (some owner), .quiet)
    else none
  | .kernelFrame h =>
    if m.InSection h then
      (findFree ram.frames ram.levels m.bits true).map fun index =>
        (m.setOwner ram index (some (.process kernelPid)), .quiet)
    else none
  | .beginDestruction h =>
    if m.InSection h then some ({ m with deferring := true }, .quiet) else none
  | .endDestruction h =>
    if m.InSection h then some ({ m with deferring := false }, .quiet) else none
  | .releaseObject h frame =>
    if m.InSection h ∧ m.Loose ram frame ∧ m.owner frame = some .object then
      some (m.releaseObjectFrame ram h frame, .quiet)
    else none
  | .freeDeferred h =>
    if m.InSection h then some (m.freeDeferredFrames ram h, .quiet) else none
  | .retireObjects h objects =>
    if m.InSection h ∧ objects.Nodup ∧
        (∀ frame ∈ objects, m.Loose ram frame ∧ m.owner frame = some .object) then
      some (m.retireObjects ram h objects, .quiet)
    else none
  | .store index word value =>
    if m.Storable ram index word then some (m.write index word value, .quiet) else none
  | .zero h spurious => (m.zeroStep h spurious).map fun m => (m, .quiet)

/-- The state the boot hands over: the loader's ownership table, whatever RAM holds, and
the bitmap built from the table. -/
def boot (harts : ℕ) (owner : ℕ → Option Owner) (mem : ℕ → ℕ → ℕ) : Machine harts where
  owner := owner
  bits := build ram.frames ram.levels fun index => (owner index).isNone
  dirty := fun w =>
    if w < words ram.frames 0 then
      build ram.frames ram.levels (fun index => (owner index).isNone)
        (levelStart ram.frames 0 + w)
    else 0#64
  mem := mem
  inFlight := 0
  committing := none
  deferring := false
  deferred := none
  lists := fun _ => ⟨[], 0, 0, 0, 0⟩
  drainer := 0
  lock := none
  doing := fun _ => .running
  stopped := false

/-- The states of a run from the boot. -/
inductive Reachable : Machine harts → Prop where
  | boot (owner : ℕ → Option Owner) (mem : ℕ → ℕ → ℕ)
      (howner : ∀ index, owner index ≠ some .inFlight) :
      Reachable (boot ram harts owner mem)
  | step {m m' : Machine harts} {op : Op harts} {event : Event} (hreach : Reachable m)
      (hstep : m.step ram op = some (m', event)) : Reachable m'

end Machine

end Redoubt.Frames
