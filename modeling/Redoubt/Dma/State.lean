import Redoubt.Kernel.State
import Redoubt.Library.Forest

/-!
# DMA runs and who pays for them

`kernel/src/dma.rs`, the DMA pool of `kernel/src/mem.rs`, `map_device` and `dma_alloc`
of `kernel/src/device.rs`, and of `kernel/src/budget.rs` the page charges and the
destruction of a subtree.  A budget is named by its id, which is never used again; a
frame by its place in the pool; a device by its registry slot.  What else is charged to
a budget comes and goes.
-/

namespace Redoubt.Dma

open Function

def poolPages : ℕ := 1024

/-- `MAX_RUNS`: runs per device. -/
def maxRuns : ℕ := 32

/-- PIDs are below `MAX_PROCESS_COUNT + 1`. -/
def maxPids : ℕ := 512

/-- `BUDGET_PAGES`: a budget's own page, which its parent pays. -/
def budgetPages : ℕ := 1

/-- What `dma_alloc` handed out.  `origin`: the holder's budget when it did. -/
structure Run where
  start : ℕ
  npages : ℕ
  holder : Option ℕ
  charged : Option ℕ
  quarantined : Bool
  origin : ℕ
deriving DecidableEq, Repr

/-- Its frames. -/
def Run.Has (r : Run) (f : ℕ) : Prop := r.start ≤ f ∧ f < r.start + r.npages

/-- Its frames, as they are named in the log. -/
def Run.frames (r : Run) : ℕ × ℕ := (r.start, r.npages)

/-- Whether a live process holds it. -/
def Run.heldBy (pid : ℕ) (r : Run) : Bool := !r.quarantined && r.holder = some pid

/-- A budget's place in the tree, and what was carved for it. -/
structure Budget where
  parent : Option ℕ
  depth : ℕ
  limit : ℕ
deriving DecidableEq, Repr

/-- A process's budget, and the slots of the DMA devices it has mapped. -/
structure Account where
  budget : ℕ
  mapped : Finset ℕ

/-- What happened.  `died`: each device reset in the death and whether it confirmed, and
the frames that went back to the pool. -/
inductive Event
  | started (pid : ℕ)
  | mapped (pid slot : ℕ)
  | taken (frames : ℕ × ℕ)
  | allocated (pid slot : ℕ) (frames : ℕ × ℕ)
  | dropped (frames : ℕ × ℕ)
  | died (pid : ℕ) (resets : List (ℕ × Bool)) (pooled : List (ℕ × ℕ))
deriving DecidableEq, Repr

/-- The budgets.  `parents`: every budget's parent, of those that are gone too. -/
structure Tree where
  budgets : ℕ → Option Budget
  children : ℕ → List ℕ
  dying : List ℕ
  nextId : ℕ
  parents : ℕ → Option ℕ

/-- Whether a run is quarantined and charged to a dying budget. -/
def Tree.owes (t : Tree) (r : Run) : Bool :=
  r.quarantined && r.charged.any fun b => (t.budgets b).isSome && b ∈ t.dying

/-- `elsewhere`: what is charged to a budget but for runs and carves.  `refused`: a
charge that cannot fail did. -/
structure Memory where
  tree : Tree
  used : ℕ → ℕ
  elsewhere : ℕ → ℕ
  accounts : ℕ → Option Account
  devices : ℕ
  virtio : ℕ → Bool
  quarantined : ℕ → Bool
  runs : ℕ × ℕ → Option Run
  held : ℕ → Bool
  refused : Bool
  log : List Event

/-- Boot: `root`, with what is charged to it, and the registered devices. -/
def Memory.boot (limit used devices : ℕ) (virtio : ℕ → Bool) : Memory :=
  { tree :=
      { budgets := update (fun _ => none) 0 (some ⟨none, 0, limit⟩),
        children := fun _ => []
        dying := [], nextId := 1, parents := fun _ => none }
    used := update (fun _ => 0) 0 used, elsewhere := update (fun _ => 0) 0 used
    accounts := fun _ => none, devices := devices, virtio :=
      virtio, quarantined := fun _ => false
    runs := fun _ => none, held := fun _ => false, refused := false, log := [] }

namespace Memory

variable (m : Memory)

def note (e : Event) : Memory := { m with log := m.log ++ [e] }

def limit (b : ℕ) : ℕ := (m.tree.budgets b).elim 0 Budget.limit

/-- A budget's pages, charged as any budget's are. -/
def pages (b : ℕ) : Pages := ⟨m.limit b, m.used b⟩

def freePages (b : ℕ) : ℕ := (m.pages b).freePages

def uncharge (b n : ℕ) : Memory :=
  { m with used := update m.used b ((m.pages b).uncharge n).pagesUsed }

def charge (b n : ℕ) : Option Memory :=
  ((m.pages b).charge n).map fun charged =>
    { m with used := update m.used b charged.pagesUsed }

/-! ### The pool -/

/-- The first stretch of `npages` free frames from place `i` on, `run` free ones before
it. -/
def stretch (held : ℕ → Bool) (npages : ℕ) : ℕ → ℕ → ℕ → Option ℕ
  | 0, _, _ => none
  | left + 1, i, run =>
    let run := if held i = true then 0 else run + 1
    if run = npages then some (i + 1 - npages) else stretch held npages left (i + 1) run

def setHeld (start npages : ℕ) (value : Bool) : Memory :=
  { m with held := fun f => if start ≤ f ∧ f < start + npages then value else m.held f }

/-- A run's frames back to the pool, and its charge back to its budget. -/
def pool (r : Run) : Memory :=
  let m := m.setHeld r.start r.npages false
  match r.charged with
  | some b => if (m.tree.budgets b).isSome = true then m.uncharge b r.npages else m
  | none => m

/-! ### Runs -/

def setRun (p : ℕ × ℕ) (run : Option Run) : Memory :=
  { m with runs := update m.runs p run }

def freeEntry (slot : ℕ) : Option ℕ := (List.range maxRuns).find? fun k =>
    m.runs (slot, k) = none

/-- `dma_new_run`: contiguous frames of the pool, charged to the process's budget. -/
def newRun (pid slot npages : ℕ) : Option (ℕ × Memory) := do
  let k ← m.freeEntry slot
  let a ← m.accounts pid
  let m ← m.charge a.budget npages
  let start ← stretch m.held npages poolPages 0 0
  let m := (m.setHeld start npages true).setRun (slot, k)
    (some ⟨start, npages, some pid, some a.budget, false, a.budget⟩)
  return (start, m.note (.taken (start, npages)))

/-- `dma_drop_run`: the mapping failed, so the frames go straight back. -/
def dropRun (slot start : ℕ) : Memory :=
  match (List.range maxRuns).find? fun k =>
    (m.runs (slot, k)).any (·.start = start) with
  | none => m
  | some k =>
    match m.runs (slot, k) with
    | none => m
    | some r => ((m.setRun (slot, k) none).pool r).note (.dropped r.frames)

/-- `dma_alloc` through a device; `mapped`: whether the run could be mapped. -/
def dmaAlloc (pid slot npages : ℕ) (mapped : Bool) : Memory :=
  if npages = 0 ∨ m.devices ≤ slot then m
  else
    match m.newRun pid slot npages with
    | none => m
    | some (start, m) =>
      if mapped = true then m.note (.allocated pid slot (start, npages))
        else m.dropRun slot start

/-- `map_device` of a DMA device; `mapped`: whether its registers could be mapped. -/
def mapDevice (pid slot : ℕ) (mapped : Bool) : Memory :=
  match m.accounts pid with
  | none => m
  | some a =>
    if mapped = true ∧ slot < m.devices then
      { m with
        accounts := update m.accounts pid
          (some { a with mapped := insert slot a.mapped }) }.note
        (.mapped pid slot)
    else m

/-! ### Deaths -/

def holdsIn (pid slot : ℕ) : Bool := (List.range maxRuns).any fun k =>
    (m.runs (slot, k)).any (Run.heldBy pid)

/-- The reset set: what it mapped, and what its runs came through. -/
def resetSet (pid : ℕ) : List ℕ :=
  (List.range m.devices).filter fun i => (m.accounts pid).any (fun a => i ∈ a.mapped) ||
    m.holdsIn pid i

variable (confirms : ℕ → Bool)

/-- `dma_reset`, of a device that confirms or not; one that is quarantined or not virtio
is not touched. -/
def reset (slot : ℕ) : Bool := !m.quarantined slot && m.virtio slot && confirms slot

def places (slots : List ℕ) : List (ℕ × ℕ) :=
  slots.flatMap fun i => (List.range maxRuns).map fun k => (i, k)

/-- One entry in a death: pooled or quarantined, if the process held it. -/
def releaseAt (pooled : Bool) (pid : ℕ) (m : Memory) (p : ℕ × ℕ) : Memory :=
  match m.runs p with
  | none => m
  | some r =>
    if r.heldBy pid = true then
      if pooled = true then (m.setRun p none).pool r
      else m.setRun p (some { r with quarantined := true, holder := none })
    else m

/-- The frames of the runs a process holds in some devices. -/
def heldFrames (pid : ℕ) (slots : List ℕ) : List (ℕ × ℕ) :=
  (places slots).filterMap fun p => ((m.runs p).filter (Run.heldBy pid)).map Run.frames

def allConfirmed (pid : ℕ) : Bool :=
  (m.resetSet pid).filter (m.reset confirms) = m.resetSet pid

def release (pid : ℕ) : Memory :=
  let s := m.resetSet pid
  let pooled := m.allConfirmed confirms pid
  let after := (places s).foldl (releaseAt pooled pid) m
  { after with
    quarantined := fun i => m.quarantined i || (i ∈ s && !m.reset confirms i) }.note
    (.died pid (s.map fun i => (i, m.reset confirms i))
      (if pooled = true then m.heldFrames pid s else []))

/-- A process ends: its devices are reset, and its account is closed. -/
def die (m : Memory) (pid : ℕ) : Memory :=
  match m.accounts pid with
  | none => m
  | some _ =>
    let m := m.release confirms pid
    { m with accounts := update m.accounts pid none }

/-! ### Budgets -/

/-- A process starts in a budget, under a PID no process has. -/
def start (pid b : ℕ) : Memory :=
  if pid < maxPids ∧ m.accounts pid = none ∧ (m.tree.budgets b).isSome = true then
    { m with accounts := update m.accounts pid (some ⟨b, ∅⟩) }.note (.started pid)
  else m

/-- `budget_create`: the parent pays the child's own page and carves its limit. -/
def createBudget (parent pages : ℕ) : Memory :=
  match m.tree.budgets parent with
  | none => m
  | some p =>
    if p.depth + 1 < maxDepth ∧ pages + budgetPages ≤ m.freePages parent then
      { m with
        tree := { m.tree with
          budgets := update m.tree.budgets m.tree.nextId
            (some ⟨some parent, p.depth + 1, pages⟩)
          children :=
            update m.tree.children parent (m.tree.nextId :: m.tree.children parent)
          parents := update m.tree.parents m.tree.nextId (some parent)
          nextId := m.tree.nextId + 1 }
        used := update (update m.used parent (m.used parent + (budgetPages + pages)))
          m.tree.nextId 0
        elsewhere := update m.elsewhere m.tree.nextId 0 }
    else m

/-- Anything else is charged to a budget, and returned. -/
def chargeElsewhere (b n : ℕ) : Memory :=
  match m.charge b n with
  | some m => { m with elsewhere := update m.elsewhere b (m.elsewhere b + n) }
  | none => m

def unchargeElsewhere (b n : ℕ) : Memory :=
  if n ≤ m.elsewhere b then { m.uncharge b n with
    elsewhere := update m.elsewhere b (m.elsewhere b - n) } else m

/-- `mark_dying`: the subtree is marked, and its top leaves its parent's children. -/
def markDying (top : ℕ) : Memory :=
  { m with tree := { m.tree with
      dying := Forest.preorder m.tree.children maxDepth top
      children := match (m.tree.budgets top).bind Budget.parent with
        | some p => update m.tree.children p ((m.tree.children p).erase top)
        | none => m.tree.children } }

/-- The processes that a destruction kills: all of them with `root`, else those in a
dying budget. -/
def victims (top : ℕ) : List ℕ :=
  (List.range maxPids).filter fun pid => (m.accounts pid).any fun a =>
    ((m.tree.budgets top).bind Budget.parent).isNone || a.budget ∈ m.tree.dying

def returnCarve (top : ℕ) : Memory :=
  match (m.tree.budgets top).bind Budget.parent with
  | some p => m.uncharge p (budgetPages + m.limit top)
  | none => m

/-- One entry's charge to the parent, if it is quarantined and charged to a dying
budget. -/
def migrateAt (parent : Option ℕ) (m : Memory) (p : ℕ × ℕ) : Memory :=
  match m.runs p with
  | none => m
  | some r =>
    if m.tree.owes r = true then
      let charged := match parent with
        | some q => (m.charge q r.npages).getD { m with refused := true }
        | none => m
      charged.setRun p (some { r with charged := parent })
    else m

def migrateQuarantine (parent : Option ℕ) : Memory :=
  (places (List.range m.devices)).foldl (migrateAt parent) m

def freeDying : Memory :=
  { m with tree := { m.tree with
      budgets := fun b => if b ∈ m.tree.dying then none else m.tree.budgets b
      children := fun b => if b ∈ m.tree.dying then [] else m.tree.children b
      dying := [] } }

def destroyMarked (top : ℕ) : Memory :=
  ((m.returnCarve top).migrateQuarantine
    ((m.tree.budgets top).bind Budget.parent)).freeDying

/-- `destroy_subtree`: the processes in it die, the caller last, then those whose
objects are charged to it (`also`); then the budgets go. -/
def destroy (top : ℕ) (caller : Option ℕ) (also : List ℕ)
    (confirms : ℕ → ℕ → Bool) : Memory :=
  if (m.tree.budgets top).isSome = true then
    let m := m.markDying top
    let victims := m.victims top
    let order := victims.filter (fun pid => caller ≠ some pid) ++
      victims.filter (fun pid => caller = some pid) ++ also
    (order.foldl (fun m pid => die (confirms pid) m pid) m).destroyMarked top
  else m

end Memory

/-! ### Runs -/

/-- What is asked of the kernel, with what devices and mappings answer. -/
inductive Call
  | start (pid budget : ℕ)
  | createBudget (parent pages : ℕ)
  | charge (budget pages : ℕ)
  | uncharge (budget pages : ℕ)
  | mapDevice (pid slot : ℕ) (mapped : Bool)
  | dmaAlloc (pid slot npages : ℕ) (mapped : Bool)
  | die (pid : ℕ) (confirms : ℕ → Bool)
  | destroy (top : ℕ) (caller : Option ℕ) (also : List ℕ) (confirms : ℕ → ℕ → Bool)

def handle (m : Memory) : Call → Memory
  | .start pid b => m.start pid b
  | .createBudget parent pages => m.createBudget parent pages
  | .charge b n => m.chargeElsewhere b n
  | .uncharge b n => m.unchargeElsewhere b n
  | .mapDevice pid slot mapped => m.mapDevice pid slot mapped
  | .dmaAlloc pid slot npages mapped => m.dmaAlloc pid slot npages mapped
  | .die pid confirms => Memory.die confirms m pid
  | .destroy top caller also confirms => m.destroy top caller also confirms

def run (calls : List Call) (m : Memory) : Memory := calls.foldl handle m

end Redoubt.Dma
