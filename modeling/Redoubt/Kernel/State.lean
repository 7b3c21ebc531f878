import Mathlib

/-!
# The kernel's objects and handle tables

The state the memory manager keeps: the budget tree, the endpoints, devices and
process objects, and one account per process with its handle table.  A kernel
object lives in a frame of its own and is named by that frame together with an
id that is never reused.  A handle table page is modelled by its contents; the
frame it occupies is only counted.

Reading a frame that holds no budget stops the real kernel.  Here such a read
returns an empty record, and the invariants of the later modules show that it
does not happen.
-/

namespace Redoubt

/-- The errors of the modelled calls. -/
inductive Error
  | badHandle
  | dead
  | notPermitted
  | outOfMemory
  | tooLarge
  | refused
deriving DecidableEq, Repr

/-- A kernel object, named by frame and by id. -/
structure Ref where
  frame : ℕ
  id : ℕ
deriving DecidableEq, Repr

/-- What a handle names. -/
inductive Object
  | budget (ref : Ref)
  | endpoint (ref : Ref)
  | device (ref : Ref)
  | process (ref : Ref)
deriving DecidableEq, Repr

/-- An object together with a badge and the budget that stamped the handle. -/
structure Handle where
  object : Object
  badge : ℕ
  stamp : Ref
deriving DecidableEq, Repr

/-- What a table slot holds.  A dead entry is a handle a sweep closed and its
holder has not. -/
inductive Slot
  | empty
  | dead
  | live (handle : Handle)
deriving DecidableEq, Repr

/-- The two chains a table slot can be entered in. -/
inductive Chain
  | object
  | stamp
deriving DecidableEq, Repr

/-- One link of a chain: none, the head word of a frame, or a slot named by its
holder and index. -/
inductive Link
  | none
  | head (frame : ℕ)
  | slot (pid index : ℕ)
deriving DecidableEq, Repr

/-- A table slot with its two chain entries. -/
structure Entry where
  slot : Slot
  prev : Chain → Link
  next : Chain → Link

/-- A zeroed slot. -/
def Entry.zero : Entry where
  slot := .empty
  prev := fun _ => .none
  next := fun _ => .none

def handlesPerPage : ℕ := 64

def maxHandles : ℕ := 4096

def maxHandlePages : ℕ := maxHandles / handlesPerPage

/-- The levels of the budget tree. -/
def maxDepth : ℕ := 16

/-- One process's table: each page in use, how many handles it holds and how
many chain entries. -/
structure HandleTable where
  pages : ℕ → Option (ℕ → Entry)
  live : ℕ → ℕ
  chained : ℕ → ℕ

def HandleTable.empty : HandleTable where
  pages := fun _ => none
  live := fun _ => 0
  chained := fun _ => 0

/-- A budget's pages: what it may use, and what is charged to it. -/
structure Pages where
  pagesLimit : ℕ
  pagesUsed : ℕ
deriving DecidableEq, Repr, Inhabited

namespace Pages

variable (budget : Pages)

def freePages : ℕ := budget.pagesLimit - budget.pagesUsed

/-- Charged, if the budget can pay. -/
def charge (pages : ℕ) : Option Pages :=
  if pages > budget.freePages then none
  else some { budget with pagesUsed := budget.pagesUsed + pages }

/-- Returning more than was charged stops the real kernel. -/
def uncharge (pages : ℕ) : Pages :=
  { budget with pagesUsed := budget.pagesUsed - pages }

variable {budget} {charged : Pages} {pages : ℕ}

theorem charge_of_le (hfree : pages ≤ budget.freePages) :
    budget.charge pages = some { budget with pagesUsed := budget.pagesUsed + pages } :=
  if_neg (not_lt.mpr hfree)

theorem of_charge (hcharge : budget.charge pages = some charged) :
    pages ≤ budget.freePages ∧
      charged = { budget with pagesUsed := budget.pagesUsed + pages } := by
  rw [charge] at hcharge
  split at hcharge
  · cases hcharge
  · next hfree => exact ⟨not_lt.mp hfree, (Option.some.inj hcharge).symm⟩

end Pages

structure Budget extends Pages where
  id : ℕ
  parent : Option ℕ
deriving DecidableEq, Repr, Inhabited

structure Endpoint where
  id : ℕ
  owner : Ref
deriving DecidableEq, Repr

structure Device where
  id : ℕ
  owner : Ref
deriving DecidableEq, Repr

structure ProcessObject where
  id : ℕ
deriving DecidableEq, Repr

/-- One process's side of the ledger: the frame of its budget, the RAM frames
charged to it, and its handle table. -/
structure Account where
  budget : ℕ
  frames : ℕ
  handles : HandleTable

/-- The modelled part of the memory manager.  `ram` counts the frames an
allocation can still take. -/
structure Kernel where
  budgets : ℕ → Option Budget
  endpoints : ℕ → Option Endpoint
  devices : ℕ → Option Device
  processes : ℕ → Option ProcessObject
  accounts : ℕ → Option Account
  heads : Chain → ℕ → Link
  ram : ℕ

namespace Kernel

variable (kernel : Kernel)

/-! ## Budgets -/

def budget (frame : ℕ) : Budget :=
  (kernel.budgets frame).getD default

def modifyBudget (frame : ℕ) (f : Budget → Budget) : Kernel :=
  { kernel with
    budgets := Function.update kernel.budgets frame
      ((kernel.budgets frame).map f) }

def freePages (frame : ℕ) : ℕ :=
  (kernel.budget frame).freePages

def charge (frame pages : ℕ) : Except Error Kernel :=
  match (kernel.budget frame).charge pages with
  | none => .error .outOfMemory
  | some charged =>
    .ok (kernel.modifyBudget frame fun b => { b with toPages := charged })

def uncharge (frame pages : ℕ) : Kernel :=
  kernel.modifyBudget frame fun b => { b with toPages := b.uncharge pages }

def isLiveBudget (ref : Ref) : Bool :=
  (kernel.budgets ref.frame).any fun b => b.id == ref.id

def isLiveEndpoint (ref : Ref) : Bool :=
  (kernel.endpoints ref.frame).any fun e => e.id == ref.id

def isLiveDevice (ref : Ref) : Bool :=
  (kernel.devices ref.frame).any fun d => d.id == ref.id

def isLiveProcess (ref : Ref) : Bool :=
  (kernel.processes ref.frame).any fun p => p.id == ref.id

/-- Whether a handle a message carries still names live objects. -/
def isLive (handle : Handle) : Bool :=
  kernel.isLiveBudget handle.stamp &&
    match handle.object with
    | .budget ref => kernel.isLiveBudget ref
    | .endpoint ref => kernel.isLiveEndpoint ref
    | .device ref => kernel.isLiveDevice ref
    | .process ref => kernel.isLiveProcess ref

/-! ## Frames -/

def allocObjectFrame : Except Error Kernel :=
  if kernel.ram = 0 then
    .error .outOfMemory
  else
    .ok { kernel with ram := kernel.ram - 1 }

def freeObjectFrame : Kernel :=
  { kernel with ram := kernel.ram + 1 }

/-! ## Accounts -/

def budgetOf (pid : ℕ) : Option ℕ :=
  (kernel.accounts pid).map Account.budget

def table (pid : ℕ) : Option HandleTable :=
  (kernel.accounts pid).map Account.handles

def modifyAccount (pid : ℕ) (f : Account → Account) : Kernel :=
  { kernel with
    accounts := Function.update kernel.accounts pid
      ((kernel.accounts pid).map f) }

def modifyTable (pid : ℕ) (f : HandleTable → HandleTable) : Kernel :=
  kernel.modifyAccount pid fun account =>
    { account with handles := f account.handles }

/-- A RAM frame became the process's. -/
def chargeFrame (pid : ℕ) : Except Error Kernel :=
  match kernel.budgetOf pid with
  | none => .ok kernel
  | some frame => do
      let charged ← kernel.charge frame 1
      .ok (charged.modifyAccount pid fun account =>
        { account with frames := account.frames + 1 })

/-- A RAM frame stopped being the process's. -/
def unchargeFrame (pid : ℕ) : Kernel :=
  match kernel.budgetOf pid with
  | none => kernel
  | some frame =>
    (kernel.modifyAccount pid fun account =>
      { account with frames := account.frames - 1 }).uncharge frame 1

end Kernel

end Redoubt
