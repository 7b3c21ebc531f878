import Redoubt.Kernel.State

/-!
# Handle tables

Installing, closing and killing handles.  An index names a slot of a table
page; a page is bought when its first handle is installed and goes back when
its last one is removed.  A handle held outside the subtree that would take it
along is entered in the chain of the budget it depends on, and a handle naming
a process object in that object's own chain.  Each chain is doubly linked
through the slots from a head word in the frame it belongs to.
-/

namespace Redoubt

open Function

/-- The page and slot of an index, if it can be one. -/
def position (index : ℕ) : Option (ℕ × ℕ) :=
  if index = 0 then
    none
  else
    let page := (index - 1) / handlesPerPage
    if page < maxHandlePages then
      some (page, (index - 1) % handlesPerPage)
    else
      none

def indexAt (page slot : ℕ) : ℕ :=
  page * handlesPerPage + slot + 1

namespace HandleTable

/-- The slot an index names, on a page in use. -/
def entry (table : HandleTable) (index : ℕ) : Option Entry :=
  match position index with
  | none => none
  | some (page, slot) => (table.pages page).map fun slots => slots slot

def modifyEntry (table : HandleTable) (index : ℕ) (f : Entry → Entry) : HandleTable :=
  match position index with
  | none => table
  | some (page, slot) =>
    { table with
      pages := update table.pages page
        ((table.pages page).map fun slots =>
          update slots slot (f (slots slot))) }

/-- A page with no entry comes into use. -/
def openPage (table : HandleTable) (page : ℕ) : HandleTable :=
  { table with
    pages := update table.pages page (some fun _ => Entry.zero) }

def closePage (table : HandleTable) (page : ℕ) : HandleTable :=
  { table with pages := update table.pages page none }

def setLive (table : HandleTable) (page count : ℕ) : HandleTable :=
  { table with live := update table.live page count }

def setChained (table : HandleTable) (page count : ℕ) : HandleTable :=
  { table with chained := update table.chained page count }

/-- The lowest index of a page that is neither live nor dead. -/
def emptySlot (table : HandleTable) (page : ℕ) : Option ℕ :=
  match table.pages page with
  | none => none
  | some slots =>
    (List.range handlesPerPage).find? fun slot => (slots slot).slot = .empty

end HandleTable

namespace Kernel

variable (kernel : Kernel)

def entry (pid index : ℕ) : Option Entry :=
  (kernel.table pid).bind fun table => table.entry index

def modifyEntry (pid index : ℕ) (f : Entry → Entry) : Kernel :=
  kernel.modifyTable pid fun table => table.modifyEntry index f

variable (pid index : ℕ)

def readSlot : Slot :=
  ((kernel.entry pid index).map Entry.slot).getD .empty

def writeSlot (slot : Slot) : Kernel :=
  kernel.modifyEntry pid index fun entry => { entry with slot := slot }

/-! ## Chains -/

def setHead (chain : Chain) (frame : ℕ) (first : Link) : Kernel :=
  { kernel with
    heads := update kernel.heads chain
      (update (kernel.heads chain) frame first) }

def setPrev (chain : Chain) (pid index : ℕ) (link : Link) : Kernel :=
  kernel.modifyEntry pid index fun entry =>
    { entry with prev := update entry.prev chain link }

def setNext (chain : Chain) (pid index : ℕ) (link : Link) : Kernel :=
  kernel.modifyEntry pid index fun entry =>
    { entry with next := update entry.next chain link }

def prevLink (chain : Chain) (pid index : ℕ) : Link :=
  ((kernel.entry pid index).map fun entry => entry.prev chain).getD .none

def nextLink (chain : Chain) (pid index : ℕ) : Link :=
  ((kernel.entry pid index).map fun entry => entry.next chain).getD .none

/-- Change the count of chain entries on the page of an index. -/
def modifyChained (f : ℕ → ℕ) : Kernel :=
  match position index with
  | none => kernel
  | some (page, _) =>
    kernel.modifyTable pid fun table =>
      table.setChained page (f (table.chained page))

/-- Set the previous link of the slot a link names, if it names one. -/
def setPrevOf (chain : Chain) (target link : Link) : Kernel :=
  match target with
  | .slot pid index => kernel.setPrev chain pid index link
  | _ => kernel

/-- Put a handle first in a frame's chain. -/
def enter (chain : Chain) (frame pid index : ℕ) : Kernel :=
  let first := kernel.heads chain frame
  let linked := ((kernel.setPrev chain pid index (.head frame)).setNext
    chain pid index first).setPrevOf chain first (.slot pid index)
  (linked.setHead chain frame (.slot pid index)).modifyChained pid index (· + 1)

/-- Take a handle out of a chain, if it is entered there. -/
def leave (chain : Chain) (pid index : ℕ) : Kernel :=
  let prev := kernel.prevLink chain pid index
  let next := kernel.nextLink chain pid index
  let unlink (after : Kernel) : Kernel :=
    (((after.setPrevOf chain next prev).setPrev chain pid index .none).setNext
      chain pid index .none).modifyChained pid index (· - 1)
  match prev with
  | .none => kernel
  | .head frame => unlink (kernel.setHead chain frame next)
  | .slot holder at_ => unlink (kernel.setNext chain holder at_ next)

/-- The walk of `within`, up the tree from a frame. -/
def withinFrom (frame : ℕ) : ℕ → Option ℕ → Bool
  | 0, _ => false
  | _ + 1, none => false
  | fuel + 1, some at_ =>
    at_ == frame || withinFrom frame fuel (kernel.budget at_).parent

/-- Whether a holder's budget is `frame` or below it: at most `maxDepth` steps
up the tree. -/
def within (holder frame : ℕ) : Bool :=
  kernel.withinFrom frame maxDepth (some holder)

/-- The budget whose chain a handle held in `holder` is entered in. -/
def outside (holder frame : ℕ) : Option ℕ :=
  if kernel.within holder frame then none else some frame

/-- The frames of the object chain and the stamp chain a handle held in
`holder` is entered in.  A process object's chain takes every handle naming
it. -/
def chainHeads (holder : ℕ) (handle : Handle) : Option ℕ × Option ℕ :=
  let object :=
    match handle.object with
    | .budget ref => kernel.outside holder ref.frame
    | .endpoint ref =>
      (kernel.endpoints ref.frame).bind fun e =>
        kernel.outside holder e.owner.frame
    | .device ref =>
      (kernel.devices ref.frame).bind fun d =>
        kernel.outside holder d.owner.frame
    | .process ref => some ref.frame
  (object, kernel.outside holder handle.stamp.frame)

def enterAt (chain : Chain) (head : Option ℕ) (pid index : ℕ) : Kernel :=
  match head with
  | none => kernel
  | some frame => kernel.enter chain frame pid index

/-! ## The calls -/

/-- Buy a table page.  If no frame is left the charge is taken back, so the
caller keeps the state it had. -/
def buyPage (pid frame page : ℕ) : Except Error Kernel := do
  let charged ← kernel.charge frame 1
  let allocated ← charged.allocObjectFrame
  .ok (allocated.modifyTable pid fun table => table.openPage page)

/-- Write a handle into a slot, count it, and enter it in its chains. -/
def putHandle (pid frame page slot : ℕ) (handle : Handle) : Kernel :=
  let index := indexAt page slot
  let written := (kernel.writeSlot pid index (.live handle)).modifyTable pid
    fun table => table.setLive page (table.live page + 1)
  let heads := written.chainHeads frame handle
  (written.enterAt .object heads.1 pid index).enterAt .stamp heads.2 pid index

/-- Put a handle in the first empty slot of a page.  A page that is not full
has one. -/
def putInPage (pid frame page : ℕ) (handle : Handle) : Except Error (ℕ × Kernel) :=
  match (kernel.table pid).bind fun table => table.emptySlot page with
  | none => .error .tooLarge
  | some slot =>
    .ok (indexAt page slot, kernel.putHandle pid frame page slot handle)

/-- The walk of `install_handle` over the table's pages: a full page is
skipped, a missing one is bought, and the first that is not full takes the
handle. -/
def installFrom (pid frame : ℕ) (handle : Handle) (table : HandleTable) :
    List ℕ → Except Error (ℕ × Kernel)
  | [] => .error .tooLarge
  | page :: rest =>
    match table.pages page with
    | some _ =>
      if table.live page = handlesPerPage then
        installFrom pid frame handle table rest
      else
        kernel.putInPage pid frame page handle
    | none => do
        let bought ← kernel.buyPage pid frame page
        bought.putInPage pid frame page handle

/-- Put a handle at the lowest free index of a process's table. -/
def installHandle (pid : ℕ) (handle : Handle) : Except Error (ℕ × Kernel) :=
  match kernel.accounts pid with
  | none => .error .notPermitted
  | some account =>
    kernel.installFrom pid account.budget handle account.handles
      (List.range maxHandlePages)

/-- The table pages a process would have to buy to hold `extra` more handles. -/
def tableGrowth (pid extra : ℕ) : Option ℕ :=
  match kernel.table pid with
  | none => none
  | some table =>
    let free := ((List.range maxHandlePages).map fun page =>
      if (table.pages page).isSome then
        handlesPerPage - table.live page
      else
        0).sum
    let pages := (List.range maxHandlePages).countP fun page =>
      (table.pages page).isNone
    let bought := (extra - free + (handlesPerPage - 1)) / handlesPerPage
    if bought ≤ pages then some bought else none

/-- Empty a slot that holds a handle or a dead entry, and give its page back if
it was the page's last. -/
def clearSlot (pid page slot : ℕ) : Kernel :=
  let cleared := (kernel.writeSlot pid (indexAt page slot) .empty).modifyTable pid
    fun table => table.setLive page (table.live page - 1)
  match cleared.accounts pid with
  | none => cleared
  | some account =>
    if account.handles.live page = 0 then
      ((cleared.modifyTable pid fun table => table.closePage page).freeObjectFrame
        ).uncharge account.budget 1
    else
      cleared

def removeHandle : Kernel :=
  match position index with
  | none => kernel
  | some (page, slot) =>
    match kernel.readSlot pid index with
    | .empty => kernel
    | .dead => kernel.clearSlot pid page slot
    | .live _ =>
      ((kernel.leave .object pid index).leave .stamp pid index).clearSlot pid page slot

/-- `handle_close`: a dead entry closes like a live handle. -/
def handleClose : Except Error Kernel :=
  match kernel.readSlot pid index with
  | .empty => .error .badHandle
  | _ => .ok (kernel.removeHandle pid index)

/-- A sweep's close: out of the chains, and the slot keeps only the dead mark. -/
def killHandle : Kernel :=
  match kernel.readSlot pid index with
  | .live _ =>
    ((kernel.leave .object pid index).leave .stamp pid index).writeSlot pid index .dead
  | _ => kernel

end Kernel

end Redoubt
