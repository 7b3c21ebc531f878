import Mathlib

/-!
# The stride queue

`libs/stride`: what a budget's pass is charged, and the queue the kernel keeps
over every runnable budget, for budgets whose weights stay as they are.  A budget is
named by its id, which is never reused and breaks ties.  `Queue` and the
budgets' scheduling data are one record, `Board`, because every operation of
the queue takes both.

The arrays beside the queue's slots (ranks, weights, thread counts, caps and
lift targets) are here the fields of one `Slot`.  Passes are unbounded: every
charge adds less than 2^60, so no run reaches the bound of the 128 bits they
have in the source.
-/

namespace Redoubt.Stride

/-- What one tick of runtime adds to the pass of a budget of weight 1. -/
def stride : ℕ := 2 ^ 20

/-- The most runtime one fold charges. -/
def runtimeCap : ℕ := 2 ^ 40

/-- The least a deschedule charges. -/
def minCharge : ℕ := 1

/-- The most budgets the cap set holds. -/
def maxCapped : ℕ := 15

/-- A budget's scheduling state, as its frame holds it. -/
structure State where
  pass : ℕ := 0
  rem : ℕ := 0
  tie : ℤ := 0
  queued : Bool := false
  deriving DecidableEq, Repr

/-- Charge `runtime` at stride weight `weight`: nothing for weight 0. -/
def charge (s : State) (weight runtime : ℕ) : State :=
  if weight = 0 then s
  else
    let t := s.rem + min runtime runtimeCap * stride
    { s with pass := s.pass + t / weight, rem := t % weight }

/-- The bounds of the tie counters, which saturate. -/
def tieMax : ℤ := 2 ^ 63 - 1

def tieMin : ℤ := -2 ^ 63

/-- The order a pick minimizes: pass, tie, id. -/
abbrev Rank := ℕ ×ₗ ℤ ×ₗ ℕ

instance : Preorder Rank := (inferInstance : LinearOrder Rank).toPreorder

/-- One slot of the queue, with what the queue keeps beside it. -/
structure Slot where
  budget : ℕ
  pass : ℕ := 0
  tie : ℤ := 0
  weight : ℕ := 0
  waiting : ℕ := 0
  running : ℕ := 0
  capped : Bool := false
  liftTo : ℕ := 0
  deriving DecidableEq, Repr

namespace Slot

/-- The rank kept beside the slot. -/
def rank (slot : Slot) : Rank := toLex (slot.pass, toLex (slot.tie, slot.budget))

/-- The budget's threads, waiting for a hart or on one. -/
def threads (slot : Slot) : ℕ := slot.waiting + slot.running

/-- More weight for each thread than `other`: `w / k` above `w' / k'`. -/
def heavier (slot other : Slot) : Bool :=
  other.weight * slot.threads < slot.weight * other.threads

end Slot

/-- The queue and what it needs of the kernel's budgets. -/
structure Board where
  floor : ℕ := 0
  front : ℤ := 0
  back : ℤ := 0
  /-- The queued budgets, in no order. -/
  slots : List Slot := []
  /-- The budget a switch takes off its hart with its own thread requeued. -/
  leaving : Option ℕ := none
  harts : ℕ := 1
  /-- `N`: the most budgets the queue holds. -/
  capacity : ℕ
  /-- The minimum queued pass may have risen above the floor. -/
  pending : Bool := false
  state : ℕ → State := fun _ => {}
  limit : ℕ → ℕ := fun _ => 0
  carved : ℕ → ℕ := fun _ => 0
  live : ℕ → Bool := fun _ => true

namespace Board

variable (q : Board)

variable (b : ℕ)

/-- A budget's stride weight: its free weight. -/
def weight : ℕ := q.limit b - q.carved b

def setState (s : State) : Board :=
  { q with state := Function.update q.state b s }

/-- `b`'s slot, if it is queued. -/
def slotOf : Option Slot := q.slots.find? fun slot => slot.budget = b

/-- Rewrite `b`'s slot. -/
def editSlot (edit : Slot → Slot) : Board :=
  { q with
    slots := q.slots.map fun slot => if slot.budget = b then edit slot else slot }

/-- The stride weight kept for the cap set: none at one hart. -/
def weightForCaps : ℕ := if 1 < q.harts then q.weight b else 0

/-- Queue `b`, known not to be queued; nothing if the queue is full. -/
def push : Option Board :=
  if q.slots.length = q.capacity then none
  else some { q with slots :=
    q.slots ++ [{ budget := b, weight := q.weightForCaps b, liftTo := q.floor }] }

/-- Whether the budget in `slot` may hold the minimum pass. -/
def atFloor (slot : Slot) : Bool := slot.pass ≤ q.floor

/-- The slots without `b`'s: the last one moves into the gap. -/
def takeOut (b : ℕ) : List Slot → List Slot
  | [] => []
  | slot :: rest =>
    if slot.budget = b then
      match rest.getLast? with
      | none => []
      | some last => last :: rest.dropLast
    else slot :: takeOut b rest

/-- Take `b` out of the slots; one at the floor may have held the minimum. -/
def remove : Board :=
  match q.slotOf b with
  | none => q
  | some slot =>
    { q with pending := q.pending || q.atFloor slot, slots := takeOut b q.slots }

def resetIfEmpty : Board :=
  if q.slots.isEmpty then { q with front := 0, back := 0 } else q

/-- At one hart, which keeps no counts, every queued budget has a thread. -/
def hasThread (slot : Slot) : Bool := q.harts = 1 || 0 < slot.threads

/-- Whether the budget in `slot` counts for the floor's minimum. -/
def holdsFloor (slot : Slot) : Bool := q.hasThread slot && !slot.capped

/-- The floor after a raise, which never falls. -/
def raised : ℕ :=
  match ((q.slots.filter q.holdsFloor).map Slot.pass).min? with
  | some least => max q.floor least
  | none =>
    -- every queued budget capped: uncontested time banks for no one
    match ((q.slots.filter q.hasThread).map Slot.pass).max? with
    | some most => max q.floor most
    | none =>
      match (q.slots.map Slot.pass).min? with
      | some least => max q.floor least
      | none => q.floor

def riseFloor : Board := { q with pending := false, floor := q.raised }

/-- The budgets that count for the cap set's weight. -/
def counted (slot : Slot) : Bool := slot.weight ≠ 0 && slot.threads ≠ 0

/-- Whether a counted budget may be capped: capped already, or every thread of
it on a hart, the one its own switch requeues included. -/
def mayCap (slot : Slot) : Bool :=
  slot.capped || slot.waiting ≤ if q.leaving = some slot.budget then 1 else 0

/-- Insert `slot` into the descending list of the `n` heaviest: it goes before
the ones at the end that it outweighs. -/
def insertTop (n : ℕ) (top : List Slot) (slot : Slot) : List Slot :=
  (top.rdropWhile slot.heavier ++ slot :: top.rtakeWhile slot.heavier).take n

/-- The candidates of the cap set in descending weight per thread. -/
def top : List Slot :=
  (q.slots.filter fun slot => counted slot && q.mayCap slot).foldl
    (insertTop (min (q.harts - 1) maxCapped)) []

/-- Cap in order while a budget's share of the harts left exceeds its threads. -/
def capFrom : List Slot → ℕ → ℕ → List ℕ
  | [], _, _ => []
  | slot :: rest, harts, weight =>
    if slot.weight * harts ≤ slot.threads * weight then []
    else slot.budget :: capFrom rest (harts - slot.threads) (weight - slot.weight)

/-- The cap set across harts. -/
def capSet : List ℕ :=
  capFrom q.top q.harts ((q.slots.filter counted).map Slot.weight).sum

/-- The budgets capped at the last raise. -/
def capped : List ℕ := (q.slots.filter Slot.capped).map Slot.budget

/-- Whether the raise that caps exactly `caps` lifts the budget in `slot`: it
stops being capped below its lift target. -/
def uncaps (caps : List ℕ) (slot : Slot) : Bool :=
  slot.capped && !caps.contains slot.budget && q.hasThread slot &&
    slot.pass < slot.liftTo

/-- The cap set found anew, and the budgets no longer capped lifted. -/
def cap : Board :=
  let caps := q.capSet
  { q with
    slots := q.slots.map fun slot =>
      { slot with
        capped := caps.contains slot.budget
        pass := if q.uncaps caps slot then slot.liftTo else slot.pass }
    state := (q.slots.filter (q.uncaps caps)).foldl (fun state slot =>
      Function.update state slot.budget { state slot.budget with pass := slot.liftTo })
        q.state }

/-- Each lift target follows the floor's rise from `before`; `was` are the
budgets capped before the raise. -/
def followFloor (was : List ℕ) (before : ℕ) : Board :=
  { q with slots := q.slots.map fun slot =>
    if slot.capped then
      if was.contains slot.budget then
        { slot with liftTo := slot.liftTo + (q.floor - before) }
      else slot
    else { slot with liftTo := min q.floor slot.pass } }

/-- Raise the floor to the minimum queued pass.  Several harts find the cap set
first, every time; one hart compares only if the minimum may have risen. -/
def raiseFloor : Board :=
  if 1 < q.harts then q.cap.riseFloor.followFloor q.capped q.floor
  else if q.pending then q.riseFloor
  else q

/-- The counts of `b`'s slot change by `edit`: a budget that gains its first
thread or loses its last joins or leaves those the floor counts. -/
def recount (edit : Slot → Slot) : Board :=
  if q.harts = 1 then q
  else
    match q.slotOf b with
    | none => q
    | some slot =>
      { q.editSlot b edit with
        pending := q.pending || (q.hasThread slot != q.hasThread (edit slot)) }

/-- `b`'s threads waiting for a hart, as a settle counted them. -/
def setWaiting (b n : ℕ) : Board := q.recount b fun slot => { slot with waiting := n }

/-- One more hart runs `b`, or one fewer. -/
def ranBy (more : Bool) : Board :=
  q.recount b fun slot =>
    { slot with running := if more then slot.running + 1 else slot.running - 1 }

/-- A queued budget's rank follows its state `s`; a pass risen from the floor
leaves the floor to be raised. -/
def recorded (s : State) : Board :=
  if s.queued then
    match q.slotOf b with
    | none => q
    | some slot =>
      { q.editSlot b (fun slot => { slot with pass := s.pass, tie := s.tie }) with
        pending := q.pending || (q.atFloor slot && slot.pass < s.pass) }
  else q

/-- Write `b`'s state, and its rank beside the slot. -/
def record (s : State) : Board := (q.setState b s).recorded b s

/-- Charge `runtime` to `b`, then raise the floor. -/
def fold (b runtime : ℕ) : Board :=
  (q.record b (charge (q.state b) (q.weight b) runtime)).raiseFloor

/-- `b`, in its slot, goes behind its equals. -/
def requeue : Board :=
  let back := min (q.back + 1) tieMax
  let s := { q.state b with tie := back, queued := true }
  { (q.setState b s).editSlot b
      (fun slot => { slot with pass := s.pass, tie := s.tie }) with
    back := back }

/-- `b` leaves the queue. -/
def leave : Board :=
  (q.setState b { q.state b with queued := false }).remove b

/-- `b`'s slot for a requeue, made if it has none and the queue has room. -/
def slotted : Option Board := if (q.slotOf b).isSome then some q else q.push b

/-- `b` was taken off the CPU, its runtime folded: still runnable it is requeued
behind its equals, otherwise it leaves. -/
def deschedule (stillRunnable : Bool) : Board :=
  let off :=
    match if stillRunnable then q.slotted b else none with
    | some q => q.requeue b
    | none => q.leave b
  off.raiseFloor.resetIfEmpty

/-- `b` wakes with `n` waiting threads, at `max(own, floor)` and ahead of its
equals. -/
def wake (b n : ℕ) : Option Board :=
  (q.push b).map fun q =>
    let front := max (q.front - 1) tieMin
    let s :=
      { q.state b with
        pass := max (q.state b).pass q.floor, tie := front, queued := true }
    { (q.setState b s).editSlot b
        (fun slot => { slot with pass := s.pass, tie := s.tie, waiting := n }) with
      front := front }

/-- The visited budgets that are queued with no thread, on no hart, leave. -/
def leaveLost (running : ℕ → Bool) (waiting : ℕ → ℕ) (lost : List ℕ) : Board :=
  lost.foldl (fun q b =>
    if running b || !q.live b || !(q.state b).queued || 0 < waiting b then q
    else q.leave b) q

/-- The visited budgets that gained a thread wake in the order given; a full
queue ends it. -/
def wakeGained (waiting : ℕ → ℕ) : List ℕ → Board → Board
  | [], q => q
  | b :: rest, q =>
    if q.live b && 0 < waiting b && !(q.state b).queued then
      match q.wake b (waiting b) with
      | none => q
      | some q => wakeGained waiting rest q
    else wakeGained waiting rest q

/-- The visited budgets' waiting threads are counted for the cap set. -/
def countVisited (waiting : ℕ → ℕ) (visited : List ℕ) : Board :=
  if 1 < q.harts then
    visited.foldl (fun q b => if q.live b then q.setWaiting b (waiting b) else q) q
  else q

/-- Wakes into a queue that is not empty are at or above the floor, its minimum:
the floor can rise with them only when they fill an empty one. -/
def watchEmpty : Board := { q with pending := q.pending || q.slots.isEmpty }

/-- The end of a kernel entry: of the budgets visited, those that lost their
last thread leave and those that gained one wake, in descending id. -/
def reconcileCounted (running : ℕ → Bool) (lost gained : List ℕ)
    (waiting : ℕ → ℕ) : Board :=
  let left := (q.countVisited waiting (lost ++ gained)).leaveLost running waiting lost
  let settled := left.raiseFloor.resetIfEmpty
  (wakeGained waiting (gained.insertionSort fun a b => b ≤ a)
    settled.watchEmpty).raiseFloor

/-- The lowest-ranked queued budget `passed` does not rule out. -/
def pick (passed : ℕ → Bool) : Option ℕ :=
  ((q.slots.filter fun slot => !passed slot.budget).argmin Slot.rank).map Slot.budget

end Board

end Redoubt.Stride
