import Redoubt.Sched.Queue

/-!
# The queue wired to the harts

`libs/stride`'s `Wiring`: one runner for each hart, and the order of the steps
at a switch, a pick and a kernel entry's end.  `Harts` is the wiring over `harts`
runners and `Cpu` its one-hart form.
-/

namespace Redoubt.Stride

/-- One hart's runner: the budget whose runtime accrues there, and what it has
accrued and not yet been charged. -/
structure Runner where
  cur : Option ℕ := none
  pending : ℕ := 0
  deriving DecidableEq, Repr

/-- The queue, the budgets and one runner for each hart below `harts`. -/
structure Harts extends Board where
  runners : ℕ → Runner := fun _ => {}

namespace Harts

variable (w : Harts) {τ : Type}

/-- A step of the queue: the runners stay as they are. -/
def onQueue (step : Board → Board) : Harts := { w with toBoard := step w.toBoard }

def setRunner (h : ℕ) (r : Runner) : Harts :=
  { w with runners := Function.update w.runners h r }

/-- The hart whose runner is `b`, if any. -/
def runnerOf (b : ℕ) : Option ℕ :=
  (List.range w.harts).find? fun h => (w.runners h).cur = some b

/-- Whether `b` runs on a hart now. -/
def running (b : ℕ) : Bool := (List.range w.harts).any fun h =>
    (w.runners h).cur = some b

/-- Hart `h`'s budget ran, or the kernel worked for it, `t` more. -/
def accrue (h t : ℕ) : Harts :=
  w.setRunner h { w.runners h with pending := (w.runners h).pending + t }

/-- Hart `h`'s runner `c` is charged what it ran and taken off, requeued if it
is still runnable or another hart runs it. -/
def takeOff (c run : ℕ) (requeued : Bool) (stillRunnable : ℕ → Bool) : Harts :=
  let still := (w.runnerOf c).isSome || stillRunnable c
  w.onQueue fun q =>
    let charged := { q with leaving := if requeued then some c else none }.fold c run
    { charged.deschedule c still with leaving := none }

/-- Hart `h` goes to `next`. -/
def switch (h : ℕ) (next : Option ℕ) (requeued : Bool)
    (stillRunnable : ℕ → Bool) : Harts :=
  if next = (w.runners h).cur then w
  else
    let off := w.setRunner h {}
    let left :=
      match (w.runners h).cur with
      | none => off
      | some c =>
        -- off this hart before its charge, as the settle counted its threads
        let off := off.onQueue fun q => q.ranBy c false
        if w.live c then
          off.takeOff c (max (w.runners h).pending minCharge) requeued stillRunnable
        else off
    let on := left.setRunner h { cur := next }
    match next with
    | none => on
    | some n => on.onQueue fun q => q.ranBy n true

/-- The end of a kernel entry, with every hart's budget running. -/
def reconcile (lost gained : List ℕ) (waiting : ℕ → ℕ) : Harts :=
  w.onQueue fun q => q.reconcileCounted w.running lost gained waiting

/-- Whether `b` runs on one of the harts passed over. -/
def passedOver (passed : List ℕ) (b : ℕ) : Bool :=
  passed.any fun h => (w.runners h).cur = some b

/-- The lowest-ranked queued budget with a thread `next` can run.  One with none
whose threads all run on harts is passed over; one with none that no hart runs
is taken out.  Every turn of the loop rules out one more queued budget. -/
def pickLoop (next : ℕ → Option τ) : ℕ → List ℕ → Harts → Harts × Option (ℕ × τ)
  | 0, _, w => (w, none)
  | fuel + 1, passed, w =>
    match w.pick (w.passedOver passed) with
    | none => (w, none)
    | some b =>
      match next b with
      | some t => (w, some (b, t))
      | none =>
        match w.runnerOf b with
        | some h => pickLoop next fuel (h :: passed) w
        | none => pickLoop next fuel passed (w.onQueue fun q => q.deschedule b false)

def pickNext (next : ℕ → Option τ) : Harts × Option (ℕ × τ) :=
  pickLoop next (w.slots.length + 1) [] w

end Harts

/-- The one-hart form: hart 0's runner. -/
abbrev Cpu := Harts

namespace Cpu

variable (c : Cpu) {τ : Type}

def cur : Option ℕ := (c.runners 0).cur

def accrue (t : ℕ) : Cpu := Harts.accrue c 0 t

/-- The CPU goes to `next`. -/
def switch (next : Option ℕ) (stillRunnable : ℕ → Bool) : Cpu :=
  Harts.switch c 0 next false stillRunnable

def reconcile (lost gained : List ℕ) (runnable : ℕ → Bool) : Cpu :=
  Harts.reconcile c lost gained fun b => if runnable b then 1 else 0

def pick (next : ℕ → Option τ) : Cpu × Option (ℕ × τ) := Harts.pickNext c next

end Cpu

end Redoubt.Stride
