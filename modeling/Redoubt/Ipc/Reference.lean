import Redoubt.Ipc.Groups

/-!
# The queue that the group lists stand for

The rule itself, without lists: every queued message carries when it is due,
which is its arrival, raised to the take for every message of a group when the
group has its turn.  The next message is the first takeable one of the group
whose first takeable message is due earliest.  A `World` runs the group lists
beside this queue.
-/

namespace Redoubt.Ipclist

/-- A queued message of the reference queue. -/
structure Message (γ : Type*) where
  thread : ℕ
  group : γ
  send : Bool
  due : ℕ
deriving DecidableEq, Repr

variable {γ : Type*} [DecidableEq γ]

namespace Reference

/-- Whether a message is due before the best met. -/
def better (m : Message γ) : Option (ℕ × ℕ) → Bool
  | none => true
  | some (due, _) => m.due < due

/-- The scan of `pick`: `seen` are the groups met with a takeable message, and
`best` the earliest due among their first ones. -/
def pickFrom (calls : Bool) : List (Message γ) → List γ → Option (ℕ × ℕ) →
    Option (ℕ × ℕ)
  | [], _, best => best
  | m :: rest, seen, best =>
    if m.group ∈ seen ∨ ¬ (calls ∨ m.send) then
      pickFrom calls rest seen best
    else
      pickFrom calls rest (seen ++ [m.group])
        (if better m best then some (m.due, m.thread) else best)

/-- The message the next receiver takes, 0 for none. -/
def pick (queue : List (Message γ)) (calls : Bool) : ℕ :=
  match pickFrom calls queue [] none with
  | none => 0
  | some (_, t) => t

def enqueue (queue : List (Message γ)) (t : ℕ) (g : γ) (send : Bool)
    (number : ℕ) : List (Message γ) :=
  queue ++ [⟨t, g, send, number⟩]

/-- A queued thread's group has its turn: all its messages are due again. -/
def served (queue : List (Message γ)) (t now : ℕ) : List (Message γ) :=
  match queue.find? fun m => m.thread == t with
  | none => queue
  | some turn =>
    queue.map fun m =>
      if m.group = turn.group then { m with due := now } else m

def remove (queue : List (Message γ)) (t : ℕ) : List (Message γ) :=
  queue.filter fun m => m.thread != t

end Reference

/-- The group lists of an endpoint, which group each queued thread sends in and
whether it is a send, the reference queue, and the one counter. -/
structure World (γ : Type*) where
  words : Words
  group : ℕ → Option γ
  send : ℕ → Bool
  queue : List (Message γ)
  counter : ℕ

namespace World

variable (world : World γ) (e : ℕ)

/-- Zeroed words and an empty queue. -/
def empty : World γ where
  words := ⟨fun _ _ => 0⟩
  group := fun _ => none
  send := fun _ => false
  queue := []
  counter := 0

/-- Thread `t` queues a message of group `g` at `number`: it joins the node of
its group, or makes a new one. -/
def enqueue (t : ℕ) (g : γ) (send : Bool) (number : ℕ) : World γ where
  words := Ipclist.enqueue world.words e
    (find world.words e fun node => world.group node = some g) t send number
  group := Function.update world.group t (some g)
  send := Function.update world.send t send
  queue := Reference.enqueue world.queue t g send number
  counter := number

/-- A queued thread's group has its turn at `now`. -/
def served (t now : ℕ) : World γ where
  words := Ipclist.served world.words e t now
  group := world.group
  send := world.send
  queue := Reference.served world.queue t now
  counter := now

def leave (t : ℕ) : World γ where
  words := Ipclist.dequeue world.words e t (world.send t)
  group := Function.update world.group t none
  send := world.send
  queue := Reference.remove world.queue t
  counter := world.counter

/-- A take or a refusal: the group has its turn and the message leaves. -/
def take (t now : ℕ) : World γ :=
  (world.served e t now).leave e t

def Queued (t : ℕ) : Prop :=
  ∃ m ∈ world.queue, m.thread = t

/-- Every run of arrivals, turns and departures on one endpoint, with numbers
from one strictly increasing counter. -/
inductive Run (e : ℕ) : World γ → Prop
  | empty : Run e World.empty
  | enqueue {world : World γ} (t : ℕ) (g : γ) (send : Bool) (number : ℕ)
      (hrun : Run e world) (ht : t ≠ 0) (hnew : ¬ world.Queued t)
      (hnumber : world.counter < number) :
      Run e (world.enqueue e t g send number)
  | served {world : World γ} (t now : ℕ) (hrun : Run e world)
      (hqueued : world.Queued t) (hnow : world.counter < now) :
      Run e (world.served e t now)
  | leave {world : World γ} (t : ℕ) (hrun : Run e world)
      (hqueued : world.Queued t) : Run e (world.leave e t)

end World

end Redoubt.Ipclist
