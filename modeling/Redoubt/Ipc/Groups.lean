import Redoubt.Ipc.Words

/-!
# The group queue of an endpoint

An endpoint keeps the groups with a message queued in the order their turns fall
due and, apart, the groups with a send queued in the order their oldest sends
fall due, for a receiver that may take no more calls.  A group's node lives in
the page of its oldest message's thread and moves when that message leaves.

The loops of the source follow links until they meet 0.  Here each takes an
amount of fuel that the endpoint's count of members, or the group's count,
bounds; the refinement shows that none runs out.
-/

namespace Redoubt.Ipclist

open IpcList

variable (w : Words)

def seq (t : ℕ) : ℕ :=
  w (.thread t) .tSeq

def firstOf (node : ℕ) (send : Bool) : ℕ :=
  w (.thread node) (if send then .gSends else .gCalls)

/-- The group's oldest message: the older of its two chains' heads. -/
def oldest (node : ℕ) : ℕ :=
  let s := firstOf w node true
  let c := firstOf w node false
  if s = 0 then c
  else if c = 0 then s
  else if seq w s < seq w c then s
  else c

/-- When the group's turn falls due: its oldest message's arrival, or its last
take if that came later. -/
def key (node : ℕ) : ℕ :=
  max (seq w (oldest w node)) (w (.thread node) .gTaken)

/-- When the group's oldest send falls due. -/
def sendKey (node : ℕ) : ℕ :=
  max (seq w (firstOf w node true)) (w (.thread node) .gTaken)

/-- The thread holding a queued thread's group node. -/
def groupOf (t : ℕ) : ℕ :=
  w (.thread t) .tGroup

def count (node : ℕ) : ℕ :=
  w (.thread node) .gCount

def nodeWords : List Word :=
  [.gPrev, .gNext, .gSprev, .gSnext, .gSends, .gSendsTail, .gCalls, .gCallsTail,
    .gCount, .gTaken]

/-- The words that move with a node; its links are moved by `replace`. -/
def movedWords : List Word :=
  [.gSends, .gSendsTail, .gCalls, .gCallsTail, .gCount, .gTaken]

def clearNode (node : ℕ) : Words :=
  nodeWords.foldl (fun w word => write w (.thread node) word 0) w

/-- The walk of `find` from a node. -/
def findFrom (w : Words) (e : ℕ) (same : ℕ → Bool) : ℕ → ℕ → Option ℕ
  | 0, _ => none
  | fuel + 1, node =>
    if node = 0 then none
    else if same node then some node
    else findFrom w e same fuel ((groups e).next w node)

/-- The node of the group that `same` picks, if it has a message queued. -/
def find (e : ℕ) (same : ℕ → Bool) : Option ℕ :=
  findFrom w e same (waiting w e) ((groups e).first w)

/-- The end of `enqueue`: the thread names its group's node and joins the chain,
and a group with its first send joins the send list. -/
def joinGroup (e node t : ℕ) (send : Bool) : Words :=
  let w := write w (.thread t) .tGroup node
  let chain := chain node send
  let w :=
    if send && chain.isEmpty w then (sendGroups e).pushBack w node
    else w
  let w := chain.pushBack w t
  let w := write w (.thread node) .gCount (count w node + 1)
  counts w (.endpoint e) 1

/-- Queue thread `t`'s message in the group whose node `node` holds, or in a new
group for `none`. -/
def enqueue (e : ℕ) (node : Option ℕ) (t : ℕ) (send : Bool) (number : ℕ) : Words :=
  let w := write w (.thread t) .tSeq number
  match node with
  | some node => joinGroup w e node t send
  | none =>
    joinGroup ((groups e).pushBack (clearNode w t) t) e t t send

/-- The message the next receiver takes; `calls` says whether it may take
calls.  0 for none. -/
def pick (e : ℕ) (calls : Bool) : ℕ :=
  let node :=
    if calls then (groups e).first w else (sendGroups e).first w
  if node = 0 then 0
  else if calls then oldest w node
  else firstOf w node true

/-- A list's member goes last, if it is on the list. -/
def requeue (list : IpcList) (w : Words) (node : ℕ) : Words :=
  if list.contains w node then list.pushBack (list.remove w node) node else w

/-- A queued thread's group has its turn at `now`. -/
def served (e t now : ℕ) : Words :=
  let node := groupOf w t
  let w := write w (.thread node) .gTaken now
  requeue (sendGroups e) (requeue (groups e) w node) node

/-- Every member of a chain from `m` on names `node` as its group. -/
def nameGroup (list : IpcList) (node : ℕ) : ℕ → ℕ → Words → Words
  | 0, _, w => w
  | fuel + 1, m, w =>
    if m = 0 then w
    else
      let w := write w (.thread m) .tGroup node
      nameGroup list node fuel (list.next w m) w

def copyNode (old new : ℕ) : Words :=
  movedWords.foldl (fun w word => write w (.thread new) word (w (.thread old) word)) w

/-- The end of `moveNode`: the node's words move, and its members name their new
node. -/
def renamed (old new : ℕ) : Words :=
  let w := clearNode (copyNode w old new) old
  let sends := chain new true
  let w := nameGroup sends new (count w new) (sends.first w) w
  let calls := chain new false
  nameGroup calls new (count w new) (calls.first w) w

/-- The node moves from `old` to `new`, a member of its group. -/
def moveNode (e old new : ℕ) : Words :=
  let w := (groups e).replace w old new
  let w :=
    if (sendGroups e).contains w old then
      (sendGroups e).replace w old new
    else w
  renamed w old new

/-- The end of a dequeue for a group that keeps a message: its oldest send may
have left. -/
def settleSends (e node : ℕ) : Words :=
  if (chain node true).isEmpty w then
    (sendGroups e).remove w node
  else
    (sendGroups e).movedBack w (waiting w e) node sendKey

/-- A thread leaves its chain and the endpoint's count. -/
def unlinkMember (e node t : ℕ) (send : Bool) : Words :=
  let w := (chain node send).remove w t
  let w := write w (.thread t) .tGroup 0
  counts w (.endpoint e) (-1)

def dropGroup (e node : ℕ) : Words :=
  let w := (groups e).remove w node
  let w :=
    if (sendGroups e).contains w node then
      (sendGroups e).remove w node
    else w
  clearNode w node

/-- The thread that holds the group's node once `t` left: if `t` held it, the
oldest message the group has left. -/
def newHome (node t : ℕ) : ℕ :=
  if t = node then oldest w t else node

/-- If `t` held the group's node, it moves to `home`, and the group's turn falls
due later. -/
def goHome (e node t home : ℕ) : Words :=
  if t = node then
    let w := moveNode w e t home
    (groups e).movedBack w (waiting w e) home key
  else w

/-- A queued thread's message leaves the endpoint, taken or not. -/
def dequeue (e t : ℕ) (send : Bool) : Words :=
  let node := groupOf w t
  let firstSend := send && (chain node send).first w == t
  let w := unlinkMember w e node t send
  let left := count w node - 1
  if left = 0 then
    dropGroup w e node
  else
    let w := write w (.thread node) .gCount left
    let home := newHome w node t
    let w := goHome w e node t home
    if firstSend then settleSends w e home else w

/-! ## The audit -/

/-- What an audit found wrong. -/
inductive Fault
  | links (page : Page) (word : Word)
  | member (page : Page)
  | order (page : Page)
  | group (node : ℕ)
deriving DecidableEq, Repr

/-- What the audit of a list reads: its head, its members' links and its tail, if it
keeps one. `fault` is what it returns for a broken link. -/
structure Walk (ε : Type) where
  first : ℕ
  next : ℕ → ℕ
  prev : ℕ → ℕ
  tail : Option ℕ
  fault : ε

namespace Walk

variable {ε σ : Type} (l : Walk ε) (each : σ → ℕ → Except ε σ)

/-- The loop, for `fuel` turns: the members passed to `each`, and the result with the
state that `each` has kept. -/
def auditFrom : ℕ → σ → ℕ → ℕ → ℕ → List ℕ → Option (List ℕ × Except ε (ℕ × σ))
  | 0, _, _, _, _, _ => none
  | fuel + 1, s, prev, r, n, passed =>
    if r = 0 then
      some (passed, if l.tail.isSome ∧ l.tail ≠ some prev then .error l.fault
        else .ok (n, s))
    else if l.prev r ≠ prev then some (passed, .error l.fault)
    else
      match each s r with
      | .error fault => some (passed ++ [r], .error fault)
      | .ok s => auditFrom fuel s r (l.next r) (n + 1) (passed ++ [r])

def audit (fuel : ℕ) (s : σ) : Option (List ℕ × Except ε (ℕ × σ)) :=
  l.auditFrom each fuel s 0 l.first 0 []

end Walk

/-- What the audit of a list of threads reads. -/
def IpcList.walk (list : IpcList) (w : Words) : Walk Fault where
  first := list.first w
  next := list.next w
  prev := list.prev w
  tail := list.tail.map (w list.owner)
  fault := .links list.owner list.head

def IpcList.audit {σ : Type} (list : IpcList) (w : Words) (fuel : ℕ)
    (each : σ → ℕ → Except Fault σ) (state : σ) : Except Fault (ℕ × σ) :=
  match (list.walk w).audit each fuel state with
  | some (_, result) => result
  | none => .error (.links list.owner list.head)

/-- One member of a chain: it names the node, comes after the one before it,
and passes `member`. -/
def auditMember (member : ℕ → Bool → Except Fault Unit) (node : ℕ)
    (send : Bool) (previous m : ℕ) : Except Fault ℕ :=
  if groupOf w m ≠ node then .error (.group node)
  else if seq w m ≤ previous then .error (.order (.thread m))
  else do
    member m send
    .ok (seq w m)

/-- One group: `last` is the key before it, `members` and `withSends` count what
was passed. -/
def auditGroup (e : ℕ) (member : ℕ → Bool → Except Fault Unit)
    (state : ℕ × ℕ × ℕ) (node : ℕ) : Except Fault (ℕ × ℕ × ℕ) :=
  let (last, members, withSends) := state
  if key w node ≤ last then .error (.order (.thread node))
  else if oldest w node ≠ node then .error (.group node)
  else do
    let fuel := waiting w e + 1
    let sends ← (chain node true).audit w fuel (auditMember w member node true) 0
    let calls ← (chain node false).audit w fuel (auditMember w member node false) 0
    let n := sends.1 + calls.1
    let hasSends := !(chain node true).isEmpty w
    if n = 0 ∨ n ≠ count w node then .error (.group node)
    else if hasSends ≠ (sendGroups e).contains w node then
      .error (.group node)
    else .ok (key w node, members + n, withSends + hasSends.toNat)

/-- One group on the send list. -/
def auditSending (e last node : ℕ) : Except Fault ℕ :=
  if sendKey w node ≤ last then .error (.order (.thread node))
  else if !(groups e).contains w node ∨ (chain node true).isEmpty w then
    .error (.group node)
  else .ok (sendKey w node)

/-- The audit of an endpoint's groups: both lists' links and order, each
group's node on its oldest message, its chains, its count, every member's group,
and a group on the send list exactly when it has a send.  Returns the
members. -/
def auditGroups (e : ℕ) (member : ℕ → Bool → Except Fault Unit) : Except Fault ℕ := do
  let fuel := waiting w e + 1
  let (_, _, members, withSends) ← (groups e).audit w fuel
    (auditGroup w e member) (0, 0, 0)
  let (listed, _) ← (sendGroups e).audit w fuel (auditSending w e) 0
  if listed ≠ withSends then .error (.links (.endpoint e) .eSends)
  else .ok members

end Redoubt.Ipclist
