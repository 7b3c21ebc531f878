import Redoubt.Ninep.Files
import Redoubt.Ninep.Minted

/-!
# A 9P server's state

`libs/rt/src/server/ninep.rs` and `ninep_mux.rs`: what the skeleton keeps for any file
server. What it is told from outside comes from streams, read one answer at a time.
-/

namespace Redoubt.Ninep

open Actions Admission

/-- Fids per connection, requests outstanding on one connection, and the longest session
bound in microseconds. -/
def maxFids : ℕ := 64

def maxTags : ℕ := 256

def collectWait : ℕ := 10000000

/-- No time at all: the largest `u64`. -/
def forever : ℕ := 2 ^ 64 - 1

/-- The room an answer other than a read's is given. -/
def smallReply : ℕ := 1024

/-- The bytes of a message that a request's record keeps in place of its page. -/
def wordsBytes : ℕ := 24

/-- Whose a connection's fids are: the badge it came through and the client using it. -/
structure ConnKey where
  badge : ℕ
  client : AdmitKey
deriving DecidableEq, Repr

/-- Where a walk has come: the node it rests on, and those passed, the nearest first and
the attach root last. -/
structure Steps (Node : Type) where
  here : Node × Qid
  passed : List (Node × Qid)

namespace Steps

variable {Node : Type} (s : Steps Node)

def length : ℕ := s.passed.length + 1

def push (node : Node × Qid) : Steps Node :=
  { here := node, passed := s.here :: s.passed }

/-- The step before; at the root, the root. -/
def back : Steps Node :=
  match s.passed with
  | [] => s
  | above :: passed => { here := above, passed := passed }

end Steps

/-- `root`: the connection's first attached fid; `mode`: what it is open with;
`dirNext`: the offset and the entry where the next directory read continues. -/
structure Fid (Node : Type) where
  steps : Steps Node
  root : Bool
  mode : Option UInt8
  dirNext : ℕ × ℕ

namespace Fid

variable {Node : Type} (f : Fid Node)

def node : Node := f.steps.here.1

def isDir : Bool := f.steps.here.2.isDir

/-- Not open yet, the next directory read from the start. -/
def fresh (steps : Steps Node) (root : Bool) : Fid Node :=
  { steps := steps, root := root, mode := none, dirNext := (0, 0) }

def opened (mode : UInt8) : Fid Node := { f with mode := some mode, dirNext := (0, 0) }

end Fid

/-- One client's fids on one connection, and the share they are charged to. -/
structure Fids (Node : Type) where
  key : ConnKey
  share : ℕ
  fids : List (UInt32 × Fid Node)

/-- Where a request's message is: in its record, or in the pages of a transfer, shared
by the requests too long for their records. -/
inductive Stored
  | words (bytes : List UInt8)
  | pages (transfer npages : ℕ) (bytes : List UInt8)
deriving DecidableEq, Repr

def Stored.bytes : Stored → List UInt8
  | words bytes => bytes
  | pages _ _ bytes => bytes

/-- The transfer whose pages hold it. -/
def Stored.transfer : Stored → Option (ℕ × ℕ)
  | words _ => none
  | pages transfer npages _ => some (transfer, npages)

/-- A multiplexed request not yet answered.  `tried`: the file server held it, so that
its deadline counts. -/
structure Pending where
  key : ConnKey
  tag : UInt16
  deadline : ℕ
  tried : Bool
  message : Stored
deriving DecidableEq, Repr

/-- The room its answer is given: a read's whole count. -/
def Pending.need (p : Pending) : ℕ :=
  match Message.decode p.message.bytes with
  | some { body := .tread _ _ count, .. } => ioHdrSz + count.toNat
  | _ => smallReply

/-- A parked completion call, and the bytes of its lend. -/
structure Parked where
  id : ℕ
  lend : ℕ
deriving DecidableEq, Repr

/-- One connection's session.  `tags` are outstanding, pending or refused and not yet
answered; `deadline` is the parked call's, or without one the session's. -/
structure Session where
  key : ConnKey
  caller : Caller
  charge : AdmitKey × ℕ
  call : Option Parked
  deadline : ℕ
  tags : Finset UInt16
  refused : Finset UInt16
deriving DecidableEq

/-- What one request did: a message of so many bytes was written, or nothing. -/
inductive Answer
  | replied (reply : Message) (size : ℕ)
  | waiting
  | noRoom
deriving DecidableEq, Repr

/-- A message written into a completion call's lend, and what its request would have
been answered, had it been alone in the lend. -/
structure Reply where
  message : Message
  alone : Answer
deriving DecidableEq, Repr

def Reply.tag (r : Reply) : UInt16 := r.message.tag

/-- What happens to the requests of a session, as its history.  `taken` says whether the
request was kept or refused; an answer counts once it is delivered. -/
inductive MuxEvent
  | taken (key : ConnKey) (tag : UInt16) (request : List UInt8) (kept : Bool)
  | flushed (key : ConnKey) (tag : UInt16)
  | answered (key : ConnKey) (reply : Reply)
  | ended (key : ConnKey)
deriving DecidableEq, Repr

/-- Every session, and their requests in the order they came.  `transfers` numbers the
transfers so far, and `history` is not looked at. -/
structure Mux where
  sessions : List Session
  pending : List Pending
  wait : ℕ
  transfers : ℕ
  history : List MuxEvent

namespace Mux

def new : Mux :=
  { sessions := [], pending := [], wait := collectWait, transfers := 0, history := [] }

variable (m : Mux)

def session (key : ConnKey) : Option ℕ := m.sessions.findIdx? fun s => s.key = key

/-- How long a completion call is held at most, and a session lasts with none parked. -/
def bound : ℕ := min m.wait collectWait

end Mux

/-- What the server is told: whether memory is found, what the clock says, whether a
reply is delivered, the kernel's random words and the handles it mints. -/
structure Outside where
  memory : Stream' Bool
  clock : Stream' (Option ℕ)
  delivered : Stream' Bool
  random : Stream' (Option ℕ)
  handle : Stream' (Option ℕ)

structure NineServer (σ Node : Type) where
  fs : σ
  conns : List (Fids Node)
  minted : Minted (Node × Qid)
  admission : Admission
  mux : Mux
  outside : Outside

/-- What the server does to its state. -/
abbrev Serve (σ Node ε α : Type) := Action (NineServer σ Node) ε α

namespace Serve

variable {σ Node ε α : Type}

/-- The next answer to a question asked of the outside. -/
def tryReserve : Serve σ Node ε Bool := fun s =>
  (.ok s.outside.memory.head, { s with outside.memory := s.outside.memory.tail })

/-- The time, or `was` if the clock does not say. -/
def timeNow (was : ℕ) : Serve σ Node ε ℕ := fun s =>
  (.ok (s.outside.clock.head.getD was),
    { s with outside.clock := s.outside.clock.tail })

/-- A reply is made: whether it was delivered. -/
def finish : Serve σ Node ε Bool := fun s =>
  (.ok s.outside.delivered.head,
    { s with outside.delivered := s.outside.delivered.tail })

/-- A question to the file server. -/
def ask (question : Action σ ε α) : Serve σ Node ε α := Action.part (·.fs)
      (fun s fs => { s with fs := fs }) question

def tell (f : σ → σ) : Serve σ Node ε Unit :=
  Action.change fun s => { s with fs := f s.fs }

/-- One of a resource for a bucket and share, as a fixed cost or under the fair
share. -/
def charge (holder : AdmitKey × ℕ) (r : Resource) (fixed : Bool) :
    Serve σ Node NineError Unit := fun s =>
  let memory := s.outside.memory.head
  let s := { s with outside.memory := s.outside.memory.tail }
  match s.admission.take holder.1 holder.2 r fixed memory with
  | some admission => (.ok (), { s with admission := admission })
  | none => (.error .tooMany, s)

def discharge (holder : AdmitKey × ℕ) (r : Resource) (fixed : Bool) :
    Serve σ Node ε Unit :=
  Action.change fun s =>
    { s with admission := s.admission.give holder.1 holder.2 r fixed }

end Serve

end Redoubt.Ninep
