import Redoubt.Library.Actions
import Redoubt.Ninep.State

/-!
# The client hub

`libs/client/src/aio.rs`: many 9P requests outstanding at once.  Every buffer is named
by its page, and every request is numbered as it is accepted; the numbers, and what is
kept of the past, are not looked at.
-/

namespace Redoubt.Client

open Actions Action Ninep

def pageSize : ℕ := 4096

/-- A completion call's buffer: room for one answer of the whole msize. -/
def completionPages : ℕ := 16

def maxWrite : ℕ := pageSize - ioHdrSz

/-- Word 0 of a waiter's wake-up, and word 2 of one whose completion call failed. -/
def wake : ℕ := 0xa10

def failed : ℕ := 2 ^ 32 - 1

/-- Pages of the process's own. -/
structure Buffer where
  page : ℕ
  bytes : List UInt8
deriving DecidableEq, Repr

/-- An `Rerror`'s name (`libs/wire/src/ninep.rs`). -/
inductive ErrorName
  | notFound | notPermitted | exists | notDir | isDir | notEmpty | noSpace
    | readOnly | removed
  | tooMany | noMemory | notSupported | badName | tooLarge | corrupt | refused | timeout
  | unreachable | inUse | state | protocol | busy | other
deriving DecidableEq, Repr

/-- Each name's texts. -/
def errorNames : List (ErrorName × List String) :=
  [(.notFound, ["file does not exist"]),
    (.notPermitted, ["permission denied", "not_permitted"]),
    (.exists, ["file exists"]), (.notDir, ["not a directory"]),
    (.isDir, ["is a directory"]), (.notEmpty, ["directory not empty"]),
    (.noSpace, ["no space", "quota refused"]),
    (.readOnly, ["read-only", "read-only volume"]), (.removed, ["removed"]),
    (.tooMany, ["too many open files", "too_many"]),
    (.noMemory, ["out of memory", "no charge"]),
    (.notSupported, ["not supported"]), (.badName, ["bad file name", "path too deep"]),
    (.tooLarge, ["file too large"]), (.corrupt, ["corrupt"]), (.refused, ["refused"]),
    (.timeout, ["timeout"]), (.unreachable, ["unreachable"]), (.inUse, ["in_use"]),
    (.state, ["state"]), (.busy, ["busy"]),
    (.protocol,
      ["malformed message", "unknown fid", "fid already in use", "fid is open",
        "fid not open for this", "bad open mode", "bad offset", "count too small",
        "reply too large", "no such connection", "no connection id",
        "authentication not required"])]

def ErrorName.of (text : Text) : ErrorName :=
  (errorNames.find? fun entry => entry.2.any fun t => ascii t = text).elim
    .other Prod.fst

inductive Error
  | disconnected | wire | unexpected | noTag | noMemory
  | sys
  | server (code : ℕ)
deriving DecidableEq, Repr

/-- How a request ended. -/
inductive Outcome
  | read (n : ℕ)
  | wrote (count : UInt32)
  | flushed
  | busy
  | rerror (name : ErrorName)
  | reply (message : List UInt8)
  | ended
deriving DecidableEq, Repr

/-- A request's completion, and the buffer it was submitted with. -/
structure Done where
  conn : ℕ
  tag : UInt16
  outcome : Outcome
  buffer : Option Buffer
  request : ℕ
deriving DecidableEq, Repr

/-- A request not yet taken by its server, as its T-message. -/
structure Queued where
  tag : UInt16
  message : List UInt8
  request : ℕ
deriving DecidableEq, Repr

/-- An outstanding tag: the buffer it holds, and for a flush the tag it flushes. -/
structure Slot where
  buffer : Option Buffer
  flushes : Option UInt16
  request : ℕ
deriving DecidableEq, Repr

/-- `waiter`: the badge of its waiter's wake-ups; `lend`: the completion call's buffer,
while no call is out with it. -/
structure Connection where
  slots : List (Option Slot)
  queue : List Queued
  lend : Option Buffer
  waiter : Option ℕ
  ended : Bool
deriving DecidableEq, Repr

def Connection.slot (c : Connection) (tag : UInt16) : Option Slot :=
  (c.slots[tag.toNat]?).join

/-- A request that was accepted: its connection, its tag and its buffer's page. -/
structure Accepted where
  conn : ℕ
  tag : UInt16
  page : Option ℕ
deriving DecidableEq, Repr

/-- What happens on a connection. -/
inductive HubEvent
  | sent (conn : ℕ)
  | ended (conn : ℕ)
deriving DecidableEq, Repr

/-- How a send went: taken, not taken within its time, or refused. -/
inductive Sent
  | taken | later | failed
deriving DecidableEq, Repr

/-- What the hub is told: how each send went, and whether there is memory. -/
structure Outside where
  sends : Stream' Sent
  memory : Stream' Bool

/-- Every connection's tags, queue and buffers.  `width`: the bytes of a machine word;
`accepted`, `taken` and `log`: every request, every completion taken, and what
happened. -/
@[ext]
structure Hub where
  conns : List Connection
  done : List Done
  batching : Bool
  width : ℕ
  outside : Outside
  accepted : List Accepted
  taken : List Done
  log : List HubEvent

namespace Hub

def new (width : ℕ) (outside : Outside) : Hub :=
  { conns := [], done := [], batching := false, width := width, outside := outside,
    accepted := []
    taken := [], log := [] }

def slot (h : Hub) (c : ℕ) (tag : UInt16) : Option Slot :=
  (h.conns[c]?).bind fun conn => conn.slot tag

def queue (h : Hub) (c : ℕ) : List Queued := (h.conns[c]?).elim [] Connection.queue

/-- Whether a connection is over; one that is not there is. -/
def ended (h : Hub) (c : ℕ) : Bool := (h.conns[c]?).elim true Connection.ended

def waiter (h : Hub) (c : ℕ) : Option ℕ := (h.conns[c]?).bind Connection.waiter

def changeConn (h : Hub) (c : ℕ) (f : Connection → Connection) : Hub :=
  { h with conns := h.conns.modify c f }

def allTags : List UInt16 := (List.range maxTags).map UInt16.ofNat

/-- A tag is neither outstanding, nor named by a flush outstanding, nor a completion's
not yet taken. -/
def tagFree (h : Hub) (c : ℕ) (tag : UInt16) : Bool :=
  !(h.done.any fun d => d.conn = c ∧ d.tag = tag) && (h.slot c tag).isNone &&
    !((h.conns[c]?).elim [] Connection.slots).any fun slot =>
      slot.bind Slot.flushes = some tag

def freeTag (h : Hub) (c : ℕ) : Except Error UInt16 :=
  if h.ended c = true then .error .disconnected
  else
    match allTags.find? (h.tagFree c) with
    | some tag => .ok tag
    | none => .error .noTag

/-- Everything outstanding, as it comes back at the end of its connection. -/
def endings (c : ℕ) (conn : Connection) : List Done :=
  conn.slots.zipIdx.filterMap fun (slot, tag) => slot.map fun slot =>
    { conn := c, tag := UInt16.ofNat tag, outcome := .ended, buffer := slot.buffer,
      request := slot.request }

/-- The hub with a connection over. -/
def endConn (h : Hub) (c : ℕ) : Hub :=
  { h.changeConn c fun conn => { conn with
      slots := conn.slots.map fun _ => none, queue := [], ended := true } with
    done := h.done ++ (h.conns[c]?).elim [] (endings c)
    log := h.log ++ (h.conns[c]?).elim [] fun _ => [.ended c] }

end Hub

variable {ε : Type}

abbrev Hubbed (ε α : Type) := Action Hub ε α

def tryReserve : Hubbed ε Bool := fun h =>
  (.ok h.outside.memory.head, { h with outside.memory := h.outside.memory.tail })

variable (c : ℕ)

/-- How the next send goes, on a connection. -/
def send : Hubbed ε Sent := fun h =>
  (.ok h.outside.sends.head,
    { h with outside.sends := h.outside.sends.tail, log := h.log ++ [.sent c] })

def changeConn (c : ℕ) (f : Connection → Connection) : Hubbed ε Unit :=
  change fun h => h.changeConn c f

def push (d : Done) : Hubbed ε Unit := change fun h => { h with done := h.done ++ [d] }

/-- The request outstanding under a tag, no longer outstanding. -/
def takeSlot (tag : UInt16) : Hubbed ε (Option Slot) := do
  let slot ← query (·.slot c tag)
  changeConn c fun conn => { conn with slots := conn.slots.set tag.toNat none }
  return slot

/-- The connection is over: everything outstanding comes back `ended`. -/
def endConn (c : ℕ) : Hubbed ε Unit := change fun h => h.endConn c

/-! ### Sending -/

/-- How many messages at the front of a queue fit `room` bytes. -/
def fitting (room len : ℕ) : List Queued → ℕ
  | [] => 0
  | q :: rest =>
    if room < len + q.message.length then 0
      else fitting room (len + q.message.length) rest + 1

/-- How many messages at the front of a queue go in the next send, and whether in pages:
one alone in the words if it fits them, else as many as fit one page, or one longer
alone. -/
def nextSend (width : ℕ) : List Queued → ℕ × Bool
  | [] => (0, false)
  | first :: rest =>
    if rest = [] ∧ first.message.length ≤ 3 * width then (1, false)
    else (fitting (max pageSize first.message.length) 0 (first :: rest), true)

/-- Whether there is a page to send in, if one is needed. -/
def pagesFor (pages : Bool) : Hubbed ε Bool :=
  if pages = true then tryReserve else pure true

/-- Sends a queue in order until a send is not taken, `n` times at most. -/
def sendLoop (c : ℕ) : ℕ → Hubbed ε Unit
  | 0 => pure ()
  | n + 1 => do
      let queue ← query (·.queue c)
      let width ← query (·.width)
      if queue = [] then pure ()
      else if ← pagesFor (nextSend width queue).2 then do
        match ← send c with
        | .taken => do
            changeConn c fun conn =>
              { conn with queue := conn.queue.drop (nextSend width queue).1 }
            sendLoop c n
        | .later => pure ()
        | .failed => endConn c
      else pure ()

/-- Each send that is taken takes one message at least. -/
def sendQueued : Hubbed ε Unit := do
  let n ← query fun h => (h.queue c).length
  sendLoop c n

def pollFrom : List ℕ → Hubbed ε Unit
  | [] => pure ()
  | c :: rest => do
      sendQueued c
      pollFrom rest

/-- Sends what is queued, on every connection. -/
def poll : Hubbed ε Unit := do
  let n ← query (·.conns.length)
  pollFrom (List.range n)

/-! ### Submitting -/

/-- A flush of a request still queued sends neither: both are done at once. -/
def flushQueued (i : ℕ) (old queued : Queued) (slot : Slot) : Hubbed ε Unit := do
  changeConn c fun conn => { conn with queue := conn.queue.eraseIdx i }
  let held ← takeSlot c old.tag
  push { conn := c, tag := old.tag, outcome := .flushed,
         buffer := held.bind Slot.buffer, request := old.request }
  push { conn := c, tag := queued.tag, outcome := .flushed, buffer := slot.buffer,
         request := queued.request }

/-- The place in the queue of the request that a flush names. -/
def flushedAt (queue : List Queued) (slot : Slot) : Option ℕ :=
  slot.flushes.bind fun old => queue.findIdx? fun q => q.tag = old

/-- Queues a request and sends what the server will take. -/
def enqueue (queued : Queued) (slot : Slot) : Hubbed ε Unit := do
  change fun h =>
    { h with accepted := h.accepted ++ [⟨c, queued.tag, slot.buffer.map Buffer.page⟩] }
  let queue ← query (·.queue c)
  match (flushedAt queue slot).bind fun i => (queue[i]?).map (i, ·) with
  | some (i, old) => flushQueued c i old queued slot
  | none => do
      changeConn c fun conn => { conn with
        slots := conn.slots.set queued.tag.toNat (some slot),
        queue := conn.queue ++ [queued] }
      if ← query (·.batching) then pure () else sendQueued c

def freeTag (c : ℕ) : Hubbed Error UInt16 := fun h => (h.freeTag c, h)

/-- What a body flushes. -/
def flushOf : Body → Option UInt16
  | .tflush old => some old
  | _ => none

/-- Sends a body with a fresh tag, holding a buffer for its completion. -/
def submit (body : Body) (buffer : Option Buffer) : Hubbed Error UInt16 := do
  let tag ← freeTag c
  let message ← found ((Message.mk tag body).encode msize) .wire
  let request ← query (·.accepted.length)
  enqueue c ⟨tag, message, request⟩ ⟨buffer, flushOf body, request⟩
  return tag

/-- A `Tread` of the buffer's length, at most what one answer carries. -/
def read (fid : UInt32) (offset : UInt64) (buffer : Buffer) : Hubbed Error UInt16 :=
  submit c
    (.tread fid offset
      (UInt32.ofNat (min buffer.bytes.length (completionPages * pageSize - ioHdrSz))))
    (some buffer)

/-- A `Twrite` of the first `len` bytes of a buffer. -/
def write (fid : UInt32) (offset : UInt64) (buffer : Buffer) (len : ℕ) :
    Hubbed Error UInt16 := do
  let tag ← freeTag c
  require (len ≤ buffer.bytes.length ∧ len ≤ maxWrite) .wire
  let message ← found
    ((Message.mk tag (.twrite fid offset (buffer.bytes.take len))).encode msize) .wire
  let request ← query (·.accepted.length)
  enqueue c ⟨tag, message, request⟩ ⟨some buffer, none, request⟩
  return tag

/-! ### Completions -/

/-- The messages that lie end to end in bytes, as far as they frame, and whether all of
them do; each takes a byte at least, so there are at most `n` in as many bytes. -/
def cut : ℕ → List UInt8 → List (List UInt8) × Bool
  | _, [] => ([], true)
  | 0, _ :: _ => ([], false)
  | n + 1, bytes =>
    match messageSize bytes with
    | none => ([], false)
    | some size =>
      ((bytes.take size) :: (cut n (bytes.drop size)).1, (cut n (bytes.drop size)).2)

/-- A flushed request whose answer did not come first ends with its `Rflush`. -/
def endFlushed : Option UInt16 → Hubbed ε Unit
  | none => pure ()
  | some tag => do
      match ← takeSlot c tag with
      | none => pure ()
      | some old =>
        push { conn := c, tag := tag, outcome := .flushed, buffer := old.buffer,
               request := old.request }

/-- Hands out the answer to a request; it fails if there is more data than was asked
for. -/
def answer (message : Message) (bytes : List UInt8) (slot : Slot) : Hubbed Unit Unit :=
  let done (outcome : Outcome) (buffer : Option Buffer) : Hubbed Unit Unit :=
    push { conn := c, tag := message.tag, outcome := outcome, buffer := buffer,
           request := slot.request }
  match message.body with
  | .rread data =>
    match slot.buffer with
    | some b =>
      if data.length ≤ b.bytes.length then
        done (.read data.length)
          (some { b with bytes := data ++ b.bytes.drop data.length })
      else fail ()
    | none => done (.reply bytes) none
  | .rwrite count => done (.wrote count) slot.buffer
  | .rerror ename =>
    if ErrorName.of ename = .busy then done .busy slot.buffer
    else done (.rerror (ErrorName.of ename)) slot.buffer
  | .rflush => do
      endFlushed c slot.flushes
      done .flushed slot.buffer
  | _ => done (.reply bytes) slot.buffer

/-- Hands out one message, if it is an answer. -/
def handOut (bytes : List UInt8) : Hubbed Unit Unit := do
  let message ← found (Message.decode bytes) ()
  let slot ← takeSlot c message.tag
  let slot ← found slot ()
  answer c message bytes slot

/-- Hands out every answer; it fails at a message that is none. -/
def answers (c : ℕ) : List (List UInt8) → Hubbed Unit Unit
  | [] => pure ()
  | bytes :: rest => do
      handOut c bytes
      answers c rest

/-- Hands out every answer in bytes. -/
def answersIn (bytes : List UInt8) : Hubbed Unit Unit := do
  answers c (cut bytes.length bytes).1
  require ((cut bytes.length bytes).2 = true) ()

/-- What is wrong with a completion call's answers ends the connection. -/
def endOnError : Except Unit Unit → Hubbed ε Unit
  | .ok () => pure ()
  | .error () => endConn c

/-- Takes a completion call's reply words 0 to 2, if it did not fail, and its buffer. -/
def collected (reply : Option (ℕ × ℕ × ℕ)) (buffer : Option Buffer) : Hubbed ε Unit :=
  match reply, buffer with
  | some (0, n, 0), some lend => do
      let taken ← attempt (do
        require (n ≤ lend.bytes.length) ()
        answersIn c (lend.bytes.take n))
      endOnError c taken
      changeConn c fun conn => { conn with lend := some lend }
  | _, _ => endConn c

/-- A completion call's buffer. -/
def lendFor : Hubbed Error Unit := do
  match ← query fun h => (h.conns[c]?).bind Connection.lend with
  | some _ => changeConn c fun conn => { conn with lend := none }
  | none => do require ((← tryReserve) = true) .noMemory

/-- A wait up to its completion call. -/
def waitBegin : Hubbed Error Unit := do
  poll
  require ((← query (·.ended c)) = false) .disconnected
  require ((← query (·.waiter c)) = none) .unexpected
  lendFor c

/-- Waits in a completion call itself and takes what it brings. -/
def wait (reply : Option (ℕ × ℕ × ℕ)) (buffer : Option Buffer) : Hubbed Error Unit := do
  waitBegin c
  collected c reply buffer
  poll

/-- A session opened on an endpoint; `reply`: the completion call's words and how many
handles it brought. -/
def connect (reply : Option ((ℕ × ℕ × ℕ × ℕ) × ℕ)) (lend : Option Buffer) :
    Hubbed Error ℕ := do
  require ((← tryReserve) = true) .noMemory
  let (words, handles) ← found reply .sys
  require (words.1 = 0) (.server (words.1 % 2 ^ 32))
  require (words = (0, 0, 1, 0) ∧ handles = 0) .unexpected
  let c ← query (·.conns.length)
  change fun h => { h with conns := h.conns ++ [{
    slots := List.replicate maxTags none, queue := [], lend := lend, waiter := none,
    ended := false }] }
  return c

/-- Starts a waiter, if the handle for its wake-ups, its buffer and its thread are to be
had. -/
def spawnWaiter (c badge : ℕ) (minted spawned : Bool) : Hubbed Error Unit := do
  require (minted = true) .sys
  lendFor c
  require (spawned = true) .sys
  changeConn c fun conn => { conn with waiter := some badge }

/-- A delivery on the caller's endpoint: a waiter's wake-up is taken here; whether it
was one. -/
def deliver (badge : ℕ) (words : ℕ × ℕ × ℕ × ℕ) (transfer : Option Buffer) :
    Hubbed ε Bool := do
  let c := words.2.1
  if words.1 = wake ∧ (← query (·.waiter c)) = some badge then do
    when (words.2.2.1 ≠ 0) (changeConn c fun conn => { conn with waiter := none })
    collected c (if words.2.2.1 ≠ failed then some (words.2.2.1, words.2.2.2, 0)
      else none) transfer
    poll
    pure true
  else pure false

/-- Lets go of a connection that is over and has no waiter. -/
def release : Hubbed ε Bool := do
  if (← query (·.ended c)) = true ∧ (← query (·.waiter c)) = none then do
    changeConn c fun conn => { conn with slots := [], queue := [], lend := none }
    pure true
  else pure false

def disconnect : Hubbed ε Unit := endConn c

/-- The next completion, if any. -/
def completed : Hubbed ε (Option Done) := fun h =>
  match h.done with
  | [] => (.ok none, h)
  | d :: rest => (.ok (some d), { h with done := rest, taken := h.taken ++ [d] })

end Redoubt.Client
