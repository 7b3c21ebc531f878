import Redoubt.Ninep.Answer

/-!
# Multiplexed connections

`libs/rt/src/server/ninep_mux.rs`: many requests outstanding on one connection, answered
through one long-poll call.
-/

namespace Redoubt.Ninep

open Actions Action Admission Vectors LittleEndian

/-- A message that came by `send`: four words, and the pages it brought. -/
structure Delivery where
  caller : Caller
  words : List UInt64
  transfer : Option (List UInt8 × ℕ)

/-- Bytes cut into the messages that lie end to end in them, if every one frames. -/
def frames (bytes : List UInt8) : Option (List (List UInt8)) :=
  if bytes = [] then some []
  else
    match messageSize bytes with
    | none => none
    | some n =>
      if n = 0 then none else (frames (bytes.drop n)).map (bytes.take n :: ·)
termination_by bytes.length
decreasing_by
  rw [List.length_drop]
  have hpos : 0 < bytes.length := List.length_pos_iff.mpr ‹_›
  omega

/-- A send's messages: one in its words, or those of its pages, `long` if one of them is
too long for its record. -/
inductive Sent
  | words (message : List UInt8)
  | pages (messages : List (List UInt8)) (npages : ℕ) (long : Bool)

/-- The bytes of words of `width` bytes each. -/
def wordBytes (width : ℕ) (words : List UInt64) : Option (List UInt8) :=
  (words.mapM fun w => if w.toNat < 256 ^ width then some (leBytes width w.toNat)
    else none).map
    List.flatten

/-- Frames a send's messages; nothing if any does not frame. -/
def framed (width : ℕ) (d : Delivery) : Option Sent :=
  match d.transfer with
  | some (bytes, npages) => do
      let stop := (d.words.getD 1 0).toNat
      guard (stop ≤ bytes.length)
      let messages ← frames (bytes.take stop)
      return .pages messages npages (messages.any fun m => wordsBytes < m.length)
  | none => do
      let bytes ← wordBytes width d.words.tail
      let len ← messageSize bytes
      return .words (bytes.take len)

/-- No later than the largest `u64`. -/
def after (now wait : ℕ) : ℕ := min (now + wait) forever

namespace Serve

variable {σ Node ε : Type} (fs : FileServer σ Node)

def changeSession (i : ℕ) (f : Session → Session) : Serve σ Node ε Unit :=
  change fun s => { s with mux.sessions := s.mux.sessions.modify i f }

/-- The requests of a send, each charged its pages once; all or none. -/
def chargePages (holder : AdmitKey × ℕ) (taken : ℕ) : ℕ → Serve σ Node ε Bool
  | 0 => pure true
  | n + 1 => do
      match ← attempt (charge holder .pages false) with
      | .ok () => chargePages holder (taken + 1) n
      | .error _ => do
          releasePages holder taken
          pure false

/-- `Tflush(old)` arrived: its request, or its pending `busy`, is dropped unanswered. -/
def flush (session : Session) (i : ℕ) (old : UInt16) (inHand : Option ℕ) :
    Serve σ Node ε Unit :=
  if maxTags ≤ old.toNat ∨ old ∉ session.tags then pure ()
  else do
    changeSession i fun session => { session with tags := session.tags.erase old }
    record (.flushed session.key old)
    if old ∈ session.refused then
      changeSession i fun session =>
        { session with refused := session.refused.erase old }
    else do
      let pending ← query (·.mux.pending)
      match pending.findIdx? fun p => p.key = session.key ∧ p.tag = old with
      | none => pure ()
      | some j => do
          setPending (pending.eraseIdx j)
          match pending[j]? with
          | none => pure ()
          | some request => release session.charge inHand request

def flushOld (session : Session) (i : ℕ) (old : Option UInt16) (inHand : Option ℕ) :
    Serve σ Node ε Unit :=
  match old with
  | none => pure ()
  | some old => flush session i old inHand

/-- What a request flushes, apart from itself. -/
def flushes (tag : UInt16) (bytes : List UInt8) : Option UInt16 :=
  match Message.decode bytes with
  | some { body := .tflush old, .. } => if old = tag then none else some old
  | _ => none

def isVersion (bytes : List UInt8) : Bool :=
  match Message.decode bytes with
  | some { body := .tversion .., .. } => true
  | _ => false

/-- One of the session's requests, if its pages are paid and there is memory. -/
def admitRequest (session : Session) (paid memory : Bool) :
    Serve σ Node ε (Except NineError Unit) :=
  if paid = true ∧ memory = true then attempt (charge session.charge .requests false)
  else pure (.error .tooMany)

/-- A request whose tag is free: kept with its tag outstanding, or refused. -/
def keep (session : Session) (i : ℕ) (tag : UInt16) (message : Stored) (paid : Bool)
    (inHand : Option ℕ) (now : ℕ) : Serve σ Node ε Unit := do
  changeSession i fun session => { session with tags := insert tag session.tags }
  let memory ← tryReserve
  match ← admitRequest session paid memory with
  | .error _ => do
      record (.taken session.key tag message.bytes false)
      changeSession i fun session =>
        { session with refused := insert tag session.refused }
  | .ok () => do
      flushOld session i (flushes tag message.bytes) inHand
      record (.taken session.key tag message.bytes true)
      change fun s => { s with
        mux.pending := s.mux.pending ++ [{
          key := session.key, tag := tag, deadline := after now s.mux.wait,
          tried := false
          message := message }] }

/-- The request `message` of the session at `i`; `false` if it ended the session. -/
def take (i : ℕ) (message : Stored) (paid : Bool) (inHand : Option ℕ) (now : ℕ) :
    Serve σ Node ε Bool := do
  match ← query fun s => s.mux.sessions[i]? with
  | none => pure false
  | some session =>
    let tag := (tagOf message.bytes).getD noTag
    if maxTags ≤ tag.toNat ∨ tag ∈ session.tags ∨ isVersion message.bytes = true then do
      endSession inHand i
      pure false
    else do
      keep session i tag message paid inHand now
      pure true

/-- A message of a transfer: in its record if it fits there. -/
def stored (transfer npages : ℕ) (bytes : List UInt8) : Stored :=
  if bytes.length ≤ wordsBytes then .words bytes else .pages transfer npages bytes

/-- The messages of a transfer, until one ends the session. -/
def takeEach (i transfer npages : ℕ) (paid : Bool) (now : ℕ) : List (List UInt8) →
    Serve σ Node ε Bool
  | [] => pure true
  | bytes :: rest => do
      if ← take i (stored transfer npages bytes) paid (some transfer) now then
        takeEach i transfer npages paid now rest
      else pure false

/-- The pages of a transfer, if any request will live in them. -/
def payPages (session : Session) (npages : ℕ) (long : Bool) : Serve σ Node ε Bool :=
  if long = true then chargePages session.charge 0 npages else pure true

/-- A transfer's requests, its pages counted once if any request will live in them. -/
def takePages (i : ℕ) (messages : List (List UInt8)) (npages : ℕ)
    (long : Bool) (now : ℕ) :
    Serve σ Node ε Bool := do
  match ← query fun s => s.mux.sessions[i]? with
  | none => pure false
  | some session => do
      let transfer ← query (·.mux.transfers)
      change fun s => { s with mux.transfers := transfer + 1 }
      let paid ← payPages session npages long
      let alive ← takeEach i transfer npages paid now messages
      let held ← query fun s =>
        s.mux.pending.any fun p => (p.message.transfer.map Prod.fst) = some transfer
      when (long = true ∧ paid = true ∧ held = false)
        (releasePages session.charge npages)
      pure alive

/-! ### Answering into a parked call -/

/-- A refused request's answer. -/
def busy (tag : UInt16) : Message := ⟨tag, .rerror NineError.busy.text⟩

/-- It is the same alone. -/
def busyReply (tag : UInt16) (size : ℕ) : Reply := ⟨busy tag, .replied (busy tag) size⟩

/-- The `busy` answers of the session at `i` among `tags`, as many as fit. -/
def fillRefused (i lend : ℕ) : List UInt16 → ℕ → List Reply →
    Serve σ Node ε (ℕ × List Reply)
  | [], pos, packed => pure (pos, packed)
  | tag :: rest, pos, packed => do
      if (← query fun s => s.mux.sessions[i]?).elim false fun session =>
        tag ∈ session.refused then
        match (busy tag).encode (lend - pos) with
        | none => pure (pos, packed)
        | some bytes => do
            changeSession i fun session =>
              { session with
                refused := session.refused.erase tag, tags := session.tags.erase tag }
            fillRefused i lend rest (pos + bytes.length)
              (packed ++ [busyReply tag bytes.length])
      else fillRefused i lend rest pos packed

/-- The time after a request was served, if the clock is asked. -/
def tick (clock : Bool) (now : ℕ) : Serve σ Node ε ℕ :=
  if clock = true then timeNow now else pure now

/-- One request's answer and the time after it: past its deadline, if the file server
has held it, it is not served again. -/
def serveOne (session : Session) (request : Pending) (out now : ℕ) (clock : Bool) :
    Serve σ Node ε (Answer × ℕ) :=
  if request.tried = true ∧ request.deadline ≤ now then
    pure (writeReply request.tag (.error (.error .timeout)) out, now)
  else do
    change fun s =>
      let r := fs.serving session.caller session.charge (s.fs, s.admission)
      { s with fs := r.1, admission := r.2 }
    let answer ← answerInto fs session.caller request.message.bytes out
    change fun s =>
      let r := fs.served (s.fs, s.admission)
      { s with fs := r.1, admission := r.2 }
    return (answer, ← tick clock now)

/-- What a request would be answered now, alone in a lend. -/
def aloneAnswer (session : Session) (request : Pending) (lend now : ℕ) (clock : Bool)
    (s : NineServer σ Node) : Answer :=
  match (serveOne fs session request lend now clock : Serve σ Node Empty _) s with
  | (.ok (answer, _), _) => answer
  | (.error e, _) => e.elim

/-- The requests of the session at `i` among `rest`, in order, as far as their answers
fit; `kept` are those before.  What each would be answered alone is only kept for the
history. -/
def fillRequests (session : Session) (i lend : ℕ) (clock : Bool) :
    List Pending → List Pending → ℕ → ℕ → List Reply →
      Serve σ Node ε (ℕ × List Reply × ℕ)
  | _, [], pos, now, packed => pure (pos, packed, now)
  | kept, p :: rest, pos, now, packed =>
    if p.key ≠ session.key then
      fillRequests session i lend clock (kept ++ [p]) rest pos now packed
    else if lend - pos < min p.need lend then pure (pos, packed, now)
    else do
      setPending (kept ++ rest)
      let alone ← query (aloneAnswer fs session p lend now clock)
      let (answer, now) ← serveOne fs session p (lend - pos) now clock
      match answer with
      | .replied reply size => do
          changeSession i fun session =>
            { session with tags := session.tags.erase p.tag }
          release session.charge none p
          fillRequests session i lend clock kept rest (pos + size) now
            (packed ++ [⟨reply, alone⟩])
      | unanswered => do
          let p := { p with tried := p.tried || unanswered == .waiting }
          setPending (kept ++ p :: rest)
          fillRequests session i lend clock (kept ++ [p]) rest pos now packed

/-- Packs the session's `busy` answers, then its requests in order, into a lend: the
bytes, the answers and the time of the last. -/
def fill (session : Session) (i lend now : ℕ) (clock : Bool) :
    Serve σ Node ε (ℕ × List Reply × ℕ) := do
  let (pos, packed) ← fillRefused i lend ((List.range maxTags).map UInt16.ofNat) 0 []
  let pending ← query (·.mux.pending)
  fillRequests fs session i lend clock [] pending pos now packed

/-- Answers reached the session's client. -/
def recordAnswers (key : ConnKey) : List Reply → Serve σ Node ε Unit
  | [] => pure ()
  | reply :: rest => do
      record (.answered key reply)
      recordAnswers key rest

/-- Serves the session at `i` into its parked call, and replies if there is anything to
say, or if `empty`; whether the session is still there. -/
def pump (i now : ℕ) (empty : Bool) : Serve σ Node ε Bool := do
  match ← query fun s => s.mux.sessions[i]? with
  | none => pure true
  | some session =>
    match session.call with
    | none => pure true
    | some call => do
        changeSession i fun session => { session with call := none }
        let (pos, packed, now) ← fill fs session i call.lend now true
        if pos = 0 ∧ empty = false then do
          changeSession i fun session => { session with call := some call }
          pure true
        else do
          if ← finish then do
            recordAnswers session.key packed
            let now ← timeNow now
            let bound ← query (·.mux.bound)
            changeSession i fun session => { session with deadline := after now bound }
            pure true
          else do
            endSession none i
            pure false

/-- The requests of one send, then what can be answered. -/
def takeAll (width i : ℕ) (d : Delivery) (now : ℕ) : Serve σ Node ε Unit :=
  match framed width d with
  | none => endSession none i
  | some (.words message) => do
      if ← take i (.words message) true none now then do
        let _ ← pump fs i now false
        pure ()
      else pure ()
  | some (.pages messages npages long) => do
      if ← takePages i messages npages long now then do
        let _ ← pump fs i now false
        pure ()
      else pure ()

/-! ### What comes to the server -/

/-- Opens a caller's session; `false` if it is refused or one is open already. -/
def openSession (caller : Caller) (now : ℕ) : Serve σ Node ε Bool := do
  let key ← query (·.connKey caller)
  let holder ← query (·.chargeOf caller)
  let memory ← tryReserve
  if (← query (·.mux.session key)).isSome ∨ memory = false then pure false
  else do
    match ← attempt (charge holder .inFlight false) with
    | .error _ => pure false
    | .ok () => do
        let bound ← query (·.mux.bound)
        change fun s => { s with
          mux.sessions := s.mux.sessions ++ [{
            key := key, caller := caller, charge := holder, call := none
            deadline := after now bound, tags := ∅, refused := ∅ }] }
        pure true

/-- A completion call: opens the session, or is parked and served. -/
def collect (caller : Caller) (id hold lend : ℕ) : Serve σ Node ε Unit := do
  let now ← timeNow 0
  if lend = 0 then pure ()
  else do
    let key ← query (·.connKey caller)
    match ← query (·.mux.session key) with
    | none => do
        if ← openSession caller now then do
          if ← finish then pure () else do
            endSession none ((← query (·.mux.sessions.length)) - 1)
        else pure ()
    | some i => do
        if (← query fun s => s.mux.sessions[i]?).elim false fun session =>
          session.call.isSome then pure ()
        else do
          let bound ← query (·.mux.bound)
          changeSession i fun session =>
            { session with
              call := some ⟨id, lend⟩, deadline := after now (min hold bound) }
          let _ ← pump fs i now (hold == 0)
          pure ()

/-- A message that came by `send`; dropped if its connection has no session. -/
def deliver (width : ℕ) (d : Delivery) (now : ℕ) : Serve σ Node ε Unit := do
  if d.words.getD 0 0 ≠ 0 then pure ()
  else do
    let key ← query (·.connKey d.caller)
    match ← query (·.mux.session key) with
    | none => pure ()
    | some i => takeAll fs width i d now

/-- What a parked call of the caller's would be given now, handed to it at once. -/
def collectInto (caller : Caller) (lend now : ℕ) : Serve σ Node ε Unit := do
  let key ← query (·.connKey caller)
  match ← query (·.mux.session key) with
  | none => pure ()
  | some i => do
      match ← query fun s => s.mux.sessions[i]? with
      | none => pure ()
      | some session => do
          if session.call.isSome then pure ()
          else do
            let (_, packed, _) ← fill fs session i lend now false
            recordAnswers session.key packed

def abandoned (id : ℕ) : Serve σ Node ε Unit := do
  match ← query fun s => s.mux.sessions.findIdx? fun session =>
    (session.call.map Parked.id) = some id with
  | none => pure ()
  | some i => endSession none i

/-- What `now` makes due for the session at `i`; whether it is still there. -/
def expireOne (i now : ℕ) : Serve σ Node ε Bool := do
  match ← query fun s => s.mux.sessions[i]? with
  | none => pure true
  | some session => do
      let due := decide (session.deadline ≤ now)
      if session.call.isNone then
        if due then do
          endSession none i
          pure false
        else pure true
      else do
        let late ← query fun s =>
          s.mux.pending.any fun p => p.key = session.key ∧ p.tried ∧ p.deadline ≤ now
        if late || due then pump fs i now due else pure true

/-- Every session in turn, the first at `i`: the next after one that stays, the one put
in its place after one that went. -/
def eachSession (visit : ℕ → Serve σ Node ε Bool) : ℕ → ℕ → Serve σ Node ε Unit
  | 0, _ => pure ()
  | left + 1, i => do
      if ← visit i then eachSession visit left (i + 1) else eachSession visit left i

/-- What `now` makes due. -/
def expire (now : ℕ) : Serve σ Node ε Unit := do
  eachSession (fun i => expireOne fs i now) (← query (·.mux.sessions.length)) 0

def wake (now : ℕ) : Serve σ Node ε Unit := do
  eachSession (fun i => pump fs i now false) (← query (·.mux.sessions.length)) 0

end Serve

end Redoubt.Ninep
