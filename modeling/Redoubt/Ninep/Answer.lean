import Redoubt.Ninep.Fids

/-!
# Answering a request

`libs/rt/src/server/ninep.rs`: the R-message for a T-message, and `ninep_common`'s
`new_connection` and `disconnect`.
-/

namespace Redoubt.Ninep

open Actions Action Admission Vectors

/-- How answering ended short of an R-message: refused, or held for later. -/
inductive Held
  | error (e : NineError)
  | wait
deriving DecidableEq, Repr

namespace Serve

variable {σ Node ε : Type} (fs : FileServer σ Node)

def settle (badge : ℕ) (charged : AdmitKey × ℕ) : Serve σ Node ε Unit :=
  change fun s => { s with minted := s.minted.settle badge charged }

/-- The first request on a minted connection moves its admission to the caller's bucket
and share, or is refused there. -/
def arrived (caller : Caller) : Serve σ Node NineError Unit :=
  if caller.badge < firstMintedBadge then pure ()
  else do
    match ← query (·.minted.pending caller.badge) with
    | none => pure ()
    | some minter => do
        let holder ← query (·.chargeOf caller)
        if holder.1 = minter.1 then settle caller.badge minter
        else do
          charge holder .state false
          discharge minter .state false
          settle caller.badge holder

def checkLabels (caller : Caller) (node : Node) (access : Access) :
    Serve σ Node NineError Unit := do
  require (check caller.labels (fs.labels (← query (·.fs)) node) access = true)
    .permission

/-- The label check for opening with a mode, and the mode's own rules. -/
def checkOpen (caller : Caller) (node : Node) (mode : UInt8) (isDir : Bool) :
    Serve σ Node NineError Unit := do
  require (checkMode mode isDir = true) .badMode
  when (readable mode = true) (checkLabels fs caller node .read)
  when (writable mode = true ∨ mode &&& oTrunc ≠ 0) (checkLabels fs caller node .write)

/-- The root the caller's connection attaches at, unchecked. -/
def attached (caller : Caller) (aname : Text) : Serve σ Node NineError (Node × Qid) :=
  if firstMintedBadge ≤ caller.badge then do
    found (← query (·.minted.get caller.badge)) .noConnection
  else ask (fs.attach caller aname)

/-- The same, checked readable. -/
def root (caller : Caller) (aname : Text) : Serve σ Node NineError (Node × Qid) := do
  let root ← attached fs caller aname
  checkLabels fs caller root.1 .read
  return root

def step (caller : Caller) (steps : Steps Node) (name : Text) :
    Serve σ Node NineError (Steps Node) := do
  require (steps.here.2.isDir = true) .notDir
  checkLabels fs caller steps.here.1 .read
  if name = dotDot then pure steps.back
  else do
    require (validName name = true) .badName
    require (steps.length ≤ maxComponents) .tooDeep
    needMemory
    let next ← ask (fs.walk caller steps.here.1 name)
    checkLabels fs caller next.1 .read
    return steps.push next

/-- Steps by names, as far as they go; the qids stepped into. -/
def walkNames (caller : Caller) :
    List Text → Steps Node → List Qid →
      Serve σ Node ε (Except NineError (Steps Node) × List Qid)
  | [], steps, qids => pure (.ok steps, qids)
  | name :: rest, steps, qids => do
      match ← attempt (step fs caller steps name) with
      | .error e => pure (.error e, qids)
      | .ok steps =>
        if qids.length < maxWElem then
          walkNames caller rest steps (qids ++ [steps.here.2])
        else pure (.ok steps, qids)

/-- Where a walk came to rests in `newfid`, or in the fid itself. -/
def putFid (caller : Caller) (key : ConnKey) (name newfid : UInt32)
    (steps : Steps Node) :
    Serve σ Node NineError Unit :=
  if newfid ≠ name then insertFid caller newfid (Fid.fresh steps false)
  else fidMut key name fun f => { f with steps := steps }

/-- Walks `newfid` from a fid; the first name failing is an error, a later one ends the
walk short and leaves `newfid` alone. -/
def walk (caller : Caller) (name newfid : UInt32) (names : List Text) :
    Serve σ Node NineError (List Qid) := do
  let key ← query (·.connKey caller)
  let f ← fid key name
  require (f.mode = none) .isOpen
  needMemory
  when (newfid ≠ name) (reserveFid caller newfid false)
  match ← walkNames fs caller names f.steps [] with
  | (.error e, qids) => do
      when (newfid ≠ name) (unreserve caller false)
      if qids = [] then fail e else pure qids
  | (.ok steps, qids) => do
      putFid caller key name newfid steps
      return qids

def attachFid (caller : Caller) (name afid : UInt32) (aname : Text) :
    Serve σ Node NineError Qid := do
  require (afid = noFid) .noAuth
  let key ← query (·.connKey caller)
  let first :=
    !((← query (·.conn key)).elim false fun c => c.fids.any fun f => f.2.root)
  reserveFid caller name first
  match ← attempt (do let at' ← root fs caller aname; needMemory; return at') with
  | .error e => do
      unreserve caller first
      fail e
  | .ok at' => do
      insertFid caller name (Fid.fresh ⟨at', []⟩ first)
      return at'.2

def openFid (caller : Caller) (name : UInt32) (mode : UInt8) :
    Serve σ Node NineError Qid := do
  let key ← query (·.connKey caller)
  let f ← fid key name
  require (f.mode = none) .isOpen
  checkOpen fs caller f.node mode f.isDir
  let qid ← ask (fs.openNode caller f.node mode)
  fidMut key name (·.opened mode)
  return qid

def createFid (caller : Caller) (name : UInt32) (entry : Text) (perm : UInt32)
    (mode : UInt8) :
    Serve σ Node NineError Qid := do
  let key ← query (·.connKey caller)
  let f ← fid key name
  require (f.mode = none) .isOpen
  require (f.isDir = true) .notDir
  require (validName entry = true) .badName
  require (f.steps.length ≤ maxComponents) .tooDeep
  checkLabels fs caller f.node .write
  require (checkMode mode (perm &&& dmDir != 0) = true) .badMode
  needMemory
  let made ← ask (fs.create caller f.node entry perm mode)
  fidMut key name fun f => { f with steps := f.steps.push made }.opened mode
  return made.2

/-- The entries of a directory from `index` on that the caller may read, as many as fit
`count` bytes; an index is a `u64`, so there are at most `left` more. -/
def listDir (caller : Caller) (dir : Node) (count : ℕ) :
    ℕ → ℕ → List UInt8 → Serve σ Node NineError (List UInt8 × ℕ)
  | 0, index, out => pure (out, index)
  | left + 1, index, out => do
      match ← ask (fs.dirEntry caller dir index) with
      | none => pure (out, index)
      | some (entry, stat) => do
          if check caller.labels (fs.labels (← query (·.fs)) entry) .read = true then
            match (Writer.entry stat.wire).filter fun bytes =>
              out.length + bytes.length ≤ count with
            | some bytes => listDir caller dir count left (index + 1) (out ++ bytes)
            | none => if out = [] then fail .tooSmall else pure (out, index)
          else listDir caller dir count left (index + 1) out

/-- The first `n` bytes of a zeroed buffer that now begins with `out`. -/
def buffered (n : ℕ) (out : List UInt8) : List UInt8 :=
  (out ++ List.replicate n 0).take n

/-- Reads at most what `room` can carry. -/
def read (caller : Caller) (name : UInt32) (offset : UInt64)
    (asked : UInt32) (room : ℕ) :
    Serve σ Node Held (List UInt8) := do
  let key ← query (·.connKey caller)
  let f ← (fid key name).mapError .error
  require ((f.mode.elim false readable) = true) (.error .notOpen)
  let count := min asked.toNat (room - ioHdrSz)
  require (offset.toNat + count < 2 ^ 64) (.error .badOffset)
  (checkLabels fs caller f.node .read).mapError .error
  needMemory.mapError .error
  if f.isDir = false then do
    match ← (ask (fs.read caller f.node offset.toNat count)).mapError .error with
    | .wait => fail .wait
    | .done n out => do
        require (n ≤ count) (.error .badMessage)
        return buffered n out
  else do
    require (offset = 0 ∨ offset.toNat = f.dirNext.1) (.error .badOffset)
    let index := if offset = 0 then 0 else f.dirNext.2
    let (out, index) ←
      (listDir fs caller f.node count (2 ^ 64 - index) index []).mapError .error
    (fidMut key name fun f =>
      { f with dirNext := (offset.toNat + out.length, index) }).mapError .error
    return out

def write (caller : Caller) (name : UInt32) (offset : UInt64) (data : List UInt8) :
    Serve σ Node Held UInt32 := do
  let key ← query (·.connKey caller)
  let f ← (fid key name).mapError .error
  require ((f.mode.elim false writable) = true) (.error .notOpen)
  require (offset.toNat + data.length < 2 ^ 64) (.error .badOffset)
  (checkLabels fs caller f.node .write).mapError .error
  match ← (ask (fs.writeOrWait caller f.node offset.toNat data)).mapError .error with
  | .wait => fail .wait
  | .done n => do
      require (n < 2 ^ 32 ∧ n ≤ data.length) (.error .badMessage)
      return UInt32.ofNat n

def clunkFid (caller : Caller) (name : UInt32) : Serve σ Node NineError Unit := do
  let key ← query (·.connKey caller)
  let (f, share) ← removeFid key name
  dropFid fs (key.client, share) f

/-- The fid goes whether or not the remove succeeds. -/
def removeFile (caller : Caller) (name : UInt32) : Serve σ Node NineError Unit := do
  let key ← query (·.connKey caller)
  let (f, share) ← removeFid key name
  let result ← attempt (do
    checkLabels fs caller f.node .write
    ask (fs.remove caller f.node))
  dropFid fs (key.client, share) f
  match result with
  | .ok () => pure ()
  | .error e => fail e

def statFid (caller : Caller) (name : UInt32) : Serve σ Node NineError FileStat := do
  let key ← query (·.connKey caller)
  let f ← fid key name
  checkLabels fs caller f.node .read
  ask (fs.stat caller f.node)

/-- `9P2000`, the only version spoken. -/
def spoken : Text := ascii "9P2000"

/-- A new session on the connection: every fid of it goes, and its multiplexed
session. -/
def version (caller : Caller) (size : UInt32) (asked : Text) : Serve σ Node ε Body := do
  let key ← query (·.connKey caller)
  let _ ← dropConn fs fun k => k = key
  endWhere fun k => k = key
  return .rversion (min size (UInt32.ofNat msize))
    (if spoken.isPrefixOf asked then spoken else ascii "unknown")

/-- The R-message for a T-message, in at most `room` bytes. -/
def answer (caller : Caller) (body : Body) (room : ℕ) : Serve σ Node Held Body := do
  (arrived caller).mapError .error
  match body with
  | .tversion size asked => (version fs caller size asked).mapError Empty.elim
  | .tauth .. => fail (.error .noAuth)
  | .tattach name afid _ aname => do
      return .rattach (← (attachFid fs caller name afid aname).mapError .error)
  | .twalk name newfid wnames => do
      return .rwalk (← (walk fs caller name newfid wnames).mapError .error)
  | .topen name mode => do
      return .ropen (← (openFid fs caller name mode).mapError .error) 0
  | .tcreate name entry perm mode => do
      return .rcreate (← (createFid fs caller name entry perm mode).mapError .error) 0
  | .tread name offset count => do
      return .rread (← read fs caller name offset count room)
  | .twrite name offset data => do
      return .rwrite (← write fs caller name offset data)
  | .tclunk name => do
      (clunkFid fs caller name).mapError .error
      return .rclunk
  | .tremove name => do
      (removeFile fs caller name).mapError .error
      return .rremove
  | .tstat name => do return .rstat (← (statFid fs caller name).mapError .error).wire
  | .twstat .. => fail (.error .notSupported)
  | .tflush _ => return .rflush
  | _ => fail (.error .badMessage)

/-- The answer to the request tagged `tag`, in `room` bytes; if it does not fit, an
`Rerror` says so. -/
def writeReply (tag : UInt16) (reply : Except Held Body) (room : ℕ) : Answer :=
  let write (body : Body) (otherwise : Answer) : Answer :=
    match (Message.mk tag body).encode room with
    | some bytes => .replied ⟨tag, body⟩ bytes.length
    | none => otherwise
  let tooLarge := write (.rerror (ascii "reply too large")) .noRoom
  match reply with
  | .ok body => write body tooLarge
  | .error .wait => .waiting
  | .error (.error e) => write (.rerror e.text) tooLarge

/-- What a reply is written as: the message itself, or an error in its place. -/
theorem writeReply_cases (tag : UInt16) (reply : Except Held Body) (room : ℕ) :
    writeReply tag reply room = .waiting ∨ writeReply tag reply room = .noRoom ∨
      ∃ body bytes, (Message.mk tag body).encode room = some bytes ∧
        writeReply tag reply room = .replied ⟨tag, body⟩ bytes.length ∧
        (reply = .ok body ∨ ∃ text, body = .rerror text) := by
  unfold writeReply
  dsimp only
  split
  · split
    · next bytes hbytes => exact .inr (.inr ⟨_, bytes, hbytes, rfl, .inl rfl⟩)
    · split
      · next bytes hbytes => exact .inr (.inr ⟨_, bytes, hbytes, rfl, .inr ⟨_, rfl⟩⟩)
      · exact .inr (.inl rfl)
  · exact .inl rfl
  · split
    · next bytes hbytes => exact .inr (.inr ⟨_, bytes, hbytes, rfl, .inr ⟨_, rfl⟩⟩)
    · split
      · next bytes hbytes => exact .inr (.inr ⟨_, bytes, hbytes, rfl, .inr ⟨_, rfl⟩⟩)
      · exact .inr (.inl rfl)

/-- Answers the T-message in `request` into `out` bytes. -/
def answerInto (caller : Caller) (request : List UInt8) (out : ℕ) :
    Serve σ Node ε Answer :=
  let room := min out msize
  match Message.decode request with
  | some message => do
      let reply ← attempt (answer fs caller message.body room)
      pure (writeReply message.tag reply room)
  | none =>
    pure (writeReply ((tagOf request).getD noTag) (.error (.error .badMessage)) room)

/-! ### Minting a connection -/

/-- The mint that `new_connection` and `mint_rooted` share, its admission taken: the
handle, the id and the badge. -/
def mintAt (caller : Caller) (newRoot : Node × Qid) (quota share : ℕ) :
    Serve σ Node NineError (ℕ × ℕ × ℕ) := do
  let memory ← tryReserve
  let reserved : Except MintError Ticket ← fun s =>
    let r := s.minted.reserve caller share s.outside.random memory
    (.ok r.1, { s with outside.random := r.2 })
  match reserved with
  | .error .tooMany => fail .tooMany
  | .error .failed => fail .noId
  | .ok ticket => do
      ask (fs.minted caller ticket.badge ticket.id newRoot.1 quota)
      let made : Except MintError (ℕ × ℕ × ℕ) ← fun s =>
        let r := s.minted.commit ticket newRoot s.outside.handle.head
        (.ok r.1, { s with minted := r.2, outside.handle := s.outside.handle.tail })
      match made with
      | .ok made => pure made
      | .error _ => do
          tell (fs.disconnected ticket.badge)
          fail .noMemory

def stepAll (caller : Caller) : List Text → Steps Node →
    Serve σ Node NineError (Steps Node)
  | [], steps => pure steps
  | name :: rest, steps => do stepAll caller rest (← step fs caller steps name)

/-- Where a path of names starts: the caller's root, which is not read if there are
none. -/
def startNode (caller : Caller) (names : List Text) :
    Serve σ Node NineError (Node × Qid) :=
  if names = [] then attached fs caller [] else root fs caller []

/-- A connection rooted at a path below the caller's own root. -/
def makeConnection (caller : Caller) (path : Text) (quota share : ℕ) :
    Serve σ Node NineError (ℕ × ℕ × ℕ) := do
  match clean path with
  | .error _ => fail .badName
  | .ok names => do
      needMemory
      let start ← startNode fs caller names
      let steps ← stepAll fs caller names ⟨start, []⟩
      mintAt fs caller steps.here quota share

/-- Charges the caller a connection, and gives it back if `make` fails. -/
def charged {α : Type} (caller : Caller) (make : ℕ → Serve σ Node NineError α) :
    Serve σ Node NineError α := do
  let holder ← query (·.chargeOf caller)
  charge holder .state false
  match ← attempt (make holder.2) with
  | .ok made => pure made
  | .error e => do
      discharge holder .state false
      fail e

def newConnection (caller : Caller) (path : Text) (quota : ℕ) :
    Serve σ Node NineError (ℕ × ℕ × ℕ) :=
  charged caller (makeConnection fs caller path quota)

/-- A connection rooted at a node that the file server chose. -/
def mintRooted (caller : Caller) (newRoot : Node × Qid) :
    Serve σ Node NineError (ℕ × ℕ × ℕ) :=
  charged caller (mintAt fs caller newRoot 0)

/-- Frees the minted connection with `badge` and everything under it. -/
def forget (badge : ℕ) : Serve σ Node ε Unit := do
  let gone ← query fun s => (s.minted.forget badge).1
  change fun s => { s with minted := (s.minted.forget badge).2 }
  connectionsGone fs gone

/-- `disconnect(id)`; whether the caller had received the id. -/
def disconnect (caller : Caller) (id : ℕ) : Serve σ Node ε Bool := do
  match ← query fun s => s.minted.disconnect caller id with
  | none => pure false
  | some (gone, minted) => do
      change fun s => { s with minted := minted }
      connectionsGone fs gone
      pure true

/-- A `ninep_common` request. -/
inductive Common
  | newConnection (root : Text) (quota : ℕ)
  | disconnect (id : ℕ)
deriving DecidableEq, Repr

/-- What answers one. -/
inductive CommonReply
  | malformed | refused | notYours | disconnected
  | connected (handle id : ℕ)
deriving DecidableEq, Repr

/-- Answers a `ninep_common` request; `fits`: whether the lend has room for the
reply. -/
def answerCommon (caller : Caller) (message : Option Common) (fits : Bool) :
    Serve σ Node ε CommonReply :=
  match message with
  | none => pure .malformed
  | some message => do
      match ← attempt (arrived caller) with
      | .error _ => pure .refused
      | .ok () =>
        match message with
        | .disconnect id => do
            if ← disconnect fs caller id then pure .disconnected else pure .notYours
        | .newConnection path quota => do
            match ← attempt (newConnection fs caller path quota) with
            | .error _ => pure .refused
            | .ok (handle, id, badge) =>
              if fits = true then pure (.connected handle id)
              else do
                forget fs badge
                pure .malformed

/-- Answers one and replies; a connection whose reply did not arrive is undone. -/
def serveCommon (caller : Caller) (message : Option Common) (fits : Bool) :
    Serve σ Node ε CommonReply := do
  change fun s => { s with minted := s.minted.answering }
  let reply ← answerCommon fs caller message fits
  let accepted ← finish
  match ← query (·.minted.mintedHere) with
  | none => pure reply
  | some badge => do
      when (accepted = false) (forget fs badge)
      pure reply

end Serve

end Redoubt.Ninep
