import Redoubt.Ninep.Sessions

/-!
# Fids and connections

`libs/rt/src/server/ninep.rs`: the tables of fids, what they are charged to, and the end
of a minted connection.
-/

namespace Redoubt.Ninep

open Actions Action Admission Vectors

namespace NineServer

variable {σ Node : Type} (s : NineServer σ Node)

/-- Whose fids a request names. -/
def connKey (caller : Caller) : ConnKey := ⟨caller.badge, s.minted.key caller⟩

/-- The bucket and share a caller's requests are charged to. -/
def chargeOf (caller : Caller) : AdmitKey × ℕ :=
  (s.minted.key caller, s.minted.share caller)

def conn (key : ConnKey) : Option (Fids Node) := s.conns.find? fun c => c.key = key

def fid (key : ConnKey) (fid : UInt32) : Option (Fid Node) :=
  (s.conn key).bind fun c => (c.fids.find? fun f => f.1 = fid).map Prod.snd

def changeFid (key : ConnKey) (fid : UInt32) (f : Fid Node → Fid Node) :
    NineServer σ Node :=
  { s with
    conns := modifyFirst (fun c => c.key = key)
      (fun c => { c with
        fids := modifyFirst (fun e => e.1 = fid) (fun e => (e.1, f e.2)) c.fids })
      s.conns }

/-- The share a connection's fids are charged to: its table's, once there is one. -/
def fidShare (caller : Caller) : ℕ :=
  match s.conn (s.connKey caller) with
  | some c => c.share
  | none => s.minted.share caller

/-- A fid more, in its connection's table or a new one. -/
def addFid (key : ConnKey) (share : ℕ) (fid : UInt32) (state : Fid Node) :
    NineServer σ Node :=
  { s with
    conns :=
      if (s.conn key).isSome then
        modifyFirst (fun c => c.key = key)
          (fun c => { c with fids := c.fids ++ [(fid, state)] }) s.conns
      else s.conns ++ [{ key := key, share := share, fids := [(fid, state)] }] }

/-- A fid less; a table without fids goes too. -/
def withoutFid (key : ConnKey) (rest : List (UInt32 × Fid Node)) : NineServer σ Node :=
  { s with
    conns :=
      if rest.isEmpty then ((swapTake (fun c => c.key = key) s.conns).map Prod.snd).getD
        s.conns
      else modifyFirst (fun c => c.key = key) (fun c => { c with fids := rest }) s.conns
        }

end NineServer

namespace Serve

variable {σ Node : Type} (fs : FileServer σ Node)

def fid (key : ConnKey) (fid : UInt32) : Serve σ Node NineError (Fid Node) := do
  found (← query (·.fid key fid)) .unknownFid

def fidMut (key : ConnKey) (name : UInt32) (f : Fid Node → Fid Node) :
    Serve σ Node NineError Unit := do
  let _ ← fid key name
  change (·.changeFid key name f)

/-- Memory, or the request fails. -/
def needMemory : Serve σ Node NineError Unit := do
    require ((← tryReserve) = true) .noMemory

/-- Checks that a fid can be added, and charges it: a root as a fixed cost. -/
def reserveFid (caller : Caller) (name : UInt32) (root : Bool) :
    Serve σ Node NineError Unit := do
  let key ← query (·.connKey caller)
  require (¬ (firstMintedBadge ≤ caller.badge ∧
    (← query (·.minted.get caller.badge)).isNone)) .noConnection
  require (¬ (name = noFid ∨ (← query (·.fid key name)).isSome)) .fidInUse
  require (((← query (·.conn key)).map fun c => c.fids.length).getD 0 < maxFids)
    .tooMany
  charge (key.client, ← query (·.fidShare caller)) .files root

/-- Gives the charge of a fid that was not made back. -/
def unreserve {ε : Type} (caller : Caller) (root : Bool) : Serve σ Node ε Unit := do
  let key ← query (·.connKey caller)
  discharge (key.client, ← query (·.fidShare caller)) .files root

/-- Memory for a table, unless it is there already. -/
def tableRoom {ε : Type} (known : Bool) : Serve σ Node ε Bool :=
  if known = true then pure true else tryReserve

/-- Adds a reserved fid; without memory its charge goes back. -/
def insertFid (caller : Caller) (name : UInt32) (state : Fid Node) :
    Serve σ Node NineError Unit := do
  let key ← query (·.connKey caller)
  let share ← query (·.fidShare caller)
  let table ← tableRoom (← query (·.conn key)).isSome
  let room ← tryReserve
  if table = true ∧ room = true then change (·.addFid key share name state)
  else do
    change fun s => { s with conns := s.conns.filter fun c => !c.fids.isEmpty }
    discharge (key.client, share) .files state.root
    fail .noMemory

/-- Takes a fid out of its table: the fid and the share it was charged to. -/
def removeFid (key : ConnKey) (name : UInt32) :
    Serve σ Node NineError (Fid Node × ℕ) := do
  let table ← found (← query (·.conn key)) .unknownFid
  let (taken, rest) ← found (swapTake (fun f => f.1 = name) table.fids) .unknownFid
  change (·.withoutFid key rest)
  return (taken.2, table.share)

def dropFid {ε : Type} (holder : AdmitKey × ℕ) (f : Fid Node) :
    Serve σ Node ε Unit := do
  discharge holder .files f.root
  tell (fs.clunk f.node)

def dropFids {ε : Type} (holder : AdmitKey × ℕ) : List (UInt32 × Fid Node) →
    Serve σ Node ε Unit
  | [] => pure ()
  | f :: rest => do
      dropFid fs holder f.2
      dropFids holder rest

/-- Drops the first table that `which` picks; whether there was one. -/
def dropConn {ε : Type} (which : ConnKey → Bool) : Serve σ Node ε Bool := do
  match ← query fun s => swapTake (fun c => which c.key) s.conns with
  | none => pure false
  | some (table, rest) => do
      change fun s => { s with conns := rest }
      dropFids fs (table.key.client, table.share) table.fids
      pure true

/-- Drops the tables that `which` picks, `n` of them at most. -/
def dropConns {ε : Type} (which : ConnKey → Bool) : ℕ → Serve σ Node ε Unit
  | 0 => pure ()
  | n + 1 => do
      if ← dropConn fs which then dropConns which n else pure ()

/-- A minted connection is gone: its session, its fids, its admission and the file
server's record of it. -/
def connectionGone {ε : Type} (gone : Entry (Node × Qid)) : Serve σ Node ε Unit := do
  endWhere fun key => key.badge = gone.badge
  dropConns fs (fun key => key.badge = gone.badge) (← query (·.conns.length))
  discharge gone.charged .state false
  tell (fs.disconnected gone.badge)

def connectionsGone {ε : Type} : List (Entry (Node × Qid)) → Serve σ Node ε Unit
  | [] => pure ()
  | gone :: rest => do
      connectionGone fs gone
      connectionsGone rest

end Serve

end Redoubt.Ninep
