import Redoubt.Ninep.State

/-!
# The end of a session

`libs/rt/src/server/ninep_mux.rs`, `end` and `release`: a session's requests go, what
they held with them, and its parked completion call is answered.
-/

namespace Redoubt.Ninep

open Actions Action Admission Vectors

namespace Serve

variable {σ Node ε : Type}

/-- One more event of the sessions' history. -/
def record (e : MuxEvent) : Serve σ Node ε Unit :=
  change fun s => { s with mux.history := s.mux.history ++ [e] }

def setPending (pending : List Pending) : Serve σ Node ε Unit :=
  change fun s => { s with mux.pending := pending }

def releasePages (holder : AdmitKey × ℕ) : ℕ → Serve σ Node ε Unit
  | 0 => pure ()
  | n + 1 => do
      discharge holder .pages false
      releasePages holder n

/-- Gives back what a request held that is no longer among the pending ones: its pages
go with the last to hold them, but not while `inHand`, the transfer being taken, is
theirs. -/
def release (holder : AdmitKey × ℕ) (inHand : Option ℕ) (request : Pending) :
    Serve σ Node ε Unit := do
  discharge holder .requests false
  match request.message.transfer with
  | none => pure ()
  | some (transfer, npages) => do
      let held ← query fun s =>
        s.mux.pending.any fun p => (p.message.transfer.map Prod.fst) = some transfer
      if held = true ∨ inHand = some transfer then pure ()
        else releasePages holder npages

/-- Releases the requests of `key` among `rest`; `kept` are those before. -/
def endRequests (key : ConnKey) (holder : AdmitKey × ℕ) (inHand : Option ℕ) :
    List Pending → List Pending → Serve σ Node ε Unit
  | _, [] => pure ()
  | kept, p :: rest =>
    if p.key = key then do
      setPending (kept ++ rest)
      release holder inHand p
      endRequests key holder inHand kept rest
    else endRequests key holder inHand (kept ++ [p]) rest

/-- A parked call is answered that its session has ended, whether that is delivered or
not. -/
def endCall : Option Parked → Serve σ Node ε Unit
  | none => pure ()
  | some _ => do
      let _ ← finish
      pure ()

/-- Drops a session that is no longer among the sessions: its requests, its call, and
the parked call, which is answered. -/
def finishSession (inHand : Option ℕ) (session : Session) : Serve σ Node ε Unit := do
  let pending ← query (·.mux.pending)
  endRequests session.key session.charge inHand [] pending
  discharge session.charge .inFlight false
  endCall session.call
  record (.ended session.key)

def endSession (inHand : Option ℕ) (i : ℕ) : Serve σ Node ε Unit := do
  match ← query fun s => s.mux.sessions[i]? with
  | none => pure ()
  | some session => do
      change fun s => { s with mux.sessions := swapRemove s.mux.sessions i }
      finishSession inHand session

/-- Ends the sessions that `which` picks, `n` of them at most. -/
def endSessions (which : ConnKey → Bool) : ℕ → Serve σ Node ε Unit
  | 0 => pure ()
  | n + 1 => do
      match ← query fun s => s.mux.sessions.findIdx? fun session =>
        which session.key with
      | none => pure ()
      | some i => do
          endSession none i
          endSessions which n

def endWhere (which : ConnKey → Bool) : Serve σ Node ε Unit := do
  let n ← query (·.mux.sessions.length)
  endSessions which n

end Serve

end Redoubt.Ninep
