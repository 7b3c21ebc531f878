import Redoubt.Admission.State
import Redoubt.Library.Vectors

/-!
# Minted connections

`libs/rt/src/server/minted.rs`: the table of capabilities a server mints for its
clients, in the order they were minted.
-/

namespace Redoubt.Ninep

open Admission Vectors

/-- How wide the draw for a table's first badge is. -/
def badgeSpan : ℕ := 2 ^ 62

def firstBadge (random : ℕ) : ℕ := firstMintedBadge + random % badgeSpan

inductive MintError
  | tooMany | failed
deriving DecidableEq, Repr

/-- Who a capability was minted for. -/
structure Requester where
  badge : ℕ
  client : AdmitKey
deriving DecidableEq, Repr

def Requester.of (caller : Caller) : Requester := ⟨caller.badge, AdmitKey.of caller⟩

/-- One minted capability: `charged` is the bucket and share that hold its admission,
`settled` whether a request has been made on it, `parent` the badge it was minted
through. -/
structure Entry (T : Type) where
  badge : ℕ
  id : ℕ
  requester : Requester
  charged : AdmitKey × ℕ
  settled : Bool
  parent : ℕ
  value : T

/-- A badge and an id drawn, no handle yet. -/
structure Ticket where
  badge : ℕ
  id : ℕ
  requester : Requester
  charged : AdmitKey × ℕ

/-- The table.  `mintedHere` is the badge made while answering this request. -/
structure Minted (T : Type) where
  entries : List (Entry T)
  nextBadge : ℕ
  mintedHere : Option ℕ

namespace Minted

variable {T : Type}

def new (random : ℕ) : Minted T :=
  { entries := [], nextBadge := firstBadge random, mintedHere := none }

variable (m : Minted T)

def answering : Minted T := { m with mintedHere := none }

def find (badge : ℕ) : Option (Entry T) := m.entries.find? fun e => e.badge = badge

def get (badge : ℕ) : Option T := (m.find badge).map Entry.value

/-- Up from a badge through the entries that `up` picks, `n` steps at most. -/
def climb (up : Entry T → Bool) : ℕ → ℕ → ℕ
  | 0, badge => badge
  | n + 1, badge =>
    match m.find badge with
    | some e => if up e then climb up n e.parent else badge
    | none => badge

/-- The share a caller's requests count in: its badge's, or the one it minted it through
for itself. -/
def share (caller : Caller) : ℕ :=
  m.climb (fun e => e.requester.client = AdmitKey.of caller)
    (m.entries.length + 1) caller.badge

/-- The root badge a badge was minted through. -/
def root (badge : ℕ) : ℕ := m.climb (fun _ => true) (m.entries.length + 1) badge

/-- The bucket a caller's requests are charged to. -/
def key (caller : Caller) : AdmitKey :=
  if caller.account = 0 then (AdmitKey.of caller).rooted (m.root caller.badge)
    else AdmitKey.of caller

/-- A drawn id no live capability has, within `n` draws; and the draws left. -/
def freshId : ℕ → Stream' (Option ℕ) → Option ℕ × Stream' (Option ℕ)
  | 0, draws => (none, draws)
  | n + 1, draws =>
    match draws.head with
    | none => (none, draws.tail)
    | some id =>
      if id ≠ 0 ∧ ¬ m.entries.any fun e => e.id = id then (some id, draws.tail)
      else freshId n draws.tail

/-- Draws a badge and an id for a capability minted through `caller`'s. -/
def reserve (caller : Caller) (share : ℕ) (draws : Stream' (Option ℕ)) (memory : Bool) :
    Except MintError Ticket × Stream' (Option ℕ) :=
  if m.nextBadge < firstMintedBadge then (.error .tooMany, draws)
  else
    match m.freshId 4 draws with
    | (none, draws) => (.error .failed, draws)
    | (some id, draws) =>
      if memory then
        (.ok { badge := m.nextBadge, id := id, requester := Requester.of caller
               charged := (m.key caller, share) }, draws)
      else (.error .failed, draws)

/-- Mints the handle and records it with `value`; the badge is spent either way. -/
def commit (ticket : Ticket) (value : T) (handle : Option ℕ) :
    Except MintError (ℕ × ℕ × ℕ) × Minted T :=
  let m := { m with nextBadge := (ticket.badge + 1) % 2 ^ 64 }
  match handle with
  | none => (.error .failed, m)
  | some handle =>
    (.ok (handle, ticket.id, ticket.badge),
      { m with
        mintedHere := some ticket.badge
        entries := m.entries ++ [{
          badge := ticket.badge, id := ticket.id, requester := ticket.requester
          charged := ticket.charged, settled := false, parent := ticket.requester.badge
          value := value }] })

/-- The charge of a capability no request has been made on yet. -/
def pending (badge : ℕ) : Option (AdmitKey × ℕ) :=
  (m.entries.find? fun e => e.badge = badge ∧ ¬ e.settled).map Entry.charged

/-- The capability settles on `charged`. -/
def settle (badge : ℕ) (charged : AdmitKey × ℕ) : Minted T :=
  { m with
    entries := modifyFirst (fun e => e.badge = badge)
      (fun e => { e with charged := charged, settled := true }) m.entries }

/-- Frees each whose parent was minted here and is gone; `kept` are those before. -/
def sweep (gone kept : List (Entry T)) : List (Entry T) →
    List (Entry T) × List (Entry T)
  | [] => (gone, kept)
  | e :: rest =>
    if firstMintedBadge ≤ e.parent ∧ ¬ kept.any fun k => k.badge = e.parent then
      sweep (gone ++ [e]) kept rest
    else sweep gone (kept ++ [e]) rest

/-- Frees the `i`th capability and everything under it: those gone, in order, and the
table. -/
def forgetFrom (i : ℕ) : List (Entry T) × Minted T :=
  let swept := sweep (m.entries[i]?).toList (m.entries.take i) (m.entries.drop (i + 1))
  (swept.1, { m with entries := swept.2 })

/-- `disconnect(id)`: nothing if the caller did not receive the id. -/
def disconnect (caller : Caller) (id : ℕ) : Option (List (Entry T) × Minted T) :=
  (m.entries.findIdx? fun e => e.id = id ∧ e.requester = Requester.of caller).map
    m.forgetFrom

/-- Frees the capability with `badge` and everything under it. -/
def forget (badge : ℕ) : List (Entry T) × Minted T :=
  match m.entries.findIdx? fun e => e.badge = badge with
  | some i => m.forgetFrom i
  | none => ([], m)

end Minted

end Redoubt.Ninep
