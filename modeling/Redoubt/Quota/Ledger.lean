import Redoubt.Library.Vectors

/-!
# The ledger of byte quotas

`libs/fileserver/src/quota.rs`: what each live root of a volume holds and keeps in
reserve.  A root is live while a connection minted at its directory is; the volume's
root, the first, always is.  What the ledger is not told it does not know: the count
of a directory's bytes is an argument, and so is whether there is memory for a call.
-/

namespace Redoubt.Quota

open Vectors

/-- A path's bytes. -/
abbrev Path := List UInt8

def slash : UInt8 := 47

/-- Whether `path` is the directory `dir` or lies under it. -/
def under (path dir : Path) : Bool :=
  dir.isEmpty || (dir.isPrefixOf path &&
      ((path.drop dir.length).isEmpty || (path.drop dir.length).head? == some slash))

def maxU64 : ℕ := 2 ^ 64 - 1

def saturatingAdd (m n : ℕ) : ℕ := min (m + n) maxU64

def checkedAdd (m n : ℕ) : Option ℕ := if m + n ≤ maxU64 then some (m + n) else none

/-- A live root: its directory's id and path, and the bytes under it less what lies
under the live roots below it. -/
structure Root where
  id : ℕ
  path : Path
  held : ℕ
deriving DecidableEq, Repr, Inhabited

/-- A connection minted at a live root. -/
structure Conn where
  badge : ℕ
  root : ℕ
  quota : ℕ
deriving DecidableEq, Repr

/-- The live roots, the volume's first, and the connections. -/
structure Ledger where
  room : ℕ
  volume : ℕ
  roots : List Root
  conns : List Conn
deriving DecidableEq, Repr

namespace Ledger

/-- The volume root alone. -/
def new (room held : UInt64) (volume : ℕ) : Ledger :=
  { room := room.toNat, volume := volume
    roots := [{ id := volume, path := [], held := held.toNat }], conns := [] }

variable (l : Ledger)

def root (i : ℕ) : Root := l.roots.getD i default

/-- A root's quota: its connections' together; the volume root's is the volume's
room. -/
def quota (i : ℕ) : ℕ :=
  if i = 0 then l.room
  else
    (l.conns.filter fun c => c.root = (l.root i).id).foldl
      (fun sum c => saturatingAdd sum c.quota) 0

/-- The longer path of two, the later one of two as long. -/
def deeper (best : Option (Root × ℕ)) (next : Root × ℕ) : Option (Root × ℕ) :=
  match best with
  | none => some next
  | some b => if b.1.path.length ≤ next.1.path.length then some next else some b

/-- The root with the longest path of those that qualify, the volume's if none does. -/
def nearest (qualifies : Path → Bool) : ℕ :=
  (((l.roots.zipIdx.filter fun r => qualifies r.1.path).foldl deeper none).map
    Prod.snd).getD 0

/-- The live root nearest at or above a directory, and strictly above it. -/
def holder (dir : Path) : ℕ := l.nearest fun p => under dir p

def above (dir : Path) : ℕ := l.nearest fun p => p != dir && under dir p

/-- One root of the pass: its charge, added to its parent's reserve. -/
def passRoot (totals : ℕ → ℕ × ℕ) (j : ℕ) : ℕ → ℕ × ℕ :=
  let charge := max (l.quota j) (saturatingAdd (l.root j).held (totals j).1)
  let totals := Function.update totals j ((totals j).1, charge)
  if j = 0 then totals
  else
    let parent := l.above (l.root j).path
    Function.update totals parent (saturatingAdd (totals parent).1 charge,
      (totals parent).2)

/-- The roots, deepest path first; the totals do not depend on how roots of one depth
are ordered (`WellFormed.pass_eq`). -/
def order : List ℕ :=
  (List.range l.roots.length).insertionSort fun i j =>
    (l.root j).path.length ≤ (l.root i).path.length

/-- Every live root's reserve and charge, in one pass. -/
def totals : ℕ → ℕ × ℕ := l.order.foldl l.passRoot fun _ => (0, 0)

def reserve (i : ℕ) : ℕ := (l.totals i).1

/-- Whether root `i` may grow by `need`. -/
def fits (i need : ℕ) (memory : Bool) : Bool :=
  memory && ((checkedAdd (l.root i).held (l.reserve i)).bind fun n =>
    checkedAdd n need).any
      fun n => n ≤ l.quota i

/-- Root `i` now holds `more` bytes more and `less` fewer. -/
def change (i more less : ℕ) : Ledger :=
  { l with
    roots := l.roots.modify i fun r =>
      { r with held := saturatingAdd r.held more - less } }

/-- The root of a connection: a minted one's, or the volume's for one that attached. -/
def rootOf (badge : ℕ) : ℕ :=
  ((l.conns.find? fun c => c.badge = badge).map Conn.root).getD l.volume

/-- One more connection, at root `id`. -/
def connect (badge id quota : ℕ) : Ledger :=
  { l with conns := l.conns ++ [{ badge := badge, root := id, quota := quota }] }

/-- A directory becomes a live root: what it holds leaves its parent. -/
def addRoot (parent left id : ℕ) (path : Path) (held : ℕ) : Ledger :=
  { l with
    roots := (l.roots.modify parent fun r => { r with held := left }) ++
      [{ id := id, path := path, held := held }] }

/-- Records the connection `badge`, minted through `granter`'s at the directory `id` at
`path` with `quota` bytes.  `count` is what a directory not yet live holds and reserves,
or nothing if counting it failed. -/
def mint (granter badge id : ℕ) (path : Path) (quota : ℕ) (count : Option (ℕ × ℕ))
    (memory : Bool) : Option Ledger :=
  if !memory then none
  else if id = l.rootOf granter then
    -- the granter's own root: the connection is that root and carves nothing
    if quota ≠ 0 then none else some (l.connect badge id quota)
  else
    match l.roots.findIdx? fun r => r.id = id with
    | some i => do
        let sum ← checkedAdd (l.quota i) quota
        let charge := max sum (saturatingAdd (l.root i).held (l.totals i).1)
        if l.fits (l.above path) (charge - (l.totals i).2) memory then
          some (l.connect badge id quota)
        else none
    | none => do
        let (held, reserve) ← count
        let parent := l.above path
        let left := (l.root parent).held - held
        let kept := l.reserve parent - reserve
        let charge := max quota (saturatingAdd held reserve)
        let room ← (checkedAdd left kept).bind fun n => checkedAdd n charge
        if room > l.quota parent then none
        else some ((l.addRoot parent left id path held).connect badge id quota)

/-- Undoes the carve of the connection `badge`.  With the last connection at a directory
its record goes, and what it held returns to the root above it. -/
def disconnect (badge : ℕ) : Ledger :=
  match l.conns.findIdx? fun c => c.badge = badge with
  | none => l
  | some c =>
    let root := (l.conns.getD c ⟨0, 0, 0⟩).root
    let l := { l with conns := swapRemove l.conns c }
    match l.roots.findIdx? fun r => r.id = root with
    | none => l
    | some i =>
      if i = 0 then l
      else if l.conns.all fun c => c.root ≠ root then
        let gone := l.root i
        let l := { l with roots := swapRemove l.roots i }
        let parent := l.holder gone.path
        { l with roots := l.roots.modify parent fun r =>
            { r with held := saturatingAdd r.held gone.held } }
      else l

end Ledger

end Redoubt.Quota
