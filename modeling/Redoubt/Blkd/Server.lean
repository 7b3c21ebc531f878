import Redoubt.Blkd.Disk
import Redoubt.Ninep.Files

/-!
# The server

`servers/blkd/src/server.rs` and `read_partitions` of `lib.rs`: the table is read once,
and then every request is for the range its caller's badge names.
-/

namespace Redoubt.Blkd

open Actions Action

structure Caller where
  badge : ℕ
  labels : List ℕ
deriving DecidableEq, Repr

inductive Request
  | info
  | read (sector count : ℕ)
  | write (sector : ℕ) (data : Bytes)
  | flush
deriving DecidableEq, Repr

/-- A call: who makes it, what it asks, and how long its lend is. -/
structure Call where
  caller : Caller
  request : Request
  bufLen : ℕ
deriving DecidableEq, Repr

abbrev Serve (α : Type) : Type := Action Disk (Stop ErrorCode) α

def refuseWith {α : Type} (e : ErrorCode) : Serve α := fail (.failed e)

def deviceError : DeviceError → ErrorCode
  | .range => .outOfRange
  | .readOnly => .notPermitted
  | _ => .failed

def Stop.map {ε ε' : Type} (f : ε → ε') : Stop ε → Stop ε'
  | .failed e => .failed (f e)
  | .waiting => .waiting

section Serving

variable (mach : Machine) (roots : List (Option Range)) (labels : List (List ℕ))

def onDisk {α : Type} (x : Drive α) : Serve α := mapError (Stop.map deviceError) x

/-- The range the caller's badge names, and its labels. -/
def resolve (badge : ℕ) : Option (Range × List ℕ) :=
  match badge with
  | 0 => none
  | i + 1 => (roots.getD i none).map fun range => (range, labels.getD i [])

def serveRead (range : Range) (sector count bufLen : ℕ) : Serve Reply := do
  require (count ≠ 0) (.failed .malformed)
  require (count ≤ maxSectors) (.failed .tooMany)
  require (count * sectorSize + 4 ≤ bufLen) (.failed .tooMany)
  match range.absolute sector count with
  | none => refuseWith .outOfRange
  | some lba => do
      let data ← onDisk (diskRead mach lba (count * sectorSize))
      return .read data

def serveWrite (range : Range) (sector : ℕ) (data : Bytes) : Serve Reply := do
  require (¬ (data.length = 0 ∨ data.length % sectorSize ≠ 0)) (.failed .malformed)
  require (data.length / sectorSize ≤ maxSectors) (.failed .tooMany)
  match range.absolute sector (data.length / sectorSize) with
  | none => refuseWith .outOfRange
  | some lba => do
      onDisk (diskWrite mach lba data)
      return .write

def Request.access : Request → Ninep.Access
  | .info | .read _ _ => .read
  | .write _ _ | .flush => .write

def handle (range : Range) (bufLen : ℕ) : Request → Serve Reply
  | .info =>
  query fun d => .info range.sectors sectorSize (if d.readOnly = true then 1 else 0)
  | .read sector count => serveRead mach range sector count bufLen
  | .write sector data => serveWrite mach range sector data
  | .flush => do
      onDisk (diskFlush mach)
      return .flush

def dispatch (call : Call) : Serve Reply :=
  match resolve roots labels call.caller.badge with
  | none => refuseWith .notPermitted
  | some (range, set) =>
    if Ninep.check call.caller.labels set call.request.access = true then
      handle mach range call.bufLen call.request
    else refuseWith .notPermitted

/-- One call, asked and answered; a server that waits goes no further. -/
def serve (call : Call) : Action Disk Unit Unit := do
  change fun d => { d with log := d.log ++ [.asked call.caller.badge] }
  match ← attempt (dispatch mach roots labels call) with
  | .ok reply => change fun d => { d with log := d.log ++ [.answered (.ok reply)] }
  | .error (.failed e) =>
    change fun d => { d with log := d.log ++ [.answered (.error e)] }
  | .error .waiting => fail ()

def serveAll : List Call → Action Disk Unit Unit
  | [] => pure ()
  | call :: calls => do
      serve mach roots labels call
      serveAll calls

end Serving

/-! ### The start -/

inductive TableError
  | device (e : DeviceError)
  | table (e : GptError)
deriving DecidableEq, Repr

section Start

variable (mach : Machine)

def fromTable {α : Type} (x : Except GptError α) : Action Disk (Stop TableError) α :=
  match x with
  | .ok a => pure a
  | .error e => fail (.failed (.table e))

def fromDisk {α : Type} (x : Drive α) : Action Disk (Stop TableError) α :=
  mapError (Stop.map .device) x

/-- `read_partitions`; `memory`: whether its vectors could be reserved. -/
def readPartitions (memory : Bool) : Action Disk (Stop TableError)
      (List (Option Range)) := do
  let sector ← fromDisk (diskRead mach headerLba sectorSize)
  let diskSectors ← query Disk.sectors
  let loc ← fromTable (header sector diskSectors)
  let array ← fromDisk (diskRead mach loc.lba (loc.sectors * sectorSize))
  let found ← fromTable (partitions loc array memory)
  fromTable (rootsOf loc diskSectors found memory)

/-- The disk after bring-up. -/
def Disk.new (sectors : ℕ) (readOnly : Bool) : Disk :=
  { dma := fun _ => ⟨0, 0⟩, laid := fun _ => 0, time := 0, log := [], nextAvail := 0,
    nextUsed := 0, waitedFrom := none
    sectors := sectors, readOnly := readOnly, request := (0, 0, 0), broke := none }

/-- What bring-up checks of the region and of the capacity the device reports. -/
def broughtUp (sectors : ℕ) : Prop := dmaLen ≤ mach.dmaLen ∧ 0 < sectors ∧
    sectors ≤ (2 ^ 64 - 1) / sectorSize

instance (sectors : ℕ) : Decidable (broughtUp mach sectors) :=
  inferInstanceAs (Decidable (_ ∧ _))

/-- A whole session: the ranges it serves, and what happened. -/
def session (sectors : ℕ) (readOnly memory : Bool) (labels : List (List ℕ))
    (calls : List Call) :
    List (Option Range) × List Event :=
  if broughtUp mach sectors then
    match readPartitions mach memory (Disk.new sectors readOnly) with
    | (.ok roots, d) => (roots, (serveAll mach roots labels calls d).2.log)
    | (.error _, d) => ([], d.log)
  else ([], [])

end Start

end Redoubt.Blkd
