import Redoubt.Blkd.Gpt
import Redoubt.Library.Actions
import Redoubt.Library.Memory

/-!
# The disk

`servers/blkd/src/queue.rs`, `disk.rs`, and of `transport.rs` and `virtio.rs` what they
use. Before every operation of the driver the device writes what it likes into the DMA
region, and any operation may fail.  A byte of the region is kept with the time it was
written, and beside the region what the driver itself wrote there: a command is what
that says at the doorbell.
-/

namespace Redoubt.Blkd

open Actions Action LittleEndian Memory

/-! ### The DMA region -/

def queueSize : ℕ := 4

/-- `HEAD`: the descriptor every chain starts at. -/
def head : ℕ := 0

def maxSectors : ℕ := 64

def dataLen : ℕ := maxSectors * sectorSize

def pageSize : ℕ := 4096

def requestTimeoutUs : ℕ := 10000000

def descOff : ℕ := 0

def availOff : ℕ := descOff + 16 * queueSize

def usedOff : ℕ := (availOff + (6 + 2 * queueSize) + 3) / 4 * 4

def headerOff : ℕ := (usedOff + (6 + 8 * queueSize) + 15) / 16 * 16

def statusOff : ℕ := headerOff + 16

def dataOff : ℕ := pageSize

def dmaLen : ℕ := (1 + (dataLen + pageSize - 1) / pageSize) * pageSize

structure Cell where
  byte : UInt8
  stamp : ℕ
deriving DecidableEq, Repr

/-- One buffer of a chain, by its offset in the region. -/
structure Segment where
  off : ℕ
  len : ℕ
  deviceWrites : Bool
deriving DecidableEq, Repr

/-! ### What goes wrong -/

inductive Fault
  | kernel | bounds | timeout
deriving DecidableEq, Repr

inductive Lie
  | usedIndex (want got : ℕ)
  | usedEntry (id len : ℕ)
  | status (byte : UInt8)
deriving DecidableEq, Repr

inductive DeviceError
  | fault (f : Fault)
  | queue | config | readOnly | range | rejected
  | io (lie : Lie)
  | timeout | broken
deriving DecidableEq, Repr

/-- Why an operation has no result: it failed, or it is still waiting. -/
inductive Stop (ε : Type)
  | failed (e : ε)
  | waiting
deriving DecidableEq, Repr

/-! ### The state -/

/-- A descriptor: where the buffer is in physical memory. -/
structure Descriptor where
  addr : ℕ
  len : ℕ
  deviceWrites : Bool
deriving DecidableEq, Repr

/-- virtio-blk's request types. -/
def requestIn : ℕ := 0

def requestOut : ℕ := 1

def requestFlush : ℕ := 4

/-- What a doorbell offers: the index that publishes it, the request header and the
chain of descriptors. -/
structure Command where
  index : ℕ
  kind : ℕ
  sector : ℕ
  chain : List Descriptor
deriving DecidableEq, Repr

inductive ErrorCode
  | malformed | notPermitted | outOfRange | tooMany | failed
deriving DecidableEq, Repr

inductive Reply
  | info (sectors sectorSize readOnly : ℕ)
  | read (data : Bytes)
  | write
  | flush
deriving DecidableEq, Repr

/-- What happened.  `cleared`, `armed`: when the data buffer was zeroed and the status
byte set; `copied`: the bytes taken from the buffer. -/
inductive Event
  | asked (badge : ℕ)
  | cleared (off len time : ℕ)
  | armed (time : ℕ)
  | given (c : Command)
  | completed (index id len : ℕ)
  | status (cell : Cell)
  | copied (cells : List Cell)
  | lied (lie : Lie)
  | timedOut
  | answered (reply : Except ErrorCode Reply)

/-- The device's part in one operation: what it writes before it, whether the operation
fails, and what a register or the clock reads. -/
structure Turn where
  writes : ℕ → Option UInt8
  fault : Option Fault
  value : ℕ

/-- `patience`: how often a completion is looked for before the driver counts as
waiting. -/
structure Machine where
  device : ℕ → Turn
  phys : ℕ
  dmaLen : ℕ
  patience : ℕ

structure Broke where
  error : DeviceError
  kind : ℕ
  sector : ℕ
  sectors : ℕ
  waited : Option (ℕ × Bool)
deriving DecidableEq, Repr

/-- `laid`: the bytes of the region as the driver last wrote them, the device's writes
aside. -/
structure Disk where
  dma : ℕ → Cell
  laid : ℕ → UInt8
  time : ℕ
  log : List Event
  nextAvail : ℕ
  nextUsed : ℕ
  waitedFrom : Option ℕ
  sectors : ℕ
  readOnly : Bool
  request : ℕ × ℕ × ℕ
  broke : Option Broke

abbrev Drive (α : Type) : Type := Action Disk (Stop DeviceError) α

/-! ### What the device is given -/

/-- The flags of descriptor `i` of the table: 1 if another follows, 2 if the device
writes. -/
def flagsAt (m : ℕ → UInt8) (i : ℕ) : ℕ := numberIn m (descOff + i * 16 + 12) 2

def descriptorAt (m : ℕ → UInt8) (i : ℕ) : Descriptor where
  addr := numberIn m (descOff + i * 16) 8
  len := numberIn m (descOff + i * 16 + 8) 4
  deviceWrites := flagsAt m i / 2 % 2 = 1

/-- The chain from descriptor `i` on, at most `left` of them. -/
def chainFrom (m : ℕ → UInt8) : ℕ → ℕ → List Descriptor
  | 0, _ => []
  | left + 1, i => descriptorAt m i ::
      if flagsAt m i % 2 = 1 then
        chainFrom m left (numberIn m (descOff + i * 16 + 14) 2) else []

/-- The newest entry of the available ring: the chain it names, and the request header
that the chain's first descriptor points at. -/
def commandAt (phys : ℕ) (m : ℕ → UInt8) : Command :=
  let index := numberIn m (availOff + 2) 2
  let entry := (index + 2 ^ 16 - 1) % queueSize
  let chain := chainFrom m queueSize (numberIn m (availOff + 4 + entry * 2) 2)
  let header := (chain.headD ⟨0, 0, false⟩).addr - phys
  { index := index, kind := numberIn m header 4, sector := numberIn m (header + 8) 8,
    chain := chain }

section Driver

variable {α : Type} (mach : Machine)

/-! ### The transport -/

def note (e : Event) : Drive Unit := change fun d => { d with log := d.log ++ [e] }

def raise (e : DeviceError) : Drive α := fail (.failed e)

def lie (l : Lie) : Drive α := do
  note (.lied l)
  raise (.io l)

def timeout : Drive α := do
  note .timedOut
  raise .timeout

/-- `From<Fault>` -/
def faulted : Fault → Drive α
  | .timeout => timeout
  | f => raise (.fault f)

/-- The device's turn. -/
def Disk.interfered (d : Disk) (t : Turn) : Disk :=
  { d with
    time := d.time + 1
    dma := fun o => match t.writes o with
      | some byte => ⟨byte, d.time + 1⟩
      | none => d.dma o }

/-- One operation: the device's turn, and its value if it does not fail. -/
def access : Drive ℕ := do
  let t ← query fun d => mach.device d.time
  change fun d => d.interfered t
  match t.fault with
  | some f => faulted f
  | none => pure t.value

def nowUs : Drive ℕ := do
  let t ← query fun d => mach.device d.time
  change fun d => d.interfered t
  return t.value

def dmaWrite (off : ℕ) (bytes : Bytes) : Drive Unit := do
  let _ ← access mach
  require (off + bytes.length ≤ mach.dmaLen) (.failed (.fault .bounds))
  change fun d => { d with
    dma := fun o =>
      if off ≤ o ∧ o < off + bytes.length then ⟨bytes.getD (o - off) 0, d.time⟩
        else d.dma o
    laid := lay d.laid off bytes }

def dmaRead (off len : ℕ) : Drive (List Cell) := do
  let _ ← access mach
  require (off + len ≤ mach.dmaLen) (.failed (.fault .bounds))
  query fun d => (List.range len).map fun k => d.dma (off + k)

def dmaReadNumber (off width : ℕ) : Drive ℕ := do
  let cells ← dmaRead mach off width
  return leNat (cells.map Cell.byte)

def ackInterrupt : Drive Unit := do
  let bits ← access mach
  when (bits ≠ 0) do
    let _ ← access mach

/-! ### The queue -/

def layDescriptor (i count : ℕ) (s : Segment) : Drive Unit := do
  require (s.off + s.len ≤ mach.dmaLen ∧ s.len ≠ 0) (.failed .queue)
  require (mach.phys + s.off < 2 ^ 64) (.failed .queue)
  dmaWrite mach (descOff + i * 16) (leBytes 8 (mach.phys + s.off))
  dmaWrite mach (descOff + i * 16 + 8) (leBytes 4 s.len)
  dmaWrite mach (descOff + i * 16 + 12)
    (leBytes 2
      ((if i + 1 = count then 0 else 1) + if s.deviceWrites = true then 2 else 0))
  dmaWrite mach (descOff + i * 16 + 14) (leBytes 2 (if i + 1 = count then 0 else i + 1))

def layChain (count : ℕ) : ℕ → List Segment → Drive Unit
  | _, [] => pure ()
  | i, s :: rest => do
      layDescriptor mach i count s
      layChain count (i + 1) rest

def submit (chain : List Segment) : Drive Unit := do
  require (chain ≠ [] ∧ chain.length ≤ queueSize) (.failed .queue)
  layChain mach chain.length 0 chain
  dmaWrite mach availOff (leBytes 2 0)
  let slot ← query fun d => d.nextAvail % queueSize
  dmaWrite mach (availOff + 4 + slot * 2) (leBytes 2 head)
  change fun d => { d with nextAvail := (d.nextAvail + 1) % 2 ^ 16 }
  let index ← query Disk.nextAvail
  dmaWrite mach (availOff + 2) (leBytes 2 index)
  let _ ← access mach
  let laid ← query Disk.laid
  note (.given (commandAt mach.phys laid))

/-- The wait of `complete`: until the used ring moves. -/
def await (deadline : ℕ) : ℕ → Drive Unit
  | 0 => fail .waiting
  | looks + 1 => do
      let index ← dmaReadNumber mach (usedOff + 2) 2
      let seen ← query Disk.nextUsed
      if index ≠ seen then ackInterrupt mach
      else do
        let now ← nowUs mach
        if deadline ≤ now then timeout
        else do
          let _ ← access mach
          ackInterrupt mach
          await deadline looks

def complete (writable : ℕ) : Drive Unit := do
  let start ← nowUs mach
  change fun d => { d with waitedFrom := some start }
  await mach (min (start + requestTimeoutUs) (2 ^ 64 - 1)) mach.patience
  let index ← dmaReadNumber mach (usedOff + 2) 2
  let seen ← query Disk.nextUsed
  if index ≠ (seen + 1) % 2 ^ 16 then lie (.usedIndex ((seen + 1) % 2 ^ 16) index)
  else do
    let id ← dmaReadNumber mach (usedOff + 4 + seen % queueSize * 8) 4
    let len ← dmaReadNumber mach (usedOff + 4 + seen % queueSize * 8 + 4) 4
    if id ≠ head ∨ writable < len then lie (.usedEntry id len)
    else do
      note (.completed index id len)
      change fun d => { d with nextUsed := index, waitedFrom := none }

/-! ### Requests -/

/-- Marks the device broken, once. -/
def breakOn (e : DeviceError) : Drive α := do
  let start ← query fun d => d.waitedFrom.filter fun _ => e = .timeout
  let waited ← measure start
  change fun d => if d.broke.isSome = true then d else
    { d with broke := some ⟨e, d.request.1, d.request.2.1, d.request.2.2, waited⟩ }
  raise e
where
  /-- How long the wait was, and whether the ring has moved since. -/
  measure : Option ℕ → Drive (Option (ℕ × Bool))
    | none => pure none
    | some start => do
        let now ← nowUs mach
        let index ← attempt (dmaReadNumber mach (usedOff + 2) 2)
        let seen ← query Disk.nextUsed
        return some (now - start, match index with
          | .ok index => decide (index ≠ seen)
          | .error _ => false)

/-- A failure of the transport breaks the device. -/
def orBreak (x : Drive α) : Drive α := do
  match ← attempt x with
  | .ok a => pure a
  | .error (.failed e) => breakOn mach e
  | .error .waiting => fail .waiting

def usable : Drive Unit := do
  let broke ← query Disk.broke
  require (broke = none) (.failed .broken)

def writable (chain : List Segment) : ℕ :=
  ((chain.filter Segment.deviceWrites).map Segment.len).sum

/-- `run`: header, chain, doorbell, completion, status byte. -/
def runRequest (kind sector : ℕ) (chain : List Segment) : Drive Unit := do
  dmaWrite mach headerOff (leBytes 4 kind)
  dmaWrite mach (headerOff + 4) (leBytes 4 0)
  dmaWrite mach (headerOff + 8) (leBytes 8 sector)
  dmaWrite mach statusOff [0xff]
  let time ← query Disk.time
  note (.armed time)
  submit mach chain
  complete mach (writable chain)
  let cells ← dmaRead mach statusOff 1
  let cell := cells.headD ⟨0xff, 0⟩
  note (.status cell)
  if cell.byte = 0 then pure ()
  else if cell.byte = 1 ∨ cell.byte = 2 then raise .rejected
  else lie (.status cell.byte)

/-- Whether a device that failed a request so still speaks the protocol. -/
def DeviceError.allowed : DeviceError → Bool
  | .rejected | .readOnly | .range => true
  | _ => false

def transaction (kind sector : ℕ) (chain : List Segment) : Drive Unit := do
  usable
  match ← attempt (runRequest mach kind sector chain) with
  | .ok () => pure ()
  | .error (.failed e) => if e.allowed = true then raise e else breakOn mach e
  | .error .waiting => fail .waiting

def checkSpan (sector len : ℕ) : Drive Unit := do
  require (¬ (len = 0 ∨ dataLen < len ∨ len % sectorSize ≠ 0)) (.failed .range)
  let sectors ← query Disk.sectors
  require (sector + len / sectorSize < 2 ^ 64 ∧ sector + len / sectorSize ≤ sectors)
    (.failed .range)

/-- The data buffer zeroed, a sector at a time. -/
def clearData : ℕ → ℕ → Drive Unit
  | _, 0 => pure ()
  | done, n + 1 => do
      orBreak mach (dmaWrite mach (dataOff + done) (List.replicate sectorSize 0))
      let time ← query Disk.time
      note (.cleared (dataOff + done) sectorSize time)
      clearData (done + sectorSize) n

def chainOf (data : Option (ℕ × Bool)) : List Segment :=
  [⟨headerOff, 16, false⟩] ++
    (data.map fun (len, deviceWrites) => ⟨dataOff, len, deviceWrites⟩).toList ++
    [⟨statusOff, 1, true⟩]

def setRequest (kind sector sectors : ℕ) : Drive Unit :=
  change fun d => { d with request := (kind, sector, sectors) }

/-- `Disk::read`: the bytes of `len / 512` sectors. -/
def diskRead (sector len : ℕ) : Drive Bytes := do
  usable
  checkSpan sector len
  setRequest requestIn sector (len / sectorSize)
  clearData mach 0 (len / sectorSize)
  transaction mach requestIn sector (chainOf (some (len, true)))
  let cells ← orBreak mach (dmaRead mach dataOff len)
  note (.copied cells)
  return cells.map Cell.byte

def diskWrite (sector : ℕ) (data : Bytes) : Drive Unit := do
  usable
  let readOnly ← query Disk.readOnly
  require (readOnly = false) (.failed .readOnly)
  checkSpan sector data.length
  setRequest requestOut sector (data.length / sectorSize)
  orBreak mach (dmaWrite mach dataOff data)
  transaction mach requestOut sector (chainOf (some (data.length, false)))

def diskFlush : Drive Unit := do
  usable
  let readOnly ← query Disk.readOnly
  if readOnly = true then pure ()
  else do
    setRequest requestFlush 0 0
    transaction mach requestFlush 0 (chainOf none)

end Driver

end Redoubt.Blkd
