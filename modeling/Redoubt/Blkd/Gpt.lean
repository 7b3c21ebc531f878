import Redoubt.Library.Checks
import Redoubt.Library.LittleEndian
import Redoubt.Library.Slices

/-!
# The partition table

`servers/blkd/src/gpt.rs` and `range.rs`.  Every number comes off a disk that is not
trusted; what is checked of it is that the partitions lie in the usable range, after the
table, and share no sector.
-/

namespace Redoubt.Blkd

open LittleEndian Slices Checks

abbrev Bytes := List UInt8

def sectorSize : ℕ := 512

def headerLba : ℕ := 1

def minHeaderSize : ℕ := 92

def maxPartitions : ℕ := 128

def minEntrySize : ℕ := 128

def maxEntrySize : ℕ := 512

def maxArrayBytes : ℕ := 64 * sectorSize

/-- `"EFI PART"` -/
def signature : Bytes := [0x45, 0x46, 0x49, 0x20, 0x50, 0x41, 0x52, 0x54]

inductive GptError
  | noSignature | badHeader | badArray | badPartition | noMemory
deriving DecidableEq, Repr

/-- Where the entry array is and how to read it. -/
structure ArrayLocation where
  lba : ℕ
  entries : ℕ
  entrySize : ℕ
  crc32 : ℕ
  firstUsable : ℕ
  lastUsable : ℕ
  bytes : ℕ
  sectors : ℕ
deriving DecidableEq, Repr

structure Partition where
  index : ℕ
  firstLba : ℕ
  sectors : ℕ
deriving DecidableEq, Repr

/-! ### Bytes -/

/-- A part of the bytes, if they have it. -/
def get (bytes : Bytes) (off len : ℕ) : Option Bytes :=
  if off + len ≤ bytes.length then some (slice bytes off len) else none

/-- The number of `width` bytes at `off`. -/
def numberAt (width : ℕ) (bytes : Bytes) (off : ℕ) : Except GptError ℕ :=
  match get bytes off width with
  | some field => .ok (leNat field)
  | none => .error .badHeader

def u32At : Bytes → ℕ → Except GptError ℕ := numberAt 4

def u64At : Bytes → ℕ → Except GptError ℕ := numberAt 8

def crcStep (crc : UInt32) : UInt32 := if crc &&& 1 != 0 then (crc >>> 1) ^^^ 0xedb88320
    else crc >>> 1

def crcByte (crc : UInt32) (byte : UInt8) : UInt32 :=
  (List.range 8).foldl (fun crc _ => crcStep crc) (crc ^^^ byte.toUInt32)

def crc32 (bytes : Bytes) : ℕ := (~~~ bytes.foldl crcByte 0xffffffff).toNat

/-- The same with `len` bytes at `off` taken as zero. -/
def crc32WithZeroed (bytes : Bytes) (off len : ℕ) : ℕ :=
  crc32 (bytes.mapIdx fun i byte => if off ≤ i ∧ i < off + len then 0 else byte)

/-! ### The header -/

/-- The array's place, from numbers that are in order. -/
def located (diskSectors firstUsable lastUsable lba entries entrySize crc : ℕ) :
    Except GptError ArrayLocation := do
  refuse (entries = 0 ∨ maxPartitions < entries) .badArray
  refuse (¬ (minEntrySize ≤ entrySize ∧ entrySize ≤ maxEntrySize) ∨
    entrySize % minEntrySize ≠ 0) .badArray
  refuse (2 ^ 32 ≤ entries * entrySize) .badArray
  refuse (maxArrayBytes < entries * entrySize) .badArray
  let sectors := (entries * entrySize + sectorSize - 1) / sectorSize
  refuse (lastUsable < firstUsable ∨ diskSectors ≤ lastUsable) .badHeader
  refuse (2 ^ 64 ≤ lba + sectors) .badArray
  refuse (lba ≤ headerLba ∨ diskSectors < lba + sectors ∨ firstUsable < lba + sectors)
    .badArray
  return ⟨lba, entries, entrySize, crc, firstUsable, lastUsable,
    entries * entrySize, sectors⟩

/-- The primary header, and where it says the entry array is. -/
def header (sector : Bytes) (diskSectors : ℕ) : Except GptError ArrayLocation := do
  refuse (sector.length < sectorSize) .badHeader
  let sector := sector.take sectorSize
  refuse (sector.take 8 ≠ signature) .noSignature
  let revision ← u32At sector 8
  let headerSize ← u32At sector 12
  let storedCrc ← u32At sector 16
  let myLba ← u64At sector 24
  let firstUsable ← u64At sector 40
  let lastUsable ← u64At sector 48
  let arrayLba ← u64At sector 72
  let entries ← u32At sector 80
  let entrySize ← u32At sector 84
  let arrayCrc ← u32At sector 88
  refuse (revision ≠ 0x00010000) .badHeader
  refuse (¬ (minHeaderSize ≤ headerSize ∧ headerSize ≤ sectorSize)) .badHeader
  refuse (myLba ≠ headerLba) .badHeader
  refuse (sector.length < headerSize) .badHeader
  refuse (crc32WithZeroed (sector.take headerSize) 16 4 ≠ storedCrc) .badHeader
  located diskSectors firstUsable lastUsable arrayLba entries entrySize arrayCrc

/-! ### The entries -/

def overlaps (a b : Partition) : Bool :=
  a.firstLba < b.firstLba + b.sectors && b.firstLba < a.firstLba + a.sectors

variable (loc : ArrayLocation)

/-- One entry that is in use, with those found before it. -/
def used (index : ℕ) (entry : Bytes) (found : List Partition) :
    Except GptError (List Partition) := do
  let firstLba ← u64At entry 32
  let lastLba ← u64At entry 40
  refuse (lastLba < firstLba ∨ firstLba < loc.firstUsable ∨ loc.lastUsable < lastLba)
    .badPartition
  let partition : Partition := ⟨index, firstLba, lastLba - firstLba + 1⟩
  refuse (found.any fun other => overlaps other partition) .badPartition
  return found ++ [partition]

/-- One entry; an all-zero type means it is not in use. -/
def entryAt (array : Bytes) (index : ℕ) (found : List Partition) :
    Except GptError (List Partition) :=
  match get array (index * loc.entrySize) minEntrySize with
  | none => .error .badArray
  | some entry =>
    if entry.take 16 = List.replicate 16 0 then .ok found
      else used loc index entry found

def partitions (array : Bytes) (memory : Bool) : Except GptError (List Partition) := do
  refuse (array.length < loc.bytes) .badArray
  let array := array.take loc.bytes
  refuse (crc32 array ≠ loc.crc32) .badArray
  refuse (memory = false) .noMemory
  (List.range loc.entries).foldlM (fun found index => entryAt loc array index found) []

/-! ### Ranges -/

/-- A run of sectors of the disk. -/
structure Range where
  first : ℕ
  sectors : ℕ
deriving DecidableEq, Repr

def Range.Has (r : Range) (sector : ℕ) : Prop :=
  r.first ≤ sector ∧ sector < r.first + r.sectors

def Range.new (first sectors diskSectors : ℕ) : Option Range :=
  if first + sectors < 2 ^ 64 ∧ 0 < sectors ∧ first + sectors ≤ diskSectors then
    some ⟨first, sectors⟩ else none

/-- The disk's number of a sector of the range, if the whole run from there is in it. -/
def Range.absolute (r : Range) (sector count : ℕ) : Option ℕ :=
  if 2 ^ 64 ≤ sector + count then none
  else if count = 0 ∨ r.sectors < sector + count then none
  else some (r.first + sector)

/-- A partition as a range, in its entry's slot. -/
def place (diskSectors : ℕ) (roots : List (Option Range)) (partition : Partition) :
    Except GptError (List (Option Range)) :=
  match Range.new partition.firstLba partition.sectors diskSectors with
  | none => .error .badPartition
  | some range =>
    if partition.index < roots.length then .ok (roots.set partition.index (some range))
      else .error .badArray

/-- The root ranges, one slot for each entry: the end of `read_partitions`. -/
def rootsOf (diskSectors : ℕ) (found : List Partition) (memory : Bool) :
    Except GptError (List (Option Range)) := do
  refuse (memory = false) .noMemory
  found.foldlM (place diskSectors) (List.replicate loc.entries none)

end Redoubt.Blkd
