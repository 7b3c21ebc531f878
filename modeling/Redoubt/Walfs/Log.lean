import Redoubt.Library.Checks
import Redoubt.Library.PowerCut
import Redoubt.Walfs.Layout

/-!
# The log of a walfs volume

`libs/walfs/src/fs.rs`: a transaction is written to the log, committed by one
header block, copied home, and the header cleared, with a sync after each step;
recovery copies a committed transaction home again.
-/

namespace Redoubt.Walfs

open PowerCut List Prog

/-- Programs over the volume's device. -/
abbrev Dev := Prog Error Block

section Model

variable (sha : List UInt8 → Hash) (l : Layout)

/-! ### Sealing a transaction -/

/-- The slots of a transaction's hashed blocks: hash block, offset and hash. -/
def slots (blocks : List (ℕ × Block)) : List (ℕ × ℕ × Hash) :=
  (blocks.filter fun e => l.isHashed e.1).map fun e =>
    ((l.slot e.1).1, (l.slot e.1).2, sha e.2.bytes)

/-- One slot written in the transaction's copy of its hash block. -/
def putSlot (hb at' : ℕ) (hash : Hash) : List (ℕ × Block) →
    Except Error (List (ℕ × Block))
  | [] => .error .invalid
  | e :: rest =>
    if e.1 = hb then .ok ((e.1, e.2.put at' hash.bytes) :: rest)
    else (putSlot hb at' hash rest).map fun rest => e :: rest

def putSlots : List (ℕ × ℕ × Hash) → List (ℕ × Block) → Except Error (List (ℕ × Block))
  | [], blocks => .ok blocks
  | (hb, at', hash) :: rest, blocks => (putSlot hb at' hash blocks).bind (putSlots rest)

def sealHashes (blocks : List (ℕ × Block)) : List (ℕ × Block) :=
  blocks.map fun e => if l.isHash e.1 then (e.1, sealBlock sha e.2) else e

/-- The transaction's blocks as they are written: the slots of the hashed ones
filled in, then the hash blocks sealed. -/
def sealed (blocks : List (ℕ × Block)) : Except Error (List (ℕ × Block)) :=
  (putSlots (slots sha l blocks) blocks).map (sealHashes sha l)

/-! ### The four steps -/

/-- The header that commits these blocks. -/
def commitHeader (blocks : List (ℕ × Block)) : Header :=
  { entries := blocks.map fun e => (e.1, sha e.2.bytes) }

def emptyHeader : Block := ({} : Header).encode sha

/-- The writes of the blocks to the log, from its block `k` on. -/
def logWrites : ℕ → List (ℕ × Block) → List (ℕ × Block)
  | _, [] => []
  | k, e :: rest => (logStart + 1 + k, e.2) :: logWrites (k + 1) rest

/-- The blocks to the log and the header that commits them, each synced. -/
def logTransaction (blocks : List (ℕ × Block)) : Dev Unit := do
  writeAll (logWrites 0 blocks)
  syncAll
  writeBlock logStart ((commitHeader sha blocks).encode sha)
  syncAll

/-- The header emptied, once what came before is durable. -/
def clearHeader : Dev Unit := do
  syncAll
  writeBlock logStart (emptyHeader sha)
  syncAll

/-- The blocks copied home and the header emptied. -/
def install (blocks : List (ℕ × Block)) : Dev Unit := do
  writeAll blocks
  clearHeader sha

/-- A transaction through the log. -/
def writeThrough (blocks : List (ℕ × Block)) : Dev Unit :=
  match sealed sha l blocks with
  | .error e => fail e
  | .ok blocks => do
      logTransaction sha blocks
      install sha blocks

/-! ### Recovery -/

/-- Every logged block from the log's block `k` on has the header's hash. -/
def checkLogged : ℕ → List (ℕ × Hash) → Dev Unit
  | _, [] => pure ()
  | k, entry :: rest => do
      let b ← readBlock (logStart + 1 + k)
      if sha b.bytes = entry.2 then checkLogged (k + 1) rest else fail .corrupt

/-- The logged blocks are checked again and copied home. -/
def copyHome : ℕ → List (ℕ × Hash) → Dev Unit
  | _, [] => pure ()
  | k, entry :: rest => do
      let b ← readBlock (logStart + 1 + k)
      if sha b.bytes = entry.2 then do
        writeBlock entry.1 b
        copyHome (k + 1) rest
      else fail .corrupt

def replay (entries : List (ℕ × Hash)) : Dev Unit := do
  checkLogged sha 0 entries
  copyHome sha 0 entries
  clearHeader sha

/-- The log at mount: a torn header is no transaction; a committed one is checked
whole, then copied home and the header emptied. -/
def recover : Dev Unit := do
  let b ← readBlock logStart
  match Header.parse sha b l with
  | .error e => fail e
  | .ok none => replay sha []
  | .ok (some h) => if h.entries = [] then pure () else replay sha h.entries

end Model

variable {sha : List UInt8 → Hash} {l : Layout}

variable {blocks out : List (ℕ × Block)}

theorem map_fst_putSlot {hb at' : ℕ} {hash : Hash}
    (hput : putSlot hb at' hash blocks = .ok out) :
    out.map Prod.fst = blocks.map Prod.fst := by
  induction blocks generalizing out with
  | nil => contradiction
  | cons e rest ih =>
    rw [putSlot] at hput
    split at hput
    · rw [← Except.ok.inj hput, map_cons, map_cons]
    · obtain ⟨tail, hrest, hout⟩ := Checks.bind_eq_ok_iff.mp hput
      rw [← Except.ok.inj hout, map_cons, map_cons, ih hrest]

theorem map_fst_putSlots {slots : List (ℕ × ℕ × Hash)}
    (hput : putSlots slots blocks = .ok out) :
    out.map Prod.fst = blocks.map Prod.fst := by
  induction slots generalizing blocks with
  | nil => rw [Except.ok.inj hput]
  | cons slot rest ih =>
    obtain ⟨next, hfirst, hrest⟩ := Checks.bind_eq_ok_iff.mp hput
    exact (ih hrest).trans (map_fst_putSlot hfirst)

/-- Sealing changes contents only: the blocks keep their homes. -/
theorem map_fst_sealed (hsealed : sealed sha l blocks = .ok out) :
    out.map Prod.fst = blocks.map Prod.fst := by
  obtain ⟨filled, hput, hout⟩ := Checks.bind_eq_ok_iff.mp hsealed
  rw [← Except.ok.inj hout, ← map_fst_putSlots hput, sealHashes, map_map]
  apply map_congr_left
  intro e _
  rw [Function.comp]
  split <;> rfl

theorem mem_logWrites {a k : ℕ} (ha : a ∈ (logWrites k blocks).map Prod.fst) :
    logStart + 1 + k ≤ a ∧ a < logStart + 1 + k + blocks.length := by
  induction blocks generalizing k with
  | nil => contradiction
  | cons e rest ih =>
    rw [logWrites, map_cons, mem_cons] at ha
    rw [length_cons]
    rcases ha with rfl | ha
    · omega
    · have := ih ha
      omega

theorem nodup_logWrites (k : ℕ) (blocks : List (ℕ × Block)) :
    ((logWrites k blocks).map Prod.fst).Nodup := by
  induction blocks generalizing k with
  | nil => exact nodup_nil
  | cons e rest ih =>
    rw [logWrites, map_cons, nodup_cons]
    refine ⟨fun hmem => ?_, ih (k + 1)⟩
    have := (mem_logWrites hmem).1
    omega

end Redoubt.Walfs
