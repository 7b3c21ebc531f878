import Redoubt.Library.Lru
import Redoubt.Verity.Tree

/-!
# Reading a verified volume

`servers/verityd/src/volume.rs` and the `read` of `servers/verityd/src/server.rs`: the
start check, each block checked from the lowest tree block held on its path down, the
two caches of checked blocks, and a request's sectors gathered from them.  The range is
a parameter that answers each call as it likes.
-/

namespace Redoubt.Verity

open Slices

/-- Bytes in a sector. -/
def sectorSize : ℕ := 512

/-- The most sectors one read asks for. -/
def maxSectors : ℕ := 64

/-- The most blocks one read-ahead reads. -/
def readaheadBlocks : ℕ := maxSectors / sectorsPerBlock

/-- What a call at the range leaves: the bytes of the buffer, and whether it
succeeded. -/
structure Answer where
  byte : ℕ → UInt8
  ok : Bool

/-- The buffer of `len` bytes after the call. -/
def Answer.bytes (a : Answer) (len : ℕ) : List UInt8 := (List.range len).map a.byte

/-- The range at `blkd`: its sectors, and its answer to each call: the calls are
numbered, and each says the sector and the bytes asked for. -/
structure Range where
  info : Option ℕ
  read : ℕ → ℕ → ℕ → Answer

/-- A read that did not check, by the block of the range it was about. -/
inductive Bad where
  | unread (block : ℕ)
  | tree (block : ℕ)
  | data (block : ℕ)
  deriving DecidableEq, Repr

/-- Why a volume is refused at start. -/
inductive Refusal where
  | noInfo | truncated | noMemory | unread | root | rootBlockUnread
  | malformed | signature
  | version (version floor : ℕ)
  deriving DecidableEq, Repr

/-- How many blocks the caches hold. -/
structure Caps where
  tree : ℕ
  data : ℕ

/-- The fewest tree and data blocks kept. -/
def treeCache : ℕ := 32

def dataCache : ℕ := 4

/-! ### Checking a block -/

/-- Slot `s` of a block as a digest; zeros for one that is not there. -/
def digestAt (block : List UInt8) (s : ℕ) : List UInt8 :=
  (slot block s).getD (List.replicate digestSize 0)

/-- What of the tree is held, and the calls made at the range so far. -/
structure Tree where
  calls : ℕ
  top : List UInt8
  cache : Lru (List UInt8)

section Check

variable (sha : Sha) (range : Range) (g : Geometry)

/-- The lowest level from `level` up whose block on `b`'s path is held, `left` below the
top. -/
def lowest (b : ℕ) : ℕ → ℕ → Lru (List UInt8) → Except Bad ℕ × Lru (List UInt8)
  | 0, level, c => (.ok level, c)
  | left + 1, level, c =>
    match g.node level b with
    | none => (.error (.data b), c)
    | some (n, _) =>
      match c.find n with
      | (some _, c) => (.ok level, c)
      | (none, c) => lowest b left (level + 1) c

/-- The blocks on `b`'s path below level `level`, from the top down: each must hash to
the slot above it, and is then kept.  The slot for the data block. -/
def descend (b : ℕ) : ℕ → List UInt8 → Tree → Except Bad (List UInt8) × Tree
  | 0, want, t => (.ok want, t)
  | level + 1, want, t =>
    match g.node level b with
    | none => (.error (.data b), t)
    | some (n, s) =>
      let answer := range.read t.calls (n * sectorsPerBlock) blockSize
      let block := answer.bytes blockSize
      let i := t.cache.oldest
      let t := { t with calls := t.calls + 1, cache := t.cache.victim.2.fill i block }
      if answer.ok = false then (.error (.unread n), t)
      else if node sha block ≠ want then (.error (.tree n), t)
      else descend b level (digestAt block s) { t with cache := t.cache.keep i n }

/-- The digest that the next block down must hash to: slot `s` of the block that was
found, if it lies below the top, else of the pinned top. -/
def heldDigest (top : List UInt8) (found : Option ℕ × Lru (List UInt8))
    (below : Bool) (s : ℕ) :
    List UInt8 :=
  match found.1 with
  | some i => if below then digestAt ((found.2.value? i).getD []) s else digestAt top s
  | none => digestAt top s

/-- Checks that data block `b` hashes to `leaf` through the tree. -/
def Tree.check (b : ℕ) (leaf : List UInt8) (t : Tree) : Except Bad Unit × Tree :=
  let top := g.levels - 1
  match lowest g b top 0 t.cache with
  | (.error bad, c) => (.error bad, { t with cache := c })
  | (.ok first, c) =>
    match g.node first b with
    | none => (.error (.data b), { t with cache := c })
    | some (n, s) =>
      let found := c.find n
      let want := heldDigest t.top found (first < top) s
      match descend sha range g b first want { t with cache := found.2 } with
      | (.error bad, t) => (.error bad, t)
      | (.ok want, t) => if leaf ≠ want then (.error (.data b), t) else (.ok (), t)

end Check

/-! ### The volume -/

/-- A volume that passed the start check: where its tree lies and what of it is held,
and the data blocks checked most recently. -/
structure Volume where
  geometry : Geometry
  tree : Tree
  data : Lru (List UInt8)

section Volume

variable (sha : Sha) (range : Range)

/-- Blocks `b + k` for each `k` of a run whose bytes were read, checked and kept. -/
def keepRun (b : ℕ) (ra : List UInt8) : List ℕ → Volume → Except Bad Unit × Volume
  | [], v => (.ok (), v)
  | k :: rest, v =>
    let bytes := slice ra (k * blockSize) blockSize
    match v.tree.check sha range v.geometry (b + k) (leaf sha bytes) with
    | (.error bad, t) => (.error bad, { v with tree := t })
    | (.ok (), t) =>
      keepRun b ra rest { v with tree := t, data := v.data.store (b + k) bytes }

/-- How many blocks from `b` on are read at once: those missing through `last`, at most
a read-ahead's and the cache's. -/
def runLength (blocks : ℕ) (c : Lru (List UInt8)) (b last : ℕ) : ℕ :=
  1 + ((List.range (min readaheadBlocks c.cap - 1)).takeWhile fun k =>
    b + (1 + k) ≤ last && b + (1 + k) < blocks && !c.holds (b + (1 + k))).length

/-- The blocks of a run from `b` on read at once, checked and kept; the last of them. -/
def Volume.readRun (b run : ℕ) (v : Volume) : Except Bad ℕ × Volume :=
  let answer := range.read v.tree.calls (b * sectorsPerBlock) (run * blockSize)
  let v := { v with tree := { v.tree with calls := v.tree.calls + 1 } }
  if answer.ok = false then (.error (.unread b), v)
  else
    match keepRun sha range b (answer.bytes (run * blockSize)) (List.range run) v with
    | (.error bad, v) => (.error bad, v)
    | (.ok (), v) => (.ok (b + run - 1), v)

/-- Makes block `b` checked and held; the last block made ready, at most `last`. -/
def Volume.load (b last : ℕ) (v : Volume) : Except Bad ℕ × Volume :=
  if b ≥ v.geometry.data then (.error (.data b), v)
  else
    match v.data.find b with
    | (some _, c) => (.ok b, { v with data := c })
    | (none, c) =>
      Volume.readRun sha range b (runLength v.geometry.data c b last)
        { v with data := c }

/-- Data block `b`, if it is held. -/
def Volume.peek (b : ℕ) (v : Volume) : Option (List UInt8) × Volume :=
  let found := v.data.find b
  (found.1.map fun i => (found.2.value? i).getD [], { v with data := found.2 })

/-! ### A request -/

/-- The sectors of a request from `s` on that lie in its block. -/
def sectorsAt (s stop : ℕ) : ℕ :=
  min stop ((s / sectorsPerBlock + 1) * sectorsPerBlock) - s

theorem sectorsAt_pos {s stop : ℕ} (hs : s < stop) : 0 < sectorsAt s stop := by
  have hnext : s < (s / sectorsPerBlock + 1) * sectorsPerBlock := by
    rw [sectorsPerBlock]
    omega
  rw [sectorsAt]
  omega

/-- The sectors of a request from `s` on that lie in blocks through `upto`, copied out;
where it got to. -/
def copyOut (s stop upto : ℕ) (out : List UInt8) (v : Volume) :
    Except Bad (ℕ × List UInt8) × Volume :=
  if _ : s < stop ∧ s / sectorsPerBlock ≤ upto then
    let off := s % sectorsPerBlock * sectorSize
    match v.peek (s / sectorsPerBlock) with
    | (none, v) => (.error (.data (s / sectorsPerBlock)), v)
    | (some block, v) =>
      copyOut (s + sectorsAt s stop) stop upto
        (out ++ slice block off (sectorsAt s stop * sectorSize)) v
  else (.ok (s, out), v)
termination_by stop - s
decreasing_by
  have hpos := sectorsAt_pos (‹s < stop ∧ s / sectorsPerBlock ≤ upto›).1
  omega

section CopyOut

variable {s stop upto : ℕ} {out : List UInt8} {v v' : Volume}

theorem copyOut_done (hdone : ¬ (s < stop ∧ s / sectorsPerBlock ≤ upto)) :
    copyOut s stop upto out v = (.ok (s, out), v) := by
  rw [copyOut, dif_neg hdone]

theorem copyOut_none (hmore : s < stop ∧ s / sectorsPerBlock ≤ upto)
    (hpeek : v.peek (s / sectorsPerBlock) = (none, v')) :
    copyOut s stop upto out v = (.error (.data (s / sectorsPerBlock)), v') := by
  rw [copyOut, dif_pos hmore]
  simp only [hpeek]

theorem copyOut_some {block : List UInt8}
    (hmore : s < stop ∧ s / sectorsPerBlock ≤ upto)
    (hpeek : v.peek (s / sectorsPerBlock) = (some block, v')) :
    copyOut s stop upto out v = copyOut (s + sectorsAt s stop) stop upto
      (out ++ slice block (s % sectorsPerBlock * sectorSize)
        (sectorsAt s stop * sectorSize)) v' := by
  rw [copyOut, dif_pos hmore]
  simp only [hpeek]

theorem copyOut_le {s' : ℕ} {out' : List UInt8}
    (hcopy : copyOut s stop upto out v = (.ok (s', out'), v')) : s ≤ s' := by
  induction s, out, v using copyOut.induct stop upto with
  | case1 s out v hmore v'' hpeek =>
    rw [copyOut_none hmore hpeek] at hcopy
    exact nomatch hcopy
  | case2 s out v hmore off block v'' hpeek ih =>
    rw [copyOut_some hmore hpeek] at hcopy
    exact (Nat.le_add_right _ _).trans (ih hcopy)
  | case3 s out v hdone =>
    rw [copyOut_done hdone] at hcopy
    simp only [Prod.mk.injEq, Except.ok.injEq] at hcopy
    exact hcopy.1.1.le

theorem copyOut_lt {s' : ℕ} {out' : List UInt8}
    (hmore : s < stop ∧ s / sectorsPerBlock ≤ upto)
    (hcopy : copyOut s stop upto out v = (.ok (s', out'), v')) : s < s' := by
  cases hpeek : v.peek (s / sectorsPerBlock) with
  | mk found v'' =>
    cases found with
    | none =>
      rw [copyOut_none hmore hpeek] at hcopy
      exact nomatch hcopy
    | some block =>
      rw [copyOut_some hmore hpeek] at hcopy
      exact (Nat.lt_add_of_pos_right (sectorsAt_pos hmore.1)).trans_le
        (copyOut_le hcopy)

end CopyOut

theorem Volume.readRun_eq {b run upto : ℕ} {v v' : Volume}
    (hrun : v.readRun sha range b run = (.ok upto, v')) : upto = b + run - 1 := by
  rw [Volume.readRun] at hrun
  split at hrun
  · exact nomatch hrun
  · split at hrun
    · exact nomatch hrun
    · exact (Except.ok.inj (Prod.mk.inj hrun).1).symm

theorem Volume.le_of_load {b last upto : ℕ} {v v' : Volume}
    (hload : v.load sha range b last = (.ok upto, v')) : b ≤ upto := by
  rw [Volume.load] at hload
  split at hload
  · exact nomatch hload
  · split at hload
    · exact (Except.ok.inj (Prod.mk.inj hload).1).le
    · rw [Volume.readRun_eq sha range hload, runLength]
      omega

theorem gather_decreases {s stop last upto s' : ℕ} {out out' : List UInt8}
    {v v' v'' : Volume}
    (hmore : s < stop)
    (hload : v.load sha range (s / sectorsPerBlock) last = (.ok upto, v'))
    (hcopy : copyOut s stop upto out v' = (.ok (s', out'), v'')) :
    stop - s' < stop - s := by
  have hlt := copyOut_lt ⟨hmore, Volume.le_of_load sha range hload⟩ hcopy
  omega

/-- A request's sectors from `s` on, each block made ready with the run after it and
copied out before the next is read. -/
def gather (s stop last : ℕ) (out : List UInt8) (v : Volume) :
    Except Bad (List UInt8) × Volume :=
  if _ : s < stop then
    match _ : v.load sha range (s / sectorsPerBlock) last with
    | (.error bad, v) => (.error bad, v)
    | (.ok upto, v) =>
      match _ : copyOut s stop upto out v with
      | (.error bad, v) => (.error bad, v)
      | (.ok (s', out), v) => gather s' stop last out v
  else (.ok out, v)
termination_by stop - s
decreasing_by exact gather_decreases sha range ‹_› ‹_› ‹_›

end Volume

/-! ### The start check -/

/-- What the volume is checked against: the root the manifest pins, with the volume's
geometry, or the key its root block is signed under and the lowest version it may
carry. -/
inductive Mode where
  | pinned (root : List UInt8) (geometry : Geometry)
  | signed (key : List UInt8) (floor : ℕ)

/-- A signed volume's root block. -/
structure RootBlock where
  geometry : Geometry
  version : ℕ
  root : List UInt8
  signature : List UInt8

/-- The first bytes of a root block, `RVOLROOT`. -/
def magic : List UInt8 := [82, 86, 79, 76, 82, 79, 79, 84]

def fromLeBytes : List UInt8 → ℕ
  | [] => 0
  | byte :: rest => byte.toNat + 256 * fromLeBytes rest

/-- The root block that some bytes hold: after the magic the block count, the version,
the root and the signature, then zeros to the end. -/
def RootBlock.parse (block : List UInt8) : Option RootBlock :=
  if block.length ≠ blockSize ∨ slice block 0 8 ≠ magic then none
  else if (block.drop 120).any (· != 0) then none
  else
    (Geometry.new (fromLeBytes (slice block 8 8))).map fun geometry =>
      { geometry := geometry, version := fromLeBytes (slice block 16 8)
        root := slice block 24 32, signature := slice block 56 64 }

/-- Where a signed volume's root block lies: the last whole block of its range. -/
def rootBlockAt (sectors : ℕ) : Option ℕ :=
  if sectors / sectorsPerBlock = 0 then none else some (sectors / sectorsPerBlock - 1)

/-- `len` zero bytes. -/
def zeroed (len : ℕ) : List UInt8 := List.replicate len 0

section Open

/- `verify`: whether a signature over a block count, a version and a root verifies under
a key.  `memory`: whether an allocation succeeds. -/
variable (sha : Sha) (verify : List UInt8 → ℕ → ℕ → List UInt8 → List UInt8 → Bool)
    (range : Range)

/-- A signed volume's geometry and root, and the sector its root block starts at. -/
def signed (key : List UInt8) (floor : ℕ) (memory : Bool) :
    Except (Refusal × ℕ) (Geometry × List UInt8 × ℕ) :=
  match range.info with
  | none => .error (.noInfo, 0)
  | some sectors =>
    match rootBlockAt sectors with
    | none => .error (.truncated, 0)
    | some n =>
      let first := n * sectorsPerBlock
      let answer := range.read 0 first blockSize
      if memory = false then .error (.noMemory, first)
      else if answer.ok = false then .error (.rootBlockUnread, first)
      else
        match RootBlock.parse (answer.bytes blockSize) with
        | none => .error (.malformed, first)
        | some rb =>
          if verify key rb.geometry.data rb.version rb.root rb.signature = false then
            .error (.signature, first)
          else if rb.version < floor then .error (.version rb.version floor, first)
          else .ok (rb.geometry, rb.root, first)

/-- The start check once the geometry and the root are known: the data and tree end by
`stop`, and the top tree block hashes to the root. -/
def Volume.check (calls : ℕ) (stop : Option ℕ) (g : Geometry) (rootHash : List UInt8)
    (caps : Caps)
    (memory : Bool) : Except Refusal Volume :=
  match stop with
  | none => .error .noInfo
  | some stop =>
    let answer := range.read calls (g.top * sectorsPerBlock) blockSize
    let top := answer.bytes blockSize
    if stop < g.totalSectors then .error .truncated
    else if memory = false then .error .noMemory
    else if answer.ok = false then .error .unread
    else if root sha g.data top ≠ rootHash then .error .root
    else
      .ok { geometry := g
            tree := { calls := calls + 1, top := top,
                      cache := Lru.empty caps.tree (zeroed blockSize) }
            data := Lru.empty caps.data (zeroed blockSize) }

/-- Checks the range at start, and gives the volume's sectors. -/
def Volume.open (mode : Mode) (caps : Caps) (memory : Bool) :
    Except Refusal Volume × ℕ :=
  match mode with
  | .pinned rootHash g =>
    (Volume.check sha range 0 range.info g rootHash caps memory,
      g.data * sectorsPerBlock)
  | .signed key floor =>
    match signed verify range key floor memory with
    | .error (why, sectors) => (.error why, sectors)
    | .ok (g, rootHash, first) =>
      (Volume.check sha range 1 (some first) g rootHash caps memory,
        g.data * sectorsPerBlock)

end Open

/-! ### The server -/

inductive ErrorCode where
  | malformed | tooMany | outOfRange | failed
  deriving DecidableEq, Repr

/-- A line for the console. -/
inductive Said where
  | refused (why : Refusal)
  | bad (bad : Bad)
  deriving DecidableEq, Repr

/-- The volume, or why it was refused, its data blocks in sectors, and the bytes of the
buffer a reply is gathered in. -/
structure Verityd where
  volume : Except Refusal Volume
  sectors : ℕ
  scratch : ℕ
  said : Option Said := none
  lastBad : Option Bad := none

/-- Checks the range and serves it.  `scratchMemory`: whether the reply's buffer can be
had. -/
def Verityd.new (sha : Sha)
    (verify : List UInt8 → ℕ → ℕ → List UInt8 → List UInt8 → Bool)
    (range : Range) (mode : Mode) (caps : Caps)
    (scratchMemory memory : Bool) : Verityd :=
  let opened :=
    if scratchMemory then Volume.open sha verify range mode caps memory
    else
      match mode with
      | .pinned _ g => (.error .noMemory, g.data * sectorsPerBlock)
      | .signed _ _ => (.error .noMemory, 0)
  { volume := opened.1, sectors := opened.2
    scratch := if scratchMemory then maxSectors * sectorSize else 0
    said := match opened.1 with | .error why => some (.refused why) | .ok _ => none }

/-- `count` sectors from `sector`, each block they touch checked. -/
def Verityd.read (sha : Sha) (range : Range) (d : Verityd)
    (sector count bufLen : ℕ) : Except ErrorCode (List UInt8) × Verityd :=
  if count = 0 then (.error .malformed, d)
  else if count > maxSectors then (.error .tooMany, d)
  else if count * sectorSize + 4 > bufLen ∨ count * sectorSize > d.scratch then
    (.error .tooMany, d)
  else if sector + count ≥ 2 ^ 64 ∨ sector + count > d.sectors then
    (.error .outOfRange, d)
  else
    match d.volume with
    | .error _ => (.error .failed, d)
    | .ok v =>
      let stop := sector + count
      match gather sha range sector stop ((stop - 1) / sectorsPerBlock) [] v with
      | (.error bad, v) =>
        let said := if d.lastBad ≠ some bad then some (.bad bad) else d.said
        (.error .failed, { d with volume := .ok v, said := said, lastBad := some bad })
      | (.ok data, v) => (.ok data, { d with volume := .ok v })

end Redoubt.Verity
