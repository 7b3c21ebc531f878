import Redoubt.Library.Slices

/-!
# The hash tree of a verified volume

`libs/verity/src/lib.rs`: where a volume of N data blocks keeps its tree, and the tree
the packer builds.  Level 0 holds a digest for each data block, each level above one for
each block of the level below, and the root covers the block count and the top block.
The hash is a parameter: nothing here depends on which one it is.
-/

namespace Redoubt.Verity

open Slices Finset

/-- Bytes in a block of the volume and of its tree. -/
def blockSize : ℕ := 4096

/-- Bytes in a digest. -/
def digestSize : ℕ := 32

/-- Digests in a tree block. -/
def fanout : ℕ := 128

def sectorsPerBlock : ℕ := 8

/-- The most levels a tree has. -/
def maxLevels : ℕ := 10

/-- The hash function. -/
structure Sha where
  digest : List UInt8 → List UInt8
  length_digest : ∀ m, (digest m).length = digestSize

/-- A `u64`, least byte first. -/
def toLeBytes (v : ℕ) : List UInt8 :=
  (List.range 8).map fun k => UInt8.ofNat (v / 256 ^ k)

/-! ### Digests -/

section Digests

variable (sha : Sha)

variable (block : List UInt8)

/-- What is hashed for a data block, a tree block and the root. -/
def leafInput : List UInt8 := 0x00 :: block

def nodeInput : List UInt8 := 0x01 :: block

def rootInput (data : ℕ) (top : List UInt8) : List UInt8 :=
  0x02 :: (toLeBytes data ++ top)

/-- A data block's digest, as level 0 holds it. -/
def leaf : List UInt8 := sha.digest (leafInput block)

/-- A tree block's digest, as the level above holds it. -/
def node : List UInt8 := sha.digest (nodeInput block)

/-- The root of a volume of `data` blocks whose top tree block is `top`. -/
def root (data : ℕ) (top : List UInt8) : List UInt8 := sha.digest (rootInput data top)

/-- Slot `s` of a tree block, or nothing past its end. -/
def slot (s : ℕ) : Option (List UInt8) :=
  if s * digestSize + digestSize ≤ block.length then
    some (slice block (s * digestSize) digestSize)
  else none

end Digests

/-! ### Where the tree lies -/

/-- Each level's first block, counted from the start of the range, and its length in
blocks. -/
structure Geometry where
  data : ℕ
  start : List ℕ
  count : List ℕ
  total : ℕ
  deriving DecidableEq, Repr

/-- The tree blocks over `below` blocks. -/
def divCeil (below : ℕ) : ℕ := (below + fanout - 1) / fanout

/-- The levels from block `first` on, over `below` blocks, and where they end; nothing
if there are more than `spare` or they do not count in a `u64`. -/
def layers : ℕ → ℕ → ℕ → Option (List (ℕ × ℕ) × ℕ)
  | 0, _, _ => none
  | spare + 1, first, below =>
    let count := divCeil below
    if first + count ≥ 2 ^ 64 then none
    else if count = 1 then some ([(first, count)], first + count)
    else (layers spare (first + count) count).map fun rest =>
      ((first, count) :: rest.1, rest.2)

namespace Geometry

/-- The tree of `data` blocks, or nothing for no blocks, or a volume whose blocks and
tree together do not count in `u64` sectors. -/
def new (data : ℕ) : Option Geometry :=
  if data = 0 then none
  else do
    let (levels, total) ← layers maxLevels data data
    if total * sectorsPerBlock ≥ 2 ^ 64 then none
    else some { data := data, start := levels.map Prod.fst,
                count := levels.map Prod.snd, total := total }

variable (g : Geometry)

def treeBlocks : ℕ := g.total - g.data

def totalSectors : ℕ := g.total * sectorsPerBlock

def levels : ℕ := g.start.length

/-- The top block, which the root covers. -/
def top : ℕ := g.start.getD (g.levels - 1) 0

/-- The tree block at `level` over data block `block`, and the slot in it of the digest
of what lies below on the block's path. -/
def node (level block : ℕ) : Option (ℕ × ℕ) :=
  if block ≥ g.data ∨ level ≥ g.levels then none
  else
    let below := (· / fanout)^[level] block
    some (g.start.getD level 0 + below / fanout, below % fanout)

end Geometry

/-! ### The tree the packer writes -/

section Build

variable (sha : Sha) (g : Geometry)

/-- The whole blocks of some bytes. -/
def chunks (data : List UInt8) : List (List UInt8) :=
  (List.range (data.length / blockSize)).map fun i =>
    slice data (i * blockSize) blockSize

/-- A tree block's offset in the tree, from its block number in the range. -/
def treeAt (block : ℕ) : ℕ := (block - g.data) * blockSize

/-- The data blocks' digests, from block `i` on. -/
def fillLeaves : List (List UInt8) → ℕ → List UInt8 → Option (List UInt8)
  | [], _, tree => some tree
  | block :: rest, i, tree =>
    match g.node 0 i with
    | none => none
    | some (n, s) =>
      fillLeaves rest (i + 1) (put tree (treeAt g n + s * digestSize) (leaf sha block))

/-- The digest of block `j` of the level below. -/
def fillDigest (level : ℕ) (tree : List UInt8) (j : ℕ) : List UInt8 :=
  let child := treeAt g (g.start.getD (level - 1) 0 + j)
  let hash := node sha (slice tree child blockSize)
  put tree (treeAt g (g.start.getD level 0 + j / fanout) + j % fanout * digestSize) hash

/-- A level's digests, of every block of the level below. -/
def fillLevel (tree : List UInt8) (level : ℕ) : List UInt8 :=
  (List.range (g.count.getD (level - 1) 0)).foldl (fillDigest sha g level) tree

/-- The tree of `data` written over `tree`, and the root; nothing if the sizes are not
the geometry's. -/
def build (data tree : List UInt8) : Option (List UInt8 × List UInt8) :=
  if data.length ≠ g.data * blockSize ∨ tree.length ≠ g.treeBlocks * blockSize then none
  else do
    let tree ← fillLeaves sha g (chunks data) 0 (List.replicate tree.length 0)
    let tree := (List.range' 1 (g.levels - 1)).foldl (fillLevel sha g) tree
    some (tree, root sha g.data (slice tree (treeAt g g.top) blockSize))

end Build

end Redoubt.Verity
