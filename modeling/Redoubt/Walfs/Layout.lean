import Redoubt.Library.LittleEndian

/-!
# The records of a walfs volume

`libs/walfs/src/layout.rs`: blocks of 4 KiB and the fields in them, the regions
a geometry lays out, and the log's header.  The hash function is a parameter:
nothing here depends on which one it is.
-/

namespace Redoubt.Walfs

open LittleEndian List

/-- Bytes in a block. -/
def blockSize : ℕ := 4096

/-- The most blocks one transaction writes. -/
def logBlocks : ℕ := 32

/-- Bytes in a hash. -/
def hashSize : ℕ := 32

inductive Error where
  | io | corrupt | noEntry | exists | notDir | isDir | notEmpty | invalid | noSpace
  | nameTooLong | fileTooBig | noAttr | poisoned
  deriving DecidableEq, Repr

/-- One block's bytes. -/
def Block := Fin blockSize → UInt8

instance : DecidableEq Block := inferInstanceAs (DecidableEq (Fin blockSize → UInt8))

/-- A hash: 32 bytes. -/
@[ext] structure Hash where
  bytes : List UInt8
  length_eq : bytes.length = hashSize
  deriving DecidableEq

namespace Block

def zero : Block := fun _ => 0

variable (b : Block)

def get (n : ℕ) : UInt8 := if h : n < blockSize then b ⟨n, h⟩ else 0

/-- `len` bytes from `at'` on. -/
def slice (at' len : ℕ) : List UInt8 := (List.range len).map fun k => b.get (at' + k)

/-- `bytes` written at `at'`. -/
def put (at' : ℕ) (bytes : List UInt8) : Block := fun i =>
  if at' ≤ i.val ∧ i.val < at' + bytes.length then bytes.getD (i.val - at') 0 else b i

/-- The whole block's bytes. -/
def bytes : List UInt8 := b.slice 0 blockSize

@[simp] theorem length_slice (at' len : ℕ) : (b.slice at' len).length = len := by
  rw [slice, length_map, length_range]

theorem get_put (at' : ℕ) (bytes : List UInt8) (n : ℕ) (hn : n < blockSize) :
    (b.put at' bytes).get n =
      if at' ≤ n ∧ n < at' + bytes.length then bytes.getD (n - at') 0 else b.get n := by
  rw [get, dif_pos hn, put, get, dif_pos hn]

/-- What was written is read back. -/
theorem slice_put_self {at' : ℕ} {bytes : List UInt8}
    (hfits : at' + bytes.length ≤ blockSize) :
    (b.put at' bytes).slice at' bytes.length = bytes := by
  apply ext_getElem
  · rw [length_slice]
  · intro k hk hk'
    simp only [slice, getElem_map, getElem_range]
    rw [get_put b at' bytes _ (by omega), if_pos (by omega), Nat.add_sub_cancel_left,
      getD_eq_getElem]

theorem slice_put_of_disjoint {p at' len : ℕ} {bytes : List UInt8}
    (hdisjoint : at' + len ≤ p ∨ p + bytes.length ≤ at') :
    (b.put p bytes).slice at' len = b.slice at' len := by
  apply map_congr_left
  intro k hk
  rw [mem_range] at hk
  by_cases hin : at' + k < blockSize
  · rw [get_put b p bytes _ hin, if_neg (by omega)]
  · rw [get, get, dif_neg hin, dif_neg hin]

@[simp] theorem slice_zero (at' len : ℕ) :
    zero.slice at' len = List.replicate len 0 := by
  apply ext_getElem
  · rw [length_slice, length_replicate]
  · intro k hk hk'
    simp only [slice, getElem_map, getElem_replicate, get]
    split <;> rfl

end Block

/-! ### Numbers, least byte first -/

namespace Block

def u32At (b : Block) (at' : ℕ) : ℕ := leNat (b.slice at' 4)

def putU32 (b : Block) (at' v : ℕ) : Block := b.put at' (leBytes 4 v)

theorem u32At_putU32 (b : Block) {at' v : ℕ} (hfits : at' + 4 ≤ blockSize)
    (hv : v < 2 ^ 32) :
    (b.putU32 at' v).u32At at' = v := by
  have hroom : at' + (leBytes 4 v).length ≤ blockSize := by rwa [length_leBytes]
  have hself := slice_put_self b hroom
  rw [length_leBytes] at hself
  rw [u32At, putU32, hself]
  exact leNat_leBytes 4 v (by simpa using hv)

end Block

/-! ### Self-hashed blocks -/

/-- Where a self-hashed block keeps its hash. -/
def selfHashAt : ℕ := blockSize - hashSize

section Hashed

variable (sha : List UInt8 → Hash)

def hashAt (b : Block) (at' : ℕ) : Hash :=
  ⟨b.slice at' hashSize, Block.length_slice _ _ _⟩

/-- Whether a self-hashed block's hash covers its bytes. -/
def selfHashOk (b : Block) : Bool := hashAt b selfHashAt = sha (b.slice 0 selfHashAt)

/-- Set a self-hashed block's hash. -/
def sealBlock (b : Block) : Block := b.put selfHashAt (sha (b.slice 0 selfHashAt)).bytes

theorem slice_sealBlock (b : Block) {at' len : ℕ} (hbefore : at' + len ≤ selfHashAt) :
    (sealBlock sha b).slice at' len = b.slice at' len :=
  Block.slice_put_of_disjoint b (Or.inl hbefore)

theorem selfHashOk_sealBlock (b : Block) : selfHashOk sha (sealBlock sha b) = true := by
  rw [selfHashOk, decide_eq_true_eq, slice_sealBlock sha b (by rw [zero_add])]
  apply Hash.ext
  have hlength : (sha (b.slice 0 selfHashAt)).bytes.length = hashSize :=
    (sha (b.slice 0 selfHashAt)).length_eq
  have hroom : selfHashAt + (sha (b.slice 0 selfHashAt)).bytes.length ≤ blockSize := by
    rw [hlength]
    decide
  have hself := Block.slice_put_self b hroom
  rw [hlength] at hself
  exact hself

end Hashed

/-! ### Regions -/

/-- What `format` lays out; both counts are 32-bit. -/
structure Geometry where
  blockCount : ℕ
  inodeCount : ℕ
  blockCount_lt : blockCount < 2 ^ 32
  inodeCount_lt : inodeCount < 2 ^ 32

def logStart : ℕ := 1

/-- The log's length: the header, then the logged blocks. -/
def log : ℕ := 1 + logBlocks

def inodeStart : ℕ := logStart + log

def inodesPerBlock : ℕ := 32

def attrsPerBlock : ℕ := 16

/-- Slots in a hash block: its last 32 bytes hold the block's own hash. -/
def hashSlots : ℕ := blockSize / hashSize - 1

def bitsPerBlock : ℕ := blockSize * 8

/-- Where each region starts. -/
structure Layout where
  blockCount : ℕ
  inodeCount : ℕ
  attrStart : ℕ
  hashStart : ℕ
  bitmapStart : ℕ
  dataStart : ℕ
  deriving DecidableEq, Repr

def checkedAdd (a b : ℕ) : Option ℕ := if a + b < 2 ^ 32 then some (a + b) else none

def checkedSub (a b : ℕ) : Option ℕ := if b ≤ a then some (a - b) else none

def divCeil (a b : ℕ) : ℕ := (a + b - 1) / b

namespace Layout

/-- The layout of a geometry, or nothing if the inode count is not a whole number
of blocks of at least one, or the regions leave no data block. -/
def new (g : Geometry) : Option Layout :=
  if g.inodeCount = 0 ∨ g.inodeCount % inodesPerBlock ≠ 0 then none
  else do
    let attrStart ← checkedAdd inodeStart (g.inodeCount / inodesPerBlock)
    let hashStart ← checkedAdd attrStart (g.inodeCount / attrsPerBlock)
    let slots ← checkedSub g.blockCount log
    let bitmapStart ← checkedAdd hashStart (divCeil slots hashSlots)
    let dataStart ← checkedAdd bitmapStart (divCeil g.blockCount bitsPerBlock)
    if g.blockCount ≤ dataStart then none
    else some ⟨g.blockCount, g.inodeCount, attrStart, hashStart, bitmapStart, dataStart⟩

variable (l : Layout)

/-- A block a transaction may write home. -/
def isHome (b : ℕ) : Bool := inodeStart ≤ b && b < l.blockCount

def isLog (b : ℕ) : Bool := logStart ≤ b && b < logStart + log

def isHash (b : ℕ) : Bool := l.hashStart ≤ b && b < l.bitmapStart

/-- A block read through its slot in the hash region. -/
def isHashed (b : ℕ) : Bool := b < l.blockCount && !isLog b && !l.isHash b

/-- The hash block holding block `b`'s slot, and the slot's offset in it. -/
def slot (b : ℕ) : ℕ × ℕ :=
  let i := if b < logStart then b else b - log
  (l.hashStart + i / hashSlots, i % hashSlots * hashSize)

theorem blockCount_new {g : Geometry} {l : Layout} (hl : new g = some l) :
    l.blockCount < 2 ^ 32 := by
  rw [new] at hl
  split at hl
  · contradiction
  · simp only [Option.bind_eq_bind, Option.bind_eq_some_iff] at hl
    obtain ⟨_, _, _, _, _, _, _, _, _, _, hl⟩ := hl
    split at hl
    · contradiction
    · rw [Option.some.injEq] at hl
      rw [← hl]
      exact g.blockCount_lt

end Layout

/-! ### The log's header -/

def logMagic : List UInt8 := [119, 97, 108, 102, 115, 108, 111, 103]

def hdrCommit : ℕ := 8
def hdrCount : ℕ := 12
def hdrEntries : ℕ := 16
def hdrEntry : ℕ := 4 + hashSize

/-- The log's header: for each logged block its home and its hash. -/
structure Header where
  entries : List (ℕ × Hash) := []
  deriving DecidableEq

namespace Header

/-- Entry `k`: the home, then the hash. -/
def putEntry (b : Block) (k : ℕ) (entry : ℕ × Hash) : Block :=
  (b.putU32 (hdrEntries + k * hdrEntry) entry.1).put (hdrEntries + k * hdrEntry + 4)
    entry.2.bytes

def putEntries (b : Block) : ℕ → List (ℕ × Hash) → Block
  | _, [] => b
  | k, entry :: rest => putEntries (putEntry b k entry) (k + 1) rest

/-- The header block before it is sealed. -/
def fields (h : Header) : Block :=
  let b :=
    (Block.zero.put 0 logMagic).putU32 hdrCommit (if h.entries = [] then 0 else 1)
  putEntries (b.putU32 hdrCount h.entries.length) 0 h.entries

variable (sha : List UInt8 → Hash)

/-- The header block: committed if it holds entries, empty if not. -/
def encode (h : Header) : Block := sealBlock sha h.fields

/-- The entries from `k` on, each a home named once. -/
def parseEntries (b : Block) (l : Layout) : ℕ → ℕ → List (ℕ × Hash) →
    Except Error (List (ℕ × Hash))
  | 0, _, done => .ok done
  | left + 1, k, done =>
    let home := b.u32At (hdrEntries + k * hdrEntry)
    if !l.isHome home || done.any (fun entry => entry.1 = home) then .error .corrupt
    else parseEntries b l left (k + 1)
      (done ++ [(home, hashAt b (hdrEntries + k * hdrEntry + 4))])

/-- Whether a block whose hash holds has the fields of a header. -/
def wellFormed (b : Block) : Bool :=
  let commit := b.u32At hdrCommit
  let count := b.u32At hdrCount
  b.slice 0 8 = logMagic && commit ≤ 1 && (commit = 1 ↔ 0 < count) &&
    count ≤ logBlocks &&
    (b.slice (hdrEntries + count * hdrEntry)
      (selfHashAt - (hdrEntries + count * hdrEntry))).all
      (fun byte => byte = 0)

/-- Nothing for a header whose own hash fails: torn by a power cut.  One whose
hash holds but whose fields do not is corrupt. -/
def parse (b : Block) (l : Layout) : Except Error (Option Header) :=
  if !selfHashOk sha b then .ok none
  else if !wellFormed b then .error .corrupt
  else (parseEntries b l (b.u32At hdrCount) 0 []).map fun entries => some { entries }

/-! ### A header reads back as it was written -/

theorem length_hash (hash : Hash) : hash.bytes.length = hashSize := hash.length_eq

theorem slice_putEntry_of_disjoint (b : Block) {k at' len : ℕ} (entry : ℕ × Hash)
    (hdisjoint : at' + len ≤ hdrEntries + k * hdrEntry ∨
      hdrEntries + (k + 1) * hdrEntry ≤ at') :
    (putEntry b k entry).slice at' len = b.slice at' len := by
  have hnext : hdrEntries + (k + 1) * hdrEntry = hdrEntries + k * hdrEntry + 36 := by
    simp only [hdrEntry, hashSize]
    omega
  rw [putEntry, Block.slice_put_of_disjoint _ (by rw [length_hash, hashSize]; omega),
    Block.putU32, Block.slice_put_of_disjoint _ (by rw [length_leBytes]; omega)]

/-- Entries written from `k` on leave what is before them and after them. -/
theorem slice_putEntries_of_disjoint (entries : List (ℕ × Hash)) (b : Block)
    {k at' len : ℕ}
    (hdisjoint : at' + len ≤ hdrEntries + k * hdrEntry ∨
      hdrEntries + (k + entries.length) * hdrEntry ≤ at') :
    (putEntries b k entries).slice at' len = b.slice at' len := by
  induction entries generalizing b k with
  | nil => rfl
  | cons entry rest ih =>
    have hmono : hdrEntries + k * hdrEntry ≤ hdrEntries + (k + 1) * hdrEntry := by
      rw [add_mul]
      omega
    have hlast : hdrEntries + (k + 1) * hdrEntry ≤
        hdrEntries + (k + (rest.length + 1)) * hdrEntry := by
      apply Nat.add_le_add_left
      apply Nat.mul_le_mul_right
      omega
    rw [putEntries, ih, slice_putEntry_of_disjoint b entry]
    · rcases hdisjoint with hbefore | hafter
      · exact Or.inl hbefore
      · exact Or.inr (hlast.trans hafter)
    · rcases hdisjoint with hbefore | hafter
      · exact Or.inl (hbefore.trans hmono)
      · right
        have hsame : k + 1 + rest.length = k + (rest.length + 1) := by omega
        rw [hsame]
        exact hafter

/-- The block holds these entries from entry `k` on. -/
def HoldsEntries (b : Block) : ℕ → List (ℕ × Hash) → Prop
  | _, [] => True
  | k, entry :: rest =>
    b.u32At (hdrEntries + k * hdrEntry) = entry.1 ∧
      hashAt b (hdrEntries + k * hdrEntry + 4) = entry.2 ∧ HoldsEntries b (k + 1) rest

theorem HoldsEntries.congr {b other : Block} {k : ℕ} {entries : List (ℕ × Hash)}
    (hb : HoldsEntries b k entries) (hroom : k + entries.length ≤ logBlocks)
    (hsame : ∀ at' len, at' + len ≤ selfHashAt →
      other.slice at' len = b.slice at' len) :
    HoldsEntries other k entries := by
  induction entries generalizing k with
  | nil => trivial
  | cons entry rest ih =>
    rw [length_cons] at hroom
    have hin : hdrEntries + k * hdrEntry + 36 ≤ selfHashAt := by
      have hk : k ≤ 31 := by
        simp only [logBlocks] at hroom
        omega
      simp only [hdrEntries, hdrEntry, hashSize, selfHashAt, blockSize]
      omega
    refine ⟨?_, ?_, ih hb.2.2 (by omega)⟩
    · rw [Block.u32At, hsame _ _ (by omega)]
      exact hb.1
    · rw [← hb.2.1]
      apply Hash.ext
      exact hsame _ _ (by rw [hashSize]; omega)

theorem holdsEntries_putEntries (entries : List (ℕ × Hash)) (b : Block) {k : ℕ}
    (hroom : k + entries.length ≤ logBlocks)
    (hhome : ∀ entry ∈ entries, entry.1 < 2 ^ 32) :
    HoldsEntries (putEntries b k entries) k entries := by
  induction entries generalizing b k with
  | nil => trivial
  | cons entry rest ih =>
    rw [length_cons] at hroom
    have hk : k ≤ 31 := by
      simp only [logBlocks] at hroom
      omega
    have hfits : hdrEntries + k * hdrEntry + 36 ≤ blockSize := by
      simp only [hdrEntries, hdrEntry, hashSize, blockSize]
      omega
    have hnext : hdrEntries + k * hdrEntry + 36 ≤ hdrEntries + (k + 1) * hdrEntry := by
      simp only [hdrEntry, hashSize]
      omega
    have hhash := length_hash entry.2
    refine ⟨?_, ?_, ih _ (by omega) fun other hother =>
      hhome other (mem_cons_of_mem _ hother)⟩
    · rw [putEntries, Block.u32At,
        slice_putEntries_of_disjoint rest _ (Or.inl (by omega)), putEntry,
        Block.slice_put_of_disjoint _ (by omega)]
      exact Block.u32At_putU32 b (by omega) (hhome entry mem_cons_self)
    · apply Hash.ext
      change (putEntries (putEntry b k entry) (k + 1) rest).slice _ hashSize =
        entry.2.bytes
      rw [slice_putEntries_of_disjoint rest _ (Or.inl (by rw [hashSize]; omega)),
        ← hhash]
      exact Block.slice_put_self _ (by rw [hhash, hashSize]; omega)

theorem parseEntries_eq {b : Block} {l : Layout} (done : List (ℕ × Hash))
    {entries : List (ℕ × Hash)} {k : ℕ}
    (hb : HoldsEntries b k entries) (hhome : ∀ entry ∈ entries, l.isHome entry.1 = true)
    (hnodup : ((done ++ entries).map Prod.fst).Nodup) :
    parseEntries b l entries.length k done = .ok (done ++ entries) := by
  induction entries generalizing k done with
  | nil => rw [append_nil]; rfl
  | cons entry rest ih =>
    obtain ⟨haddr, hhash, hrest⟩ := hb
    have hnew : done.any (fun other => other.1 = entry.1) = false := by
      rw [any_eq_false]
      intro other hother
      rw [decide_eq_true_eq]
      intro heq
      rw [map_append, nodup_append] at hnodup
      exact hnodup.2.2 _ (mem_map_of_mem hother) _ (mem_map_of_mem mem_cons_self) heq
    rw [length_cons, parseEntries, haddr, hhash, hnew, hhome entry mem_cons_self,
      ih _ hrest fun other hother => hhome other (mem_cons_of_mem _ hother)]
    · rw [append_assoc]
      rfl
    · rw [append_assoc]
      exact hnodup

variable {sha}

/-- What a header's fields hold before its hash. -/
theorem fields_eq (h : Header) (hroom : h.entries.length ≤ logBlocks) :
    h.fields.slice 0 8 = logMagic ∧
      h.fields.u32At hdrCommit = (if h.entries = [] then 0 else 1) ∧
      h.fields.u32At hdrCount = h.entries.length ∧
      h.fields.slice (hdrEntries + h.entries.length * hdrEntry)
        (selfHashAt - (hdrEntries + h.entries.length * hdrEntry)) =
        List.replicate (selfHashAt - (hdrEntries + h.entries.length * hdrEntry)) 0 := by
  have hmagic : logMagic.length = 8 := rfl
  rw [logBlocks] at hroom
  refine ⟨?_, ?_, ?_, ?_⟩
  · rw [fields, slice_putEntries_of_disjoint _ _ (Or.inl (by rw [hdrEntries]; omega)),
      Block.putU32,
      Block.slice_put_of_disjoint _ (Or.inl (by rw [hdrCount]; omega)), Block.putU32,
      Block.slice_put_of_disjoint _ (Or.inl (by rw [hdrCommit]))]
    exact Block.slice_put_self Block.zero (by rw [hmagic]; decide)
  · rw [fields, Block.u32At,
      slice_putEntries_of_disjoint _ _ (Or.inl (by rw [hdrEntries, hdrCommit]; omega)),
      Block.putU32,
      Block.slice_put_of_disjoint _ (Or.inl (by rw [hdrCount, hdrCommit]))]
    exact Block.u32At_putU32 _ (by decide) (by split <;> decide)
  · rw [fields, Block.u32At,
      slice_putEntries_of_disjoint _ _ (Or.inl (by rw [hdrEntries, hdrCount]; omega))]
    exact Block.u32At_putU32 _ (by decide) (by omega)
  · have hfar : 16 ≤ hdrEntries + h.entries.length * hdrEntry := Nat.le_add_right _ _
    rw [fields, slice_putEntries_of_disjoint _ _ (Or.inr (by rw [zero_add])),
      Block.putU32,
      Block.slice_put_of_disjoint _ (Or.inr (by rw [length_leBytes]; exact hfar)),
      Block.putU32,
      Block.slice_put_of_disjoint _ (Or.inr (by rw [hdrCommit, length_leBytes]; omega)),
      Block.slice_put_of_disjoint _ (Or.inr (by rw [hmagic]; omega)), Block.slice_zero]

/-- A written header parses back to itself. -/
theorem parse_encode {l : Layout} (hl : l.blockCount < 2 ^ 32) (h : Header)
    (hroom : h.entries.length ≤ logBlocks)
    (hhome : ∀ entry ∈ h.entries, l.isHome entry.1 = true)
    (hnodup : (h.entries.map Prod.fst).Nodup) :
    parse sha (h.encode sha) l = .ok (some h) := by
  obtain ⟨hmagic, hcommit, hcount, htail⟩ := fields_eq h hroom
  have hsame : ∀ at' len, at' + len ≤ selfHashAt →
      (h.encode sha).slice at' len = h.fields.slice at' len :=
    fun at' len hin => slice_sealBlock sha h.fields hin
  have hcount' : (h.encode sha).u32At hdrCount = h.entries.length := by
    exact hcount
  have hcommit' : (h.encode sha).u32At hdrCommit = if h.entries = [] then 0 else 1 := by
    exact hcommit
  have hwell : wellFormed (h.encode sha) = true := by
    have hend : hdrEntries + h.entries.length * hdrEntry ≤ selfHashAt := by
      rw [logBlocks] at hroom
      simp only [hdrEntries, hdrEntry, hashSize, selfHashAt, blockSize]
      omega
    have hiff : ((if h.entries = [] then 0 else 1) = 1 ↔ 0 < h.entries.length) := by
      rw [length_pos_iff]
      split <;> simp_all
    have hle : (if h.entries = [] then 0 else 1) ≤ 1 := by split <;> decide
    simp only [wellFormed, hcount', hcommit', hsame 0 8 (by decide), hmagic,
      hsame _ _ (Nat.add_sub_of_le hend).le, htail, Bool.and_eq_true, decide_eq_true_eq]
    refine ⟨⟨⟨⟨trivial, hle⟩, hiff⟩, hroom⟩, ?_⟩
    rw [all_eq_true]
    intro byte hbyte
    rw [eq_of_mem_replicate hbyte]
    rfl
  have hholds : HoldsEntries (h.encode sha) 0 h.entries := by
    apply (holdsEntries_putEntries h.entries _ (by omega) _).congr (by omega) hsame
    intro entry hentry
    have hin := hhome entry hentry
    rw [Layout.isHome, Bool.and_eq_true, decide_eq_true_eq, decide_eq_true_eq] at hin
    omega
  rw [parse, encode, selfHashOk_sealBlock]
  change (if !true then _ else if !wellFormed (h.encode sha) then _ else
    (parseEntries (h.encode sha) l ((h.encode sha).u32At hdrCount) 0 []).map _) = _
  rw [hwell, hcount', parseEntries_eq [] hholds hhome hnodup]
  rfl

end Header

end Redoubt.Walfs
