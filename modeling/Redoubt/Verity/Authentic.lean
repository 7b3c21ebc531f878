import Redoubt.Verity.Served

/-!
# Only the signed bytes, and all of them

A volume that passed its start check serves the bytes the packer built its tree of,
whatever its range answers later, and serves all of them while the range answers with
those bytes.
-/

namespace Redoubt.Verity

open Slices List Verity.Geometry

variable {sha : Sha} {verify : List UInt8 → ℕ → ℕ → List UInt8 → List UInt8 → Bool}
    {range : Range}

/-- The root block the range answers with at the open, if it holds one. -/
def answeredRoot (range : Range) : Option RootBlock :=
  (range.info.bind rootBlockAt).bind fun n =>
    RootBlock.parse ((range.read 0 (n * sectorsPerBlock) blockSize).bytes blockSize)

/-- What the volume is checked against is what the packer built: the manifest pins it,
or the root block answered at the open, if it verifies under the key, is the
packer's. -/
def Mode.Grants (verify : List UInt8 → ℕ → ℕ → List UInt8 → List UInt8 → Bool)
    (range : Range)
    (g : Geometry) (rootHash : List UInt8) : Mode → Prop
  | .pinned root geometry => root = rootHash ∧ geometry = g
  | .signed key _ => ∀ rb, answeredRoot range = some rb →
      verify key rb.geometry.data rb.version rb.root rb.signature = true →
        rb.geometry.data = g.data ∧ rb.root = rootHash

theorem RootBlock.parse_geometry {block : List UInt8} {rb : RootBlock}
    (hparse : RootBlock.parse block = some rb) :
    new rb.geometry.data = some rb.geometry := by
  rw [RootBlock.parse, Option.ite_none_left_eq_some,
    Option.ite_none_left_eq_some] at hparse
  obtain ⟨g, hnew, rfl⟩ := Option.map_eq_some_iff.mp hparse.2.2
  obtain ⟨-, -, -, hdata, -⟩ := new_spec hnew
  rw [hdata]
  exact hnew

variable {g : Geometry} {rootHash : List UInt8}

/-- The root block that a signed volume is opened with is the packer's. -/
theorem signed_grants (hg : new g.data = some g)
    {key : List UInt8} {floor : ℕ}
    (hmode : (Mode.signed key floor).Grants verify range g rootHash)
    {memory : Bool} {opened : Geometry × List UInt8 × ℕ}
    (hsigned : signed verify range key floor memory = .ok opened) :
    opened.1 = g ∧ opened.2.1 = rootHash := by
  rw [signed] at hsigned
  split at hsigned
  · cases hsigned
  next sectors hinfo =>
    split at hsigned
    · cases hsigned
    next n hat =>
      dsimp only at hsigned
      split_ifs at hsigned with hmemory hread
      split at hsigned
      · cases hsigned
      next rb hparse =>
        split_ifs at hsigned with hverify hversion
        obtain rfl := Except.ok.inj hsigned
        rw [Bool.not_eq_false] at hverify
        have hanswered : answeredRoot range = some rb := by
          rw [answeredRoot, hinfo, Option.bind_some, hat, Option.bind_some, hparse]
        obtain ⟨hdata, hroot⟩ := hmode rb hanswered hverify
        have hnew := RootBlock.parse_geometry hparse
        rw [hdata] at hnew
        exact ⟨Option.some.inj (hnew.symm.trans hg), hroot⟩

section Check

variable {g : Geometry} {rootHash image : List UInt8}
    (hpub : Published sha range g rootHash image)
include hpub

variable {caps : Caps} {memory : Bool} {v : Volume}

/-- A volume that passes the start check holds the original top, and nothing else
yet. -/
theorem Published.valid_check {calls : ℕ} {stop : Option ℕ} (hcaps : 0 < caps.data)
    (hcheck : Volume.check sha range calls stop g rootHash caps memory = .ok v) :
    v.Valid g image := by
  cases stop with
  | none => exact nomatch hcheck
  | some stop =>
    simp only [Volume.check] at hcheck
    have hanswered := bytes_mem_answered range calls g.top
    generalize (range.read calls (g.top * sectorsPerBlock) blockSize).bytes blockSize =
      top
      at hcheck hanswered
    split_ifs at hcheck with htruncated hmemory hread hroot
    obtain rfl := Except.ok.inj hcheck
    have hlast : g.top < g.total := by
      rw [hpub.laid.total_eq]
      exact Nat.lt_succ_self _
    rw [not_not, hpub.signed.root] at hroot
    have htop := hpub.distinct.root hanswered hlast hroot
    refine ⟨rfl, ⟨Lru.valid_empty _ _, htop⟩, Lru.valid_empty _ _,
      Lru.inTime_empty _ _, ?_⟩
    exact hcaps.trans_eq length_replicate.symm

theorem Published.valid_open (hg : new g.data = some g) {mode : Mode}
    (hmode : mode.Grants verify range g rootHash) (hcaps : 0 < caps.data)
    (hopen : (Volume.open sha verify range mode caps memory).1 = .ok v) :
    v.Valid g image ∧ (Volume.open sha verify range mode caps memory).2 =
      g.data * sectorsPerBlock := by
  cases mode with
  | pinned root geometry =>
    obtain ⟨rfl, rfl⟩ := hmode
    exact ⟨hpub.valid_check hcaps hopen, rfl⟩
  | signed key floor =>
    rw [Volume.open] at hopen ⊢
    cases hsigned : Verity.signed verify range key floor memory with
    | error why =>
      simp only [hsigned] at hopen
      exact nomatch hopen
    | ok opened =>
      obtain ⟨g', rootHash', first⟩ := opened
      obtain ⟨rfl, rfl⟩ : g' = g ∧ rootHash' = rootHash :=
        signed_grants hg hmode hsigned
      simp only [hsigned] at hopen ⊢
      exact ⟨hpub.valid_check hcaps hopen, trivial⟩

/-- A volume that passed its start check is served. -/
theorem Published.serving_new (hg : new g.data = some g) {mode : Mode}
    (hmode : mode.Grants verify range g rootHash) (hcaps : 0 < caps.data)
    {scratchMemory : Bool}
    (hopen : (Verityd.new sha verify range mode caps scratchMemory memory).volume =
      .ok v) :
    (Verityd.new sha verify range mode caps scratchMemory memory).Serving g image := by
  cases scratchMemory with
  | false =>
    cases mode <;> exact nomatch hopen
  | true =>
    obtain ⟨hvalid, hsectors⟩ := hpub.valid_open hg hmode hcaps hopen
    exact ⟨⟨v, hopen, hvalid⟩, hsectors, rfl⟩

end Check

/-! ### Any run of requests -/

/-- The blocks that a cache holds under their numbers. -/
def HoldsOriginals (data tree : List UInt8) (c : Lru (List UInt8)) : Prop :=
  ∀ e ∈ c.entries, ∀ n, e.tag = some n → e.value = original data tree n

/-- An opened volume of `N` blocks serves the bytes its tree was built of, and no
others, after any requests and whatever its range answered; and all of them, while the
range answers with the original bytes. -/
theorem serves_only_and_all_signed_bytes {N : ℕ} {g : Geometry} (hg : new N = some g)
    {data blank tree rootHash : List UInt8}
    (hbuild : build sha g data blank = some (tree, rootHash))
    (hdistinct : Distinct sha range g (data ++ tree))
    {mode : Mode} (hmode : mode.Grants verify range g rootHash)
    {caps : Caps} (hcaps : treeCache ≤ caps.tree ∧ dataCache ≤ caps.data)
    {scratchMemory memory : Bool} {v : Volume}
    (hopen : (Verityd.new sha verify range mode caps scratchMemory memory).volume =
      .ok v)
    (requests : List Request) :
    let d := (Verityd.new sha verify range mode caps scratchMemory memory).run sha
      range requests
    (∃ v, d.volume = .ok v ∧ HoldsOriginals data tree v.tree.cache ∧
      HoldsOriginals data tree v.data) ∧
    (∀ sector count bufLen bytes, (d.read sha range sector count bufLen).1 = .ok bytes →
      bytes = slice data (sector * sectorSize) (count * sectorSize)) ∧
    (Honest range (data ++ tree) d.calls → ∀ sector count bufLen, 0 < count →
      count ≤ maxSectors →
      count * sectorSize + 4 ≤ bufLen → sector + count ≤ N * sectorsPerBlock →
      ∃ bytes, (d.read sha range sector count bufLen).1 = .ok bytes) := by
  intro d
  have hlaid := laid_new hg
  obtain ⟨-, -, hsectors, hN, -⟩ := new_spec hg
  obtain ⟨hdata, hfilled, -⟩ := filled_build sha hlaid hbuild
  have hlength : (data ++ tree).length = g.total * blockSize := by
    rw [length_append, hdata, hfilled.length, hlaid.total, add_mul]
  have hpub : Published sha range g rootHash (data ++ tree) :=
    ⟨hlaid, signed_build sha hlaid hbuild, hlength, hdistinct⟩
  have hnew : new g.data = some g := hN ▸ hg
  have hserving : d.Serving g (data ++ tree) :=
    (hpub.serving_new hnew hmode (lt_of_lt_of_le (by decide) hcaps.2) hopen).run
      hpub requests
  refine ⟨?_, fun sector count bufLen bytes hok => ?_, ?_⟩
  · obtain ⟨v, hvolume, hvalid⟩ := hserving.volume
    exact ⟨v, hvolume, hvalid.tree.cache, hvalid.data⟩
  · obtain ⟨hin, hbytes⟩ := (hserving.read hpub sector count bufLen).2.1 bytes hok
    rw [add_mul, ← hdata] at hin
    rw [hbytes, slice_append_left _ hin]
  · intro hhonest sector count bufLen hpos hfew hfits hin
    rw [← hN] at hin
    refine (hserving.read hpub sector count bufLen).2.2 hhonest hpos hfew hfits hin ?_
    calc
      sector + count ≤ g.data * sectorsPerBlock := hin
      _ ≤ g.total * sectorsPerBlock := Nat.mul_le_mul_right _ hlaid.data_le_total
      _ < 2 ^ 64 := hsectors

/-! ### A volume of two levels -/

/-- Digests written into a zeroed tree lie side by side. -/
theorem fillLeaves_append {g : Geometry} (hg : g.Laid)
    {blocks : List (List UInt8)} {i : ℕ}
    {front : List UInt8} (hfront : front.length = i * digestSize)
    (hi : i + blocks.length ≤ g.data) (rest : ℕ) :
    fillLeaves sha g blocks i (front ++ zeroed (blocks.length * digestSize + rest)) =
      some (front ++ ((blocks.map (leaf sha)).flatten ++ zeroed rest)) := by
  induction blocks generalizing i front with
  | nil =>
    rw [fillLeaves, length_nil, zero_mul, zero_add, map_nil, flatten_nil, nil_append]
  | cons block blocks ih =>
    rw [length_cons] at hi ⊢
    have hdigest : (leaf sha block).length = digestSize := sha.length_digest _
    have hnode : g.node 0 i = some (g.data + base g.data 0 + i / fanout, i % fanout) :=
      hg.node_eq.mpr ⟨by omega, hg.pos, rfl, rfl⟩
    have hslot : treeAt g (g.data + base g.data 0 + i / fanout) + i %
        fanout * digestSize =
        front.length := by
      rw [treeAt_eq, base, Finset.sum_range_zero, zero_mul, zero_add, hfront]
    have hput : put (front ++ zeroed ((blocks.length + 1) * digestSize + rest))
        front.length
        (leaf sha block) =
          front ++ leaf sha block ++ zeroed (blocks.length * digestSize + rest) := by
      rw [put, take_left, drop_append, drop_eq_nil_of_le (Nat.le_add_right _ _),
        nil_append,
        Nat.add_sub_cancel_left, hdigest, zeroed, drop_replicate, zeroed, Nat.succ_mul,
        Nat.add_right_comm, Nat.add_sub_cancel]
    have hfront' : (front ++ leaf sha block).length = (i + 1) * digestSize := by
      rw [length_append, hfront, hdigest, add_mul, one_mul]
    rw [fillLeaves, hnode]
    change fillLeaves sha g blocks (i + 1) (put _ _ _) = _
    rw [hslot, hput, ih hfront' (by omega), map_cons, flatten_cons, append_assoc,
      append_assoc]

/-- A range that answers with the bytes of `image`, and with zeros past them. -/
def imageRange (image : List UInt8) (sectors : ℕ) : Range where
  info := some sectors
  read _ sector _ :=
    { byte := fun j => image.getD (sector * sectorSize + j) 0, ok := true }

/-- Block `n` of some bytes followed by zeros. -/
def paddedBlock (image : List UInt8) (n : ℕ) : List UInt8 :=
  (List.range blockSize).map fun j => image.getD (n * blockSize + j) 0

section ImageRange

variable (image : List UInt8) (sectors call b : ℕ) {run k n : ℕ}

theorem getElem?_bytes_imageRange (run j : ℕ) :
    (((imageRange image sectors).read call (b * sectorsPerBlock)
      (run * blockSize)).bytes
      (run * blockSize))[j]? =
        if j < run * blockSize then some (image.getD (b * blockSize + j) 0)
        else none := by
  have hsector : b * sectorsPerBlock * sectorSize = b * blockSize := mul_assoc _ _ _
  rw [Answer.bytes, getElem?_map]
  by_cases hj : j < run * blockSize
  · rw [if_pos hj, getElem?_range hj, Option.map_some, ← hsector]
    rfl
  · rw [if_neg hj, getElem?_eq_none (by rwa [length_range, ← not_lt]), Option.map_none]

theorem blockIn_bytes_imageRange (hk : k < run) :
    blockIn (((imageRange image sectors).read call (b * sectorsPerBlock)
      (run * blockSize)).bytes
      (run * blockSize)) k = paddedBlock image (b + k) := by
  ext1 j
  rw [blockIn, getElem?_slice, getElem?_bytes_imageRange, paddedBlock, getElem?_map]
  by_cases hj : j < blockSize
  · have hin : k * blockSize + j < run * blockSize := by
      rw [blockSize] at hj ⊢
      omega
    rw [if_pos hj, if_pos hin, getElem?_range hj, Option.map_some, add_mul, add_assoc]
  · rw [if_neg hj, getElem?_eq_none (by rwa [length_range, ← not_lt]), Option.map_none]

theorem bytes_imageRange :
    ((imageRange image sectors).read call (b * sectorsPerBlock) blockSize).bytes
      blockSize =
      paddedBlock image b := by
  have hblock := blockIn_bytes_imageRange image sectors call b Nat.one_pos
  rwa [blockIn, one_mul, zero_mul, slice, drop_zero,
    take_of_length_le (length_bytes _ _).le]
    at hblock

variable {image}

theorem paddedBlock_append_left (rest : List UInt8)
    (hn : (n + 1) * blockSize ≤ image.length) :
    paddedBlock (image ++ rest) n = blockIn image n := by
  ext1 j
  rw [paddedBlock, getElem?_map, blockIn, getElem?_slice]
  by_cases hj : j < blockSize
  · have hin : n * blockSize + j < image.length := by
      rw [Nat.succ_mul] at hn
      omega
    rw [if_pos hj, getElem?_range hj, Option.map_some, getD_eq_getElem?_getD,
      getElem?_append_left hin, getElem?_eq_getElem hin, Option.getD_some]
  · rw [if_neg hj, getElem?_eq_none (by rwa [length_range, ← not_lt]), Option.map_none]

theorem paddedBlock_append_right {front : List UInt8} {m : ℕ}
    (hfront : front.length = m * blockSize)
    (rest : List UInt8) (k : ℕ) :
    paddedBlock (front ++ rest) (m + k) = paddedBlock rest k := by
  refine map_congr_left fun j _ => ?_
  rw [add_mul, add_assoc, ← hfront, getD_append_right _ _ _ _ (Nat.le_add_right _ _),
    Nat.add_sub_cancel_left]

theorem paddedBlock_past (hn : image.length ≤ n * blockSize) :
    paddedBlock image n = zeroed blockSize := by
  rw [paddedBlock, zeroed, map_congr_left (g := fun _ => 0), map_const', length_range]
  intro j hj
  rw [getD_eq_getElem?_getD, getElem?_eq_none (by omega), Option.getD_none]

/-- Such a range is honest about any first part of its image. -/
theorem honest_imageRange (rest : List UInt8) (calls : ℕ) :
    Honest (imageRange (image ++ rest) sectors) image calls := by
  intro call _ b run hin
  refine ⟨rfl, ?_⟩
  ext1 j
  rw [getElem?_bytes_imageRange, getElem?_slice]
  by_cases hj : j < run * blockSize
  · have hbyte : b * blockSize + j < image.length := by
      rw [add_mul] at hin
      omega
    rw [if_pos hj, if_pos hj, getD_eq_getElem?_getD, getElem?_append_left hbyte,
      getElem?_eq_getElem hbyte, Option.getD_some]
  · rw [if_neg hj, if_neg hj]

end ImageRange

/-- A signed volume opens once its root block is accepted and its top block hashes to
the root. -/
theorem new_of_signed {key : List UInt8} {floor first : ℕ} {g : Geometry}
    {rootHash : List UInt8}
    {caps : Caps}
    (hsigned : signed verify range key floor true = .ok (g, rootHash, first))
    (hroom : g.totalSectors ≤ first)
    (hok : (range.read 1 (g.top * sectorsPerBlock) blockSize).ok = true)
    (hroot : root sha g.data
      ((range.read 1 (g.top * sectorsPerBlock) blockSize).bytes blockSize) = rootHash) :
    ∃ v, (Verityd.new sha verify range (.signed key floor) caps true true).volume =
      .ok v := by
  rw [Verityd.new, if_pos rfl, Volume.open]
  simp only [hsigned]
  rw [Volume.check, if_neg hroom.not_gt, if_neg (by decide),
    if_neg (by rw [hok]; decide),
    if_neg (not_not.mpr hroot)]
  exact ⟨_, rfl⟩

/-- A hash that keeps every ninth byte of the first 288. -/
def sampling : Sha where
  digest m := (List.range digestSize).map fun i => m.getD (9 * i) 0
  length_digest m := by rw [length_map, length_range]

namespace TwoLevels

/-- The geometry of 129 blocks, one more than a tree block has slots for. -/
def geometry : Geometry :=
  { data := 129, start := [129, 131], count := [2, 1], total := 132 }

def sevens : List UInt8 := replicate blockSize 7

def eights : List UInt8 := replicate blockSize 8

/-- The data: the last block lies under the second tree block. -/
def blocks : List (List UInt8) := replicate 128 sevens ++ [eights]

def data : List UInt8 := blocks.flatten

def tree : List UInt8 :=
  let leaves := replicate 128 (leaf sampling sevens) ++ [leaf sampling eights]
  fillLevel sampling geometry (leaves.flatten ++ zeroed (255 * digestSize)) 1

def packedRoot : List UInt8 := root sampling 129 (blockIn tree 2)

def signature : List UInt8 := replicate 64 5

/-- Version 3 of the volume, signed. -/
def rootBlock : List UInt8 :=
  magic ++ toLeBytes 129 ++ toLeBytes 3 ++ packedRoot ++ signature ++ zeroed 3976

/-- The range: the root block follows the data and the tree. -/
def disk : Range := imageRange (data ++ (tree ++ rootBlock)) 1064

/-- The key signed that root block's fields, and nothing else. -/
def verifyOnce (key : List UInt8) (count version : ℕ)
    (hash signed : List UInt8) : Bool :=
  key = [1] ∧ count = 129 ∧ version = 3 ∧ hash = packedRoot ∧ signed = signature

theorem geometry_new : new 129 = some geometry := by decide

theorem mem_blocks {x : List UInt8} (hx : x ∈ blocks) : x = sevens ∨ x = eights := by
  rw [blocks, mem_append, mem_singleton] at hx
  exact hx.imp_left eq_of_mem_replicate

theorem length_blocks : blocks.length = 129 := by
  rw [blocks, length_append, length_replicate, length_singleton]

theorem length_of_mem_blocks : ∀ x ∈ blocks, x.length = blockSize := by
  intro x hx
  rcases mem_blocks hx with rfl | rfl
  · exact length_replicate
  · exact length_replicate

theorem length_data : data.length = 129 * blockSize := by
  rw [data, length_flatten, map_congr_left length_of_mem_blocks, map_const',
    sum_replicate,
    length_blocks, smul_eq_mul]

theorem build_data : build sampling geometry data (zeroed (3 * blockSize)) =
    some (tree, packedRoot) := by
  have hsizes : ¬ (data.length ≠ geometry.data * blockSize ∨
      (zeroed (3 * blockSize)).length ≠ geometry.treeBlocks * blockSize) := by
    rw [not_or, not_not, not_not]
    exact ⟨length_data, length_replicate⟩
  have hchunks : chunks data = blocks := by
    have hcount : data.length / blockSize = blocks.length := by
      rw [length_data, length_blocks]
      rfl
    refine ext_getElem (by rw [chunks, length_map, length_range, hcount]) fun i _ hi =>
      ?_
    simp only [chunks, getElem_map, getElem_range]
    exact slice_flatten length_of_mem_blocks hi
  have hfill := @fillLeaves_append sampling _ (laid_new geometry_new) blocks 0 [] rfl
    (by rw [length_blocks]; exact le_rfl) (255 * digestSize)
  rw [length_blocks, ← add_mul, nil_append, nil_append, blocks, map_append,
    map_replicate,
    ← blocks] at hfill
  have hblank : (zeroed (3 * blockSize)).length = (129 + 255) * digestSize :=
    length_replicate
  have hlevels : range' 1 (geometry.levels - 1) = [1] := rfl
  have htop : treeAt geometry geometry.top = 2 * blockSize := rfl
  rw [build, if_neg hsizes, hchunks, hblank, ← zeroed, hfill, Option.bind_eq_bind,
    Option.bind_some, hlevels, foldl_cons, foldl_nil, htop, packedRoot, blockIn, tree]
  rfl

theorem length_tree : tree.length = 3 * blockSize :=
  (filled_build sampling (laid_new geometry_new) build_data).2.1.length

/-- Every block that the volume holds or its range answers with. -/
def held : List (List UInt8) :=
  [sevens, eights, blockIn tree 0, blockIn tree 1, blockIn tree 2, rootBlock,
    zeroed blockSize]

theorem nodup_digests : ((held.flatMap fun x =>
    [leafInput x, nodeInput x, rootInput 129 x]).map sampling.digest).Nodup := by
  decide +kernel

theorem paddedBlock_data {n : ℕ} (hn : n < 129) :
    paddedBlock (data ++ (tree ++ rootBlock)) n =
      blocks.get ⟨n, by rwa [length_blocks]⟩ := by
  have hin : (n + 1) * blockSize ≤ data.length := by
    rw [length_data]
    exact Nat.mul_le_mul_right _ hn
  rw [paddedBlock_append_left _ hin]
  exact slice_flatten length_of_mem_blocks _

theorem paddedBlock_tree {k : ℕ} (hk : k < 3) :
    paddedBlock (data ++ (tree ++ rootBlock)) (129 + k) = blockIn tree k := by
  rw [paddedBlock_append_right length_data, paddedBlock_append_left]
  rw [length_tree]
  exact Nat.mul_le_mul_right _ hk

theorem paddedBlock_after (k : ℕ) :
    paddedBlock (data ++ (tree ++ rootBlock))
      (129 + (3 + k)) = paddedBlock rootBlock k := by
  rw [paddedBlock_append_right length_data, paddedBlock_append_right length_tree]

theorem length_rootBlock : rootBlock.length = blockSize := by decide +kernel

theorem paddedBlock_rootBlock : paddedBlock rootBlock 0 = rootBlock := by
  have hpadded := @paddedBlock_append_left rootBlock 0 []
    (by rw [length_rootBlock, zero_add, one_mul])
  rw [append_nil] at hpadded
  rw [hpadded, blockIn, zero_mul, slice, drop_zero,
    take_of_length_le length_rootBlock.le]

theorem paddedBlock_mem (n : ℕ) :
    paddedBlock (data ++ (tree ++ rootBlock)) n ∈ held := by
  rcases lt_or_ge n 129 with hdata | hdata
  · rw [paddedBlock_data hdata, held]
    rcases mem_blocks (get_mem blocks _) with heq | heq
    · rw [heq]
      exact mem_cons_self
    · rw [heq]
      exact mem_cons_of_mem _ mem_cons_self
  obtain ⟨k, rfl⟩ := Nat.exists_eq_add_of_le hdata
  rcases lt_or_ge k 3 with htree | htree
  · rw [paddedBlock_tree htree, held]
    interval_cases k <;> simp only [mem_cons, true_or, or_true]
  obtain ⟨k, rfl⟩ := Nat.exists_eq_add_of_le htree
  rw [paddedBlock_after, held]
  cases k with
  | zero =>
    rw [paddedBlock_rootBlock]
    simp only [mem_cons, true_or, or_true]
  | succ k =>
    rw [paddedBlock_past]
    · simp only [mem_cons, true_or, or_true]
    · rw [length_rootBlock, Nat.succ_mul]
      exact Nat.le_add_left _ _

theorem distinct_disk : Distinct sampling disk geometry (data ++ tree) := by
  have hheld : ∀ x ∈ answered disk ∪ originals geometry (data ++ tree), x ∈ held := by
    rintro x (⟨call, b, run, k, hk, rfl⟩ | ⟨n, hn, rfl⟩)
    · rw [disk, blockIn_bytes_imageRange _ _ _ _ hk]
      exact paddedBlock_mem _
    · have hin : (n + 1) * blockSize ≤ (data ++ tree).length := by
        rw [length_append, length_data, length_tree, ← add_mul]
        exact Nat.mul_le_mul_right _ hn
      have hmem := paddedBlock_mem n
      rwa [← append_assoc, paddedBlock_append_left _ hin] at hmem
  have hinputs :
      ∀ m ∈ inputs geometry.data (answered disk ∪ originals geometry (data ++ tree)),
      m ∈ held.flatMap fun x => [leafInput x, nodeInput x, rootInput 129 x] := by
    rintro m ⟨x, hx, hm⟩
    refine mem_flatMap.mpr ⟨x, hheld x hx, ?_⟩
    rw [mem_cons, mem_cons, mem_singleton]
    exact hm
  intro m hm m' hm' heq
  exact inj_on_of_nodup_map nodup_digests (hinputs m hm) (hinputs m' hm') heq

theorem parse_rootBlock : RootBlock.parse rootBlock = some
    { geometry := geometry, version := 3, root := packedRoot,
      signature := signature } := by
  have hcount : fromLeBytes (slice rootBlock 8 8) = 129 := by decide +kernel
  have hversion : fromLeBytes (slice rootBlock 16 8) = 3 := by decide +kernel
  have hroot : slice rootBlock 24 32 = packedRoot := by
    have hlength : packedRoot.length = 32 := sampling.length_digest _
    rw [rootBlock, append_assoc, append_assoc]
    refine (slice_append_right _ _ 0 32).trans ?_
    rw [slice_append_left _ (by rw [hlength]), slice, drop_zero,
      take_of_length_le hlength.le]
  have hsignature : slice rootBlock 56 64 = signature := by decide +kernel
  rw [RootBlock.parse, if_neg (by decide +kernel), if_neg (by decide +kernel), hcount,
    geometry_new, hversion, hroot, hsignature]
  rfl

/-- The caches as small as they may be. -/
def caps : Caps := { tree := treeCache, data := dataCache }

def server : Verityd :=
  Verityd.new sampling verifyOnce disk (.signed [1] 3) caps true true

theorem answeredRoot_disk : answeredRoot disk = some
    { geometry := geometry, version := 3, root := packedRoot,
      signature := signature } := by
  have hbytes := bytes_imageRange (data ++ (tree ++ rootBlock)) 1064 0 (129 + (3 + 0))
  rw [paddedBlock_after, paddedBlock_rootBlock] at hbytes
  have hat : disk.info.bind rootBlockAt = some 132 := rfl
  rw [answeredRoot, hat, Option.bind_some, ← parse_rootBlock]
  exact congrArg RootBlock.parse hbytes

theorem grants_disk :
    (Mode.signed [1] 3).Grants verifyOnce disk geometry packedRoot := by
  intro rb hanswered _
  rw [answeredRoot_disk] at hanswered
  obtain rfl := Option.some.inj hanswered
  exact ⟨rfl, rfl⟩

theorem signed_disk :
    signed verifyOnce disk [1] 3 true = .ok (geometry, packedRoot, 1056) := by
  have hverify : verifyOnce [1] 129 3 packedRoot signature = true := by
    rw [verifyOnce, decide_eq_true_iff]
    exact ⟨rfl, rfl, rfl, rfl, rfl⟩
  have hinfo : disk.info = some 1064 := rfl
  have hat : rootBlockAt 1064 = some 132 := rfl
  have hparse := answeredRoot_disk
  rw [answeredRoot, hinfo, Option.bind_some, hat, Option.bind_some] at hparse
  rw [signed, hinfo]
  dsimp only
  rw [hat]
  dsimp only
  rw [hparse, if_neg (by decide), if_neg (by decide)]
  dsimp only
  rw [if_neg (by rw [show geometry.data = 129 from rfl, hverify]; decide),
    if_neg (lt_irrefl 3)]
  rfl

theorem server_opens : ∃ v, server.volume = .ok v := by
  have htop := bytes_imageRange (data ++ (tree ++ rootBlock)) 1064 1 (129 + 2)
  rw [paddedBlock_tree (by decide), ← disk] at htop
  refine new_of_signed signed_disk (by decide) rfl ?_
  rw [show geometry.top = 129 + 2 from rfl, htop]
  rfl

theorem blocks_sevens : blocks[127]? = some sevens := by
  rw [blocks, getElem?_append_left (by rw [length_replicate]; decide),
    getElem?_replicate,
    if_pos (by decide)]

theorem blocks_eights : blocks[128]? = some eights := by
  rw [blocks, getElem?_append_right (by rw [length_replicate]), length_replicate]
  rfl

/-- Part of a block of the data. -/
theorem slice_data {n off len : ℕ} {byte : UInt8}
    (hn : blocks[n]? = some (replicate blockSize byte))
    (hfits : off + len ≤ blockSize) :
    slice data (n * blockSize + off) len = replicate len byte := by
  obtain ⟨hlt, hblock⟩ := List.getElem?_eq_some_iff.mp hn
  have hlen : len ≤ blockSize - off := by omega
  rw [← slice_slice hfits, data, slice_flatten length_of_mem_blocks hlt, hblock, slice,
    drop_replicate, take_replicate, min_eq_left hlen]

/-- After a request for the first blocks and one for the last, the sectors on both sides
of the boundary between two tree blocks' leaves are served. -/
theorem twoLevels_served :
    ((server.run sampling disk [⟨0, 64, 32772⟩, ⟨1031, 1, 516⟩]).read sampling disk
      1020 8 4100).1 =
      .ok (replicate 2048 7 ++ replicate 2048 8) := by
  obtain ⟨v, hopen⟩ := server_opens
  obtain ⟨-, hsigned, hall⟩ := serves_only_and_all_signed_bytes geometry_new build_data
    distinct_disk grants_disk ⟨le_rfl, le_rfl⟩ hopen [⟨0, 64, 32772⟩, ⟨1031, 1, 516⟩]
  have hhonest : ∀ calls, Honest disk (data ++ tree) calls := by
    intro calls
    rw [disk, ← append_assoc data tree]
    exact honest_imageRange _ _ calls
  obtain ⟨bytes, hok⟩ := hall (hhonest _) 1020 8 4100 (by decide) (by decide)
    (by decide) (by decide)
  have hbytes : slice data (1020 * sectorSize) (8 * sectorSize) =
      slice data (127 * blockSize + 2048) (2048 + 2048) := rfl
  have hnext : 127 * blockSize + 2048 + 2048 = 128 * blockSize + 0 := rfl
  rw [server, hok, hsigned _ _ _ _ hok, hbytes, slice_add, hnext,
    slice_data blocks_sevens (by decide), slice_data blocks_eights (by decide)]

end TwoLevels

end Redoubt.Verity
