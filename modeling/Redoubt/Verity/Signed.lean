import Redoubt.Verity.Tree

/-!
# What the tree holds

Where a geometry puts each level, and that the tree the packer builds holds, in the slot
on each block's path, the digest of the block below: all that a reader of the volume
relies on.
-/

namespace Redoubt.Verity

open Slices Finset Option

/-! ### Where the levels lie -/

/-- The blocks of level `level` over `data` data blocks. -/
def width (data level : ℕ) : ℕ := divCeil^[level + 1] data

/-- The tree blocks before level `level`. -/
def base (data level : ℕ) : ℕ := ∑ k ∈ range level, width data k

theorem base_succ (data level : ℕ) :
    base data (level + 1) = base data level + width data level :=
  sum_range_succ _ _

variable {data : ℕ}

theorem base_mono {level level' : ℕ} (hle : level ≤ level') :
    base data level ≤ base data level' :=
  sum_le_sum_of_subset (range_subset_range.mpr hle)

theorem width_succ (data level : ℕ) :
    width data (level + 1) = divCeil (width data level) :=
  Function.iterate_succ_apply' _ _ _

/-- A level's blocks are the first level's over the blocks above. -/
theorem width_divCeil (data level : ℕ) :
    width (divCeil data) level = width data (level + 1) :=
  (Function.iterate_succ_apply _ _ _).symm

theorem base_divCeil (data level : ℕ) :
    divCeil data + base (divCeil data) level = base data (level + 1) := by
  rw [base, base, sum_range_succ', add_comm]
  exact congrArg (· + divCeil data) (sum_congr rfl fun k _ => width_divCeil data k)

theorem layers_spec {spare first below stop : ℕ} {levels : List (ℕ × ℕ)}
    (hlayers : layers spare first below = some (levels, stop)) :
    (∀ l, l < levels.length → levels[l]? = some (first + base below l, width below l)) ∧
      0 < levels.length ∧ stop = first + base below levels.length ∧
      width below (levels.length - 1) = 1 := by
  induction spare generalizing first below levels stop with
  | zero => exact nomatch hlayers
  | succ spare ih =>
    rw [layers] at hlayers
    by_cases hlarge : first + divCeil below ≥ 2 ^ 64
    · rw [if_pos hlarge] at hlayers
      exact nomatch hlayers
    rw [if_neg hlarge] at hlayers
    by_cases hone : divCeil below = 1
    · rw [if_pos hone] at hlayers
      obtain ⟨rfl, rfl⟩ := Prod.mk.inj (some.inj hlayers)
      refine ⟨fun l hl => ?_, Nat.one_pos, ?_, hone⟩
      · rw [Nat.lt_one_iff.mp hl]
        rfl
      · rw [List.length_singleton, base]
        rfl
    · rw [if_neg hone] at hlayers
      obtain ⟨⟨rest, stop'⟩, hrest, heq⟩ := map_eq_some_iff.mp hlayers
      obtain ⟨rfl, rfl⟩ := Prod.mk.inj heq
      obtain ⟨hlevels, hpos, hstop, htop⟩ := ih hrest
      refine ⟨fun l hl => ?_, Nat.succ_pos _, ?_, ?_⟩
      · cases l with
        | zero => rfl
        | succ l =>
          rw [List.getElem?_cons_succ, hlevels l (Nat.lt_of_succ_lt_succ hl), add_assoc,
            base_divCeil, width_divCeil]
      · rw [hstop, List.length_cons, add_assoc, base_divCeil]
      · rw [List.length_cons, Nat.add_sub_cancel, ← htop, width_divCeil,
          Nat.sub_add_cancel hpos]

/-- What a geometry says of its levels. -/
structure Geometry.Laid (g : Geometry) : Prop where
  pos : 0 < g.levels
  start : ∀ l, l < g.levels → g.start.getD l 0 = g.data + base g.data l
  count : ∀ l, l < g.levels → g.count.getD l 0 = width g.data l
  topWidth : width g.data (g.levels - 1) = 1
  total : g.total = g.data + base g.data g.levels

variable {g : Geometry}

theorem Geometry.new_spec (hnew : Geometry.new data = some g) :
    ∃ levels, layers maxLevels data data = some (levels, g.total) ∧
      g.total * sectorsPerBlock < 2 ^ 64 ∧ g.data = data ∧
      g.start = levels.map Prod.fst ∧ g.count = levels.map Prod.snd := by
  rw [Geometry.new, ite_none_left_eq_some] at hnew
  obtain ⟨⟨levels, total⟩, hlayers, hnew⟩ := bind_eq_some_iff.mp hnew.2
  rw [ite_none_left_eq_some, not_le] at hnew
  obtain ⟨hsectors, hnew⟩ := hnew
  obtain rfl := some.inj hnew
  exact ⟨levels, hlayers, hsectors, rfl, rfl, rfl⟩

theorem Geometry.laid_new (hnew : Geometry.new data = some g) : g.Laid := by
  obtain ⟨levels, hlayers, -, rfl, hstart, hcount⟩ := Geometry.new_spec hnew
  obtain ⟨hlevels, hpos, hstop, htop⟩ := layers_spec hlayers
  have hlength : g.levels = levels.length := by
    rw [Geometry.levels, hstart, List.length_map]
  refine ⟨by rwa [hlength], fun l hl => ?_,
    fun l hl => ?_, by rwa [hlength], by rwa [hlength]⟩
  · rw [hstart, List.getD_eq_getElem?_getD, List.getElem?_map, hlevels l (hlength ▸ hl)]
    rfl
  · rw [hcount, List.getD_eq_getElem?_getD, List.getElem?_map, hlevels l (hlength ▸ hl)]
    rfl

section Laid

variable {g : Geometry} (hg : g.Laid) {level block : ℕ}
include hg

theorem Geometry.Laid.top_eq : g.top = g.data + base g.data (g.levels - 1) :=
  hg.start _ (Nat.sub_lt hg.pos Nat.one_pos)

theorem Geometry.Laid.total_eq : g.total = g.top + 1 := by
  have hsucc := base_succ g.data (g.levels - 1)
  rw [Nat.sub_add_cancel hg.pos, hg.topWidth] at hsucc
  rw [hg.total, hg.top_eq, hsucc, add_assoc]

/-- The levels lie before the end. -/
theorem Geometry.Laid.base_add_width_le (hlevel : level < g.levels) :
    g.data + base g.data level + width g.data level ≤ g.total := by
  rw [hg.total, add_assoc, ← base_succ]
  exact Nat.add_le_add_left (base_mono hlevel) _

end Laid

/-- What lies below level `level` on a data block's path, counted in its level: the
block itself, or the block of the level below. -/
def pathBelow (level block : ℕ) : ℕ := (· / fanout)^[level] block

theorem pathBelow_succ (level block : ℕ) :
    pathBelow (level + 1) block = pathBelow level block / fanout :=
  Function.iterate_succ_apply' _ _ _

theorem div_fanout_lt {i n : ℕ} (hlt : i < n) : i / fanout < divCeil n := by
  rw [divCeil, fanout]
  omega

theorem le_divCeil_mul (n : ℕ) : n ≤ divCeil n * fanout := by
  rw [divCeil, fanout]
  omega

theorem pathBelow_lt {block : ℕ} (hblock : block < data) (level : ℕ) :
    pathBelow (level + 1) block < width data level := by
  induction level with
  | zero => exact div_fanout_lt hblock
  | succ level ih =>
    rw [pathBelow_succ, width_succ]
    exact div_fanout_lt ih

theorem Geometry.Laid.node_eq (hg : g.Laid) {level block n s : ℕ} :
    g.node level block = some (n, s) ↔ block < g.data ∧ level < g.levels ∧
      n = g.data + base g.data level + pathBelow (level + 1) block ∧
      s = pathBelow level block % fanout := by
  rw [Geometry.node, ite_none_left_eq_some, not_or, not_le, not_le,
    and_assoc, some.injEq,
    Prod.mk.injEq]
  refine and_congr_right fun _ => and_congr_right fun hlevel => ?_
  rw [hg.start level hlevel, pathBelow_succ]
  exact and_congr eq_comm eq_comm

/-! ### Digests in the tree -/

/-- The digest in slot `q` of the tree, the slots counted through all its blocks. -/
def digestIn (tree : List UInt8) (q : ℕ) : List UInt8 :=
  slice tree (q * digestSize) digestSize

/-- The tree's block `k`. -/
def blockIn (tree : List UInt8) (k : ℕ) : List UInt8 :=
  slice tree (k * blockSize) blockSize

/-- A digest written in slot `q`. -/
def putDigest (tree : List UInt8) (q : ℕ) (hash : List UInt8) : List UInt8 :=
  put tree (q * digestSize) hash

section Put

variable {tree hash : List UInt8} {q : ℕ} (hhash : hash.length = digestSize)
  (hfits : (q + 1) * digestSize ≤ tree.length)
include hhash hfits

theorem length_putDigest : (putDigest tree q hash).length = tree.length := by
  refine length_put ?_
  rw [hhash, ← Nat.succ_mul]
  exact hfits

theorem digestIn_putDigest (q' : ℕ) :
    digestIn (putDigest tree q hash) q' = if q' = q then hash
      else digestIn tree q' := by
  have hroom : q * digestSize + hash.length ≤ tree.length := by
    rw [hhash, ← Nat.succ_mul]
    exact hfits
  by_cases heq : q' = q
  · have hself := slice_put_self hroom
    rw [hhash] at hself
    rw [if_pos heq, heq]
    exact hself
  · rw [if_neg heq, digestIn]
    refine slice_put_of_disjoint hroom ?_
    rw [hhash, digestSize]
    omega

theorem blockIn_putDigest {k : ℕ} (hk : k < q / fanout) :
    blockIn (putDigest tree q hash) k = blockIn tree k := by
  refine slice_put_of_disjoint ?_ (Or.inl ?_)
  · rw [hhash, ← Nat.succ_mul]
    exact hfits
  · rw [fanout] at hk
    rw [blockSize, digestSize]
    omega

end Put

/-- A slot's offset, from its block and its place in it. -/
theorem treeAt_eq (level j : ℕ) :
    treeAt g (g.data + base g.data level + j / fanout) + j % fanout * digestSize =
      (base g.data level * fanout + j) * digestSize := by
  rw [treeAt, add_assoc, blockSize, digestSize, fanout]
  omega

/-! ### Building it -/

section Build

variable (sha : Sha) {g : Geometry} (hg : g.Laid)

/-- The slots of level `level` fit the tree. -/
theorem slot_fits {tree : List UInt8}
    (htree : tree.length = base g.data g.levels * blockSize)
    {level j : ℕ} (hlevel : level < g.levels) (hj : j < width g.data level * fanout) :
    (base g.data level * fanout + j + 1) * digestSize ≤ tree.length := by
  have hle : base g.data level + width g.data level ≤ base g.data g.levels := by
    rw [← base_succ]
    exact base_mono hlevel
  rw [htree, digestSize, blockSize]
  rw [fanout] at hj ⊢
  omega

include hg

theorem fillLeaves_spec {blocks : List (List UInt8)} {i : ℕ} {tree : List UInt8}
    (htree : tree.length = base g.data g.levels * blockSize)
    (hblocks : i + blocks.length ≤ g.data) :
    ∃ tree', fillLeaves sha g blocks i tree = some tree' ∧ tree'.length = tree.length ∧
      (∀ k, (hk : k < blocks.length) → digestIn tree' (i + k) = leaf sha blocks[k]) ∧
      ∀ q, q < i → digestIn tree' q = digestIn tree q := by
  induction blocks generalizing i tree with
  | nil =>
    exact ⟨tree, rfl, rfl, fun k hk => absurd hk (Nat.not_lt_zero k), fun _ _ => rfl⟩
  | cons block rest ih =>
    rw [List.length_cons] at hblocks
    have hi : i < g.data := by omega
    have hnode : g.node 0 i = some (g.data + base g.data 0 + i / fanout, i % fanout) :=
      hg.node_eq.mpr ⟨hi, hg.pos, rfl, rfl⟩
    have hslot : treeAt g (g.data + base g.data 0 + i / fanout) + i %
        fanout * digestSize =
        i * digestSize := by
      rw [treeAt_eq, base, sum_range_zero, zero_mul, zero_add]
    have hfits := slot_fits htree hg.pos (hi.trans_le (le_divCeil_mul g.data))
    rw [base, sum_range_zero, zero_mul, zero_add] at hfits
    have hlength := length_putDigest (sha.length_digest (leafInput block)) hfits
    have hdigest := digestIn_putDigest (sha.length_digest (leafInput block)) hfits
    have htree' : (putDigest tree i (leaf sha block)).length =
        base g.data g.levels * blockSize :=
      hlength.trans htree
    obtain ⟨tree', hfill, hlength', hleaves, hrest⟩ := ih (i := i + 1) htree' (by omega)
    refine ⟨tree', ?_, hlength'.trans hlength, fun k hk => ?_, fun q hq => ?_⟩
    · rw [fillLeaves, hnode]
      change fillLeaves sha g rest (i + 1) (put tree _ _) = _
      rw [hslot]
      exact hfill
    · cases k with
      | zero =>
        rw [add_zero, hrest i (Nat.lt_succ_self i)]
        exact (hdigest i).trans (if_pos rfl)
      | succ k =>
        rw [← add_assoc, add_right_comm]
        exact hleaves k (Nat.lt_of_succ_lt_succ hk)
    · rw [hrest q (by omega)]
      exact (hdigest q).trans (if_neg (by omega))

theorem fillDigest_eq {level : ℕ} (hlevel : level + 1 < g.levels)
    (tree : List UInt8) (j : ℕ) :
    fillDigest sha g (level + 1) tree j =
      putDigest tree (base g.data (level + 1) * fanout + j)
        (node sha (blockIn tree (base g.data level + j))) := by
  have hchild : treeAt g (g.start.getD level 0 + j) = (base g.data level + j) *
      blockSize := by
    rw [treeAt, hg.start level (Nat.lt_of_succ_lt hlevel), add_assoc,
      Nat.add_sub_cancel_left]
  rw [fillDigest, Nat.add_sub_cancel, hchild, hg.start _ hlevel, treeAt_eq]
  rfl

/-- A level being written: its first `m` digests are there, and what lies before the
level is as it was. -/
structure Filling (g : Geometry) (level m : ℕ) (tree tree' : List UInt8) : Prop where
  length : tree'.length = tree.length
  digests : ∀ j, j < m → digestIn tree' (base g.data (level + 1) * fanout + j) =
    node sha (blockIn tree (base g.data level + j))
  slots : ∀ q, q < base g.data (level + 1) * fanout → digestIn tree' q = digestIn tree q
  blocks : ∀ k, k < base g.data (level + 1) → blockIn tree' k = blockIn tree k

theorem filling_foldl {level : ℕ} (hlevel : level + 1 < g.levels) {tree : List UInt8}
    (htree : tree.length = base g.data g.levels * blockSize) {m : ℕ}
    (hm : m ≤ width g.data level) :
    Filling sha g level m tree
      ((List.range m).foldl (fillDigest sha g (level + 1)) tree) := by
  induction m with
  | zero =>
    exact ⟨rfl, fun j hj => absurd hj (Nat.not_lt_zero j), fun _ _ => rfl,
      fun _ _ => rfl⟩
  | succ m ih =>
    rw [List.range_succ, List.foldl_append, List.foldl_cons, List.foldl_nil,
      fillDigest_eq sha hg hlevel]
    have hfilled := ih (Nat.le_of_succ_le hm)
    have hslot : m < width g.data (level + 1) * fanout := by
      rw [width_succ]
      exact (Nat.lt_of_succ_le hm).trans_le (le_divCeil_mul _)
    have hfits := slot_fits (hfilled.length.trans htree) hlevel hslot
    have hchild : base g.data level + m < base g.data (level + 1) := by
      rw [base_succ]
      omega
    have hhash := sha.length_digest (nodeInput (blockIn tree (base g.data level + m)))
    rw [hfilled.blocks _ hchild]
    refine ⟨(length_putDigest hhash hfits).trans hfilled.length, fun j hj => ?_,
      fun q hq => ?_,
      fun k hk => ?_⟩
    · rw [node, digestIn_putDigest hhash hfits]
      by_cases heq : j = m
      · rw [if_pos (by rw [heq]), heq]
        rfl
      · rw [if_neg (by omega), hfilled.digests j (by omega)]
    · rw [node, digestIn_putDigest hhash hfits, if_neg (by omega), hfilled.slots q hq]
    · rw [node, blockIn_putDigest hhash hfits, hfilled.blocks k hk]
      rw [mul_comm, Nat.mul_add_div (by decide)]
      exact hk.trans_le (Nat.le_add_right _ _)

/-- The tree with its levels below `upto` written. -/
structure Filled (g : Geometry) (leaves : ℕ → List UInt8) (upto : ℕ)
    (tree : List UInt8) : Prop where
  length : tree.length = base g.data g.levels * blockSize
  leaf : ∀ i, i < g.data → digestIn tree i = leaf sha (leaves i)
  node : ∀ level, level + 1 < upto → ∀ j, j < width g.data level →
    digestIn tree (base g.data (level + 1) * fanout + j) =
      node sha (blockIn tree (base g.data level + j))

theorem Filled.level {leaves : ℕ → List UInt8} {level : ℕ} {tree : List UInt8}
    (hfilled : Filled sha g leaves (level + 1) tree) (hlevel : level + 1 < g.levels) :
    Filled sha g leaves (level + 2) (fillLevel sha g tree (level + 1)) := by
  rw [fillLevel, Nat.add_sub_cancel, hg.count level (Nat.lt_of_succ_lt hlevel)]
  have hfilling := filling_foldl sha hg hlevel hfilled.length le_rfl
  refine ⟨hfilling.length.trans hfilled.length, fun i hi => ?_,
    fun below hbelow j hj => ?_⟩
  · have hfirst : i < base g.data (level + 1) * fanout := by
      have hbase : width g.data 0 ≤ base g.data (level + 1) := by
        have hone : base g.data 1 = width g.data 0 := by rw [base, sum_range_one]
        rw [← hone]
        exact base_mono (by omega)
      exact (hi.trans_le (le_divCeil_mul _)).trans_le (Nat.mul_le_mul_right _ hbase)
    rw [hfilling.slots i hfirst, hfilled.leaf i hi]
  · have hblock : base g.data below + j < base g.data (below + 1) := by
      rw [base_succ]
      omega
    rw [hfilling.blocks _ (hblock.trans_le (base_mono (by omega)))]
    by_cases heq : below = level
    · subst heq
      exact hfilling.digests j hj
    · have hslot : base g.data (below + 1) * fanout + j <
          base g.data (level + 1) * fanout := by
        have hnext : base g.data (below + 2) ≤ base g.data (level + 1) :=
          base_mono (by omega)
        have hcovers := le_divCeil_mul (width g.data below)
        rw [base_succ, width_succ] at hnext
        have hmul := Nat.mul_le_mul_right fanout hnext
        rw [add_mul] at hmul
        omega
      rw [hfilling.slots _ hslot, hfilled.node below (by omega) j hj]

theorem Filled.levels {leaves : ℕ → List UInt8} {tree : List UInt8}
    (hfilled : Filled sha g leaves 1 tree) {m : ℕ} (hm : m < g.levels) :
    Filled sha g leaves (m + 1) ((List.range' 1 m).foldl (fillLevel sha g) tree) := by
  induction m with
  | zero => exact hfilled
  | succ m ih =>
    rw [List.range'_1_concat, List.foldl_append, List.foldl_cons, add_comm 1 m]
    exact (ih (Nat.lt_of_succ_lt hm)).level sha hg hm

/-- The tree of the packer holds every level, and the root covers its top block. -/
theorem filled_build {data tree tree' rootHash : List UInt8}
    (hbuild : build sha g data tree = some (tree', rootHash)) :
    data.length = g.data * blockSize ∧ Filled sha g (blockIn data) g.levels tree' ∧
      rootHash = root sha g.data (blockIn tree' (base g.data (g.levels - 1))) := by
  rw [build, ite_none_left_eq_some, not_or, not_ne_iff, not_ne_iff] at hbuild
  obtain ⟨⟨hdata, htree⟩, hbuild⟩ := hbuild
  have htreeBlocks : g.treeBlocks = base g.data g.levels := by
    rw [Geometry.treeBlocks, hg.total, Nat.add_sub_cancel_left]
  have hchunks : (chunks data).length = g.data := by
    rw [chunks, List.length_map, List.length_range, hdata]
    exact Nat.mul_div_cancel _ (by decide)
  have hzero : (List.replicate tree.length (0 : UInt8)).length = base g.data g.levels *
      blockSize := by
    rw [List.length_replicate, htree, htreeBlocks]
  obtain ⟨first, hfirst, hlength, hleaves, -⟩ :=
    fillLeaves_spec sha hg hzero (show 0 + (chunks data).length ≤ g.data by omega)
  rw [hfirst] at hbuild
  obtain ⟨rfl, rfl⟩ := Prod.mk.inj (some.inj hbuild)
  have hstart : Filled sha g (blockIn data) 1 first := by
    refine ⟨hlength.trans hzero, fun i hi => ?_, fun level hlevel =>
      absurd hlevel (by omega)⟩
    have hi' : i < (chunks data).length := by rwa [hchunks]
    have hget : (chunks data)[i] = blockIn data i := by simp [chunks, blockIn]
    rw [← hget, ← hleaves i hi', zero_add]
  have hall := hstart.levels sha hg (Nat.sub_lt hg.pos Nat.one_pos)
  rw [Nat.sub_add_cancel hg.pos] at hall
  refine ⟨hdata, hall, ?_⟩
  rw [treeAt, hg.top_eq, Nat.add_sub_cancel_left]
  rfl

end Build

/-! ### What a reader relies on -/

/-- Blocks whose tree is right: each slot on a data block's path holds the digest of
what lies below it, and the root covers the top. -/
structure Signed (sha : Sha) (g : Geometry) (rootHash : List UInt8)
    (block : ℕ → List UInt8) :
    Prop where
  leaf : ∀ {b n s}, g.node 0 b = some (n, s) →
    slot (block n) s = some (leaf sha (block b))
  node : ∀ {level b n s n' s'}, g.node (level + 1) b = some (n, s) →
    g.node level b = some (n', s') → slot (block n) s = some (node sha (block n'))
  root : rootHash = root sha g.data (block g.top)

theorem slot_blockIn {tree : List UInt8} {k s : ℕ}
    (hk : (k + 1) * blockSize ≤ tree.length)
    (hs : s < fanout) :
    slot (blockIn tree k) s = some (digestIn tree (k * fanout + s)) := by
  have hlength : (blockIn tree k).length = blockSize :=
    length_slice (by rwa [← Nat.succ_mul])
  have hfits : s * digestSize + digestSize ≤ blockSize := by
    rw [fanout] at hs
    rw [digestSize, blockSize]
    omega
  have hoff : k * blockSize + s * digestSize = (k * fanout + s) * digestSize := by
    rw [blockSize, digestSize, fanout]
    omega
  rw [slot, hlength, if_pos hfits, blockIn, slice_slice hfits, hoff]
  rfl

/-- The volume's blocks in its range: the data, then the tree. -/
def original (data tree : List UInt8) (n : ℕ) : List UInt8 := blockIn (data ++ tree) n

section Original

variable {g : Geometry} {data tree : List UInt8}
    (hdata : data.length = g.data * blockSize)
include hdata

theorem original_data {b : ℕ} (hb : b < g.data) :
    original data tree b = blockIn data b := by
  refine slice_append_left _ ?_
  rw [hdata, ← Nat.succ_mul]
  exact Nat.mul_le_mul_right _ hb

theorem original_tree (k : ℕ) : original data tree (g.data + k) = blockIn tree k := by
  rw [original, blockIn, add_mul, ← hdata]
  exact slice_append_right _ _ _ _

end Original

/-- The packer's tree is right. -/
theorem signed_build (sha : Sha) (hg : g.Laid) {data tree tree' rootHash : List UInt8}
    (hbuild : build sha g data tree = some (tree', rootHash)) :
    Signed sha g rootHash (original data tree') := by
  obtain ⟨hdata, hfilled, hroot⟩ := filled_build sha hg hbuild
  have hslot : ∀ {level b n s}, g.node level b = some (n, s) →
      slot (original data tree' n) s =
        some (digestIn tree' (base g.data level * fanout + pathBelow level b)) := by
    intro level b n s hnode
    obtain ⟨hb, hlevel, rfl, rfl⟩ := hg.node_eq.mp hnode
    have hplace := pathBelow_lt hb level
    have hle : base g.data (level + 1) ≤ base g.data g.levels := base_mono hlevel
    rw [base_succ] at hle
    rw [add_assoc, original_tree hdata, slot_blockIn _ (Nat.mod_lt _ (by decide)),
      pathBelow_succ]
    · have hsplit := Nat.div_add_mod (pathBelow level b) fanout
      rw [add_mul, add_assoc, mul_comm (pathBelow level b / fanout), hsplit]
    · rw [hfilled.length]
      exact Nat.mul_le_mul_right _ (by omega)
  refine ⟨fun {b n s} hnode => ?_, fun {level b n s n' s'} hnode hnode' => ?_, ?_⟩
  · have hb := (hg.node_eq.mp hnode).1
    rw [hslot hnode, base, sum_range_zero, zero_mul, zero_add, original_data hdata hb]
    exact congrArg some (hfilled.leaf b hb)
  · obtain ⟨hb, hlevel, -⟩ := hg.node_eq.mp hnode
    obtain ⟨-, -, rfl, -⟩ := hg.node_eq.mp hnode'
    rw [hslot hnode, hfilled.node level hlevel _ (pathBelow_lt hb level), add_assoc,
      original_tree hdata]
  · rw [hg.top_eq, original_tree hdata]
    exact hroot

end Redoubt.Verity
