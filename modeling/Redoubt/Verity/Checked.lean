import Redoubt.Verity.Signed
import Redoubt.Verity.Volume

/-!
# A block that checks is the original

Every block a volume holds is the original one of its number, whatever the range answers
and whatever failed: a block is kept only once it hashes to a slot of an original block.
And while the range answers with the original bytes every check succeeds.
-/

namespace Redoubt.Verity

open Slices

/-! ### What is assumed of the hash -/

/-- The blocks the range may answer with, to a read of whole blocks. -/
def answered (range : Range) : Set (List UInt8) :=
  { x | ∃ call b run k, k < run ∧
    x = blockIn ((range.read call (b * sectorsPerBlock) (run * blockSize)).bytes
      (run * blockSize)) k }

/-- The blocks of the volume, data and tree. -/
def originals (g : Geometry) (image : List UInt8) : Set (List UInt8) :=
  { x | ∃ n, n < g.total ∧ x = blockIn image n }

/-- What is hashed of some blocks. -/
def inputs (data : ℕ) (blocks : Set (List UInt8)) : Set (List UInt8) :=
  { m | ∃ x ∈ blocks, m = leafInput x ∨ m = nodeInput x ∨ m = rootInput data x }

/-- Distinct inputs, of the original blocks and of those answered, have distinct
digests. -/
def Distinct (sha : Sha) (range : Range) (g : Geometry) (image : List UInt8) : Prop :=
  Set.InjOn sha.digest (inputs g.data (answered range ∪ originals g image))

/-- From call `calls` on the range answers a read of blocks of `image` with their
bytes. -/
def Honest (range : Range) (image : List UInt8) (calls : ℕ) : Prop :=
  ∀ call, calls ≤ call → ∀ b run, (b + run) * blockSize ≤ image.length →
    (range.read call (b * sectorsPerBlock) (run * blockSize)).ok = true ∧
      (range.read call (b * sectorsPerBlock) (run * blockSize)).bytes
      (run * blockSize) =
        slice image (b * blockSize) (run * blockSize)

section Distinct

variable {sha : Sha} {range : Range} {g : Geometry} {image x : List UInt8} {n : ℕ}
  (hdistinct : Distinct sha range g image) (hx : x ∈ answered range) (hn : n < g.total)
include hdistinct hx hn

theorem Distinct.leaf (heq : leaf sha x = leaf sha (blockIn image n)) :
    x = blockIn image n := by
  have hinput :=
    hdistinct ⟨x, Or.inl hx, Or.inl rfl⟩ ⟨_, Or.inr ⟨n, hn, rfl⟩, Or.inl rfl⟩ heq
  exact (List.cons.inj hinput).2

theorem Distinct.node (heq : node sha x = node sha (blockIn image n)) :
    x = blockIn image n := by
  have hinput := hdistinct ⟨x, Or.inl hx, Or.inr (Or.inl rfl)⟩
    ⟨_, Or.inr ⟨n, hn, rfl⟩, Or.inr (Or.inl rfl)⟩ heq
  exact (List.cons.inj hinput).2

theorem Distinct.root (heq : root sha g.data x = root sha g.data (blockIn image n)) :
    x = blockIn image n := by
  have hinput := hdistinct ⟨x, Or.inl hx, Or.inr (Or.inr rfl)⟩
    ⟨_, Or.inr ⟨n, hn, rfl⟩, Or.inr (Or.inr rfl)⟩ heq
  exact List.append_cancel_left (List.cons.inj hinput).2

end Distinct

theorem length_bytes (a : Answer) (len : ℕ) : (a.bytes len).length = len := by
  rw [Answer.bytes, List.length_map, List.length_range]

theorem bytes_mem_answered (range : Range) (call b : ℕ) :
    (range.read call (b * sectorsPerBlock) blockSize).bytes blockSize ∈
    answered range := by
  refine ⟨call, b, 1, 0, Nat.one_pos, ?_⟩
  rw [one_mul, blockIn, slice, zero_mul, List.drop_zero,
    List.take_of_length_le (length_bytes _ _).le]

theorem Honest.block {range : Range} {image : List UInt8} {calls call n : ℕ}
    (hhonest : Honest range image calls) (hcall : calls ≤ call)
    (hn : (n + 1) * blockSize ≤ image.length) :
    (range.read call (n * sectorsPerBlock) blockSize).ok = true ∧
      (range.read call (n * sectorsPerBlock) blockSize).bytes blockSize =
      blockIn image n := by
  have hanswer := hhonest call hcall n 1 hn
  rwa [one_mul] at hanswer

/-- A published volume: a tree that is right for the blocks of `image`, and a hash
without collisions on what is read of it. -/
structure Published (sha : Sha) (range : Range) (g : Geometry)
    (rootHash image : List UInt8) :
    Prop where
  laid : g.Laid
  signed : Signed sha g rootHash (blockIn image)
  length : image.length = g.total * blockSize
  distinct : Distinct sha range g image

/-- A block held under its number is the original one. -/
def Genuine (image : List UInt8) (n : ℕ) (x : List UInt8) : Prop := x = blockIn image n

/-- What is held of the tree is original. -/
structure Tree.Valid (g : Geometry) (image : List UInt8) (t : Tree) : Prop where
  cache : t.cache.Valid (Genuine image)
  top : t.top = blockIn image g.top

/-- The digest that what lies below level `level` on `b`'s path must have. -/
def due (sha : Sha) (g : Geometry) (image : List UInt8) (b : ℕ) : ℕ → List UInt8
  | 0 => leaf sha (blockIn image b)
  | level + 1 => ((g.node level b).map fun p => node sha (blockIn image p.1)).getD []

section Path

variable {g : Geometry} (hg : g.Laid) {level b n s : ℕ}
include hg

theorem Geometry.Laid.node_lt (hnode : g.node level b = some (n, s)) : n < g.total := by
  obtain ⟨hb, hlevel, rfl, -⟩ := hg.node_eq.mp hnode
  exact (Nat.add_lt_add_left (pathBelow_lt hb level) _).trans_le
    (hg.base_add_width_le hlevel)

theorem Geometry.Laid.exists_node (hb : b < g.data) (hlevel : level < g.levels) :
    ∃ n s, g.node level b = some (n, s) := ⟨_, _, hg.node_eq.mpr ⟨hb, hlevel, rfl, rfl⟩⟩

theorem Geometry.Laid.node_top (hnode : g.node (g.levels - 1) b = some (n, s)) :
    n = g.top := by
  obtain ⟨hb, -, rfl, -⟩ := hg.node_eq.mp hnode
  have hplace := pathBelow_lt hb (g.levels - 1)
  rw [hg.topWidth, Nat.lt_one_iff] at hplace
  rw [hplace, hg.top_eq, add_zero]

end Path

section Check

variable {sha : Sha} {range : Range} {g : Geometry} {rootHash image : List UInt8}
  (hpub : Published sha range g rootHash image) {b : ℕ} (hb : b < g.data)

include hpub hb in
theorem Published.digestAt_eq {level n s : ℕ} (hnode : g.node level b = some (n, s)) :
    digestAt (blockIn image n) s = due sha g image b level := by
  cases level with
  | zero => rw [digestAt, hpub.signed.leaf hnode, due, Option.getD_some]
  | succ level =>
    have hlevel := (hpub.laid.node_eq.mp hnode).2.1
    obtain ⟨n', s', hnode'⟩ := hpub.laid.exists_node hb (Nat.lt_of_succ_lt hlevel)
    rw [digestAt, hpub.signed.node hnode hnode', due, hnode', Option.getD_some]
    rfl

include hb in
theorem lowest_spec (hg : g.Laid) {left level : ℕ} (hlevel : level + left < g.levels)
    {c : Lru (List UInt8)} (hvalid : c.Valid (Genuine image)) :
    ∃ first c', lowest g b left level c = (.ok first, c') ∧ c'.Valid (Genuine image) ∧
      first ≤ level + left ∧
      (first < level + left → ∀ n s, g.node first b = some (n, s) →
        c'.holds n = true) := by
  induction left generalizing level c with
  | zero => exact ⟨level, c, rfl, hvalid, le_rfl, fun hlt => absurd hlt (lt_irrefl _)⟩
  | succ left ih =>
    obtain ⟨n, s, hnode⟩ := hg.exists_node hb (show level < g.levels by omega)
    cases hfind : c.find n with
    | mk found c' =>
      have hvalid' : c'.Valid (Genuine image) := by
        have hkept := hvalid.find n
        rwa [hfind] at hkept
      cases found with
      | some i =>
        refine ⟨level, c', by simp only [lowest, hnode, hfind], hvalid', by omega,
          fun _ m s' hnode' => ?_⟩
        obtain ⟨rfl, -⟩ := Prod.mk.inj (Option.some.inj (hnode.symm.trans hnode'))
        have hheld := c.holds_find n n
        rw [hfind] at hheld
        rw [hheld]
        exact Lru.holds_of_find (congrArg Prod.fst hfind)
      | none =>
        have hnext : level + 1 + left < g.levels := by omega
        obtain ⟨first, c'', hlowest, hvalid'', hle, hholds⟩ := ih hnext hvalid'
        refine ⟨first, c'', by simp only [lowest, hnode, hfind, hlowest],
          hvalid'', by omega,
          fun hlt => hholds (by omega)⟩

/-- What one or more reads of the tree leave: what is held is original, and more calls
were made. -/
structure Tree.Kept (g : Geometry) (image : List UInt8) (t t' : Tree) : Prop where
  valid : t'.Valid g image
  calls : t.calls ≤ t'.calls

include hpub hb in
theorem Published.descend_spec {level : ℕ} (hlevel : level < g.levels) {t : Tree}
    (ht : t.Valid g image) :
    t.Kept g image (descend sha range g b level (due sha g image b level) t).2 ∧
      (∀ want, (descend sha range g b level (due sha g image b level) t).1 = .ok want →
        want = due sha g image b 0) ∧
      (Honest range image t.calls →
        ∃ want, (descend sha range g b level (due sha g image b level) t).1 =
        .ok want) := by
  induction level generalizing t with
  | zero =>
    rw [descend]
    exact ⟨⟨ht, le_rfl⟩, fun want hwant => (Except.ok.inj hwant).symm,
      fun _ => ⟨_, rfl⟩⟩
  | succ level ih =>
    obtain ⟨n, s, hnode⟩ := hpub.laid.exists_node hb (Nat.lt_of_succ_lt hlevel)
    have hn := hpub.laid.node_lt hnode
    have hdue : due sha g image b (level + 1) = node sha (blockIn image n) := by
      rw [due, hnode]
      rfl
    rw [descend, hdue]
    simp only [hnode]
    have hanswered := bytes_mem_answered range t.calls n
    have hroom : (n + 1) * blockSize ≤ image.length := by
      rw [hpub.length]
      exact Nat.mul_le_mul_right _ hn
    have hhonestBlock := fun hhonest : Honest range image t.calls =>
      hhonest.block le_rfl hroom
    generalize range.read t.calls (n * sectorsPerBlock) blockSize =
      answer at hanswered hhonestBlock ⊢
    generalize hbytes : answer.bytes blockSize = block at hanswered hhonestBlock ⊢
    have hfilled : (t.cache.victim.2.fill t.cache.oldest block).Valid (Genuine image) :=
      ht.cache.victim.fill t.cache.free_victim block
    by_cases hok : answer.ok = false
    · rw [if_pos hok]
      refine ⟨⟨⟨hfilled, ht.top⟩, Nat.le_succ _⟩, nofun, fun hhonest => ?_⟩
      exact absurd ((hhonestBlock hhonest).1.symm.trans hok) Bool.noConfusion
    · rw [if_neg hok]
      by_cases hhash : node sha block ≠ node sha (blockIn image n)
      · rw [if_pos hhash]
        refine ⟨⟨⟨hfilled, ht.top⟩, Nat.le_succ _⟩, nofun, fun hhonest => ?_⟩
        exact absurd (congrArg (node sha) (hhonestBlock hhonest).2) hhash
      · rw [if_neg hhash]
        have hblock := hpub.distinct.node hanswered hn (not_not.mp hhash)
        subst hblock
        rw [hpub.digestAt_eq hb hnode]
        have hkept :
            ((t.cache.victim.2.fill t.cache.oldest (blockIn image n)).keep
              t.cache.oldest
            n).Valid (Genuine image) :=
          hfilled.keep fun value hvalue => Lru.eq_of_value?_fill hvalue
        obtain ⟨⟨hvalid, hcalls⟩, hwant, hsucceeds⟩ := ih (Nat.lt_of_succ_lt hlevel)
          (t := { t with
            calls := t.calls + 1
            cache := (t.cache.victim.2.fill t.cache.oldest (blockIn image n)).keep
              t.cache.oldest n })
          ⟨hkept, ht.top⟩
        refine ⟨⟨hvalid, (Nat.le_succ _).trans hcalls⟩, hwant,
          fun hhonest => hsucceeds ?_⟩
        exact fun call hcall => hhonest call ((Nat.le_succ _).trans hcall)

include hpub hb in
/-- A held block's slot, or the pinned top's, is the digest due. -/
theorem Published.heldDigest_eq {first n s : ℕ} {top : List UInt8}
    {c : Lru (List UInt8)}
    (htop : top = blockIn image g.top) (hc : c.Valid (Genuine image))
    (hnode : g.node first b = some (n, s))
    (hheld : first < g.levels - 1 → c.holds n = true) (hfirst : first ≤ g.levels - 1) :
    heldDigest top (c.find n) (first < g.levels - 1) s = due sha g image b first := by
  by_cases hlt : first < g.levels - 1
  · obtain ⟨i, hfind⟩ := Lru.find_of_holds (hheld hlt)
    obtain ⟨value, hvalue, hgenuine⟩ := hc.found hfind
    have hdigest : heldDigest top (c.find n) (first < g.levels - 1) s =
        digestAt value s := by
      simp only [heldDigest, hfind, decide_eq_true hlt, if_true, hvalue,
        Option.getD_some]
    rw [hdigest, show value = blockIn image n from hgenuine]
    exact hpub.digestAt_eq hb hnode
  · obtain rfl : first = g.levels - 1 := by omega
    have hdigest : heldDigest top (c.find n) (g.levels - 1 < g.levels - 1) s =
        digestAt top s := by
      rw [heldDigest]
      split
      · rw [decide_eq_false hlt, if_neg Bool.false_ne_true]
      · rfl
    rw [hdigest, htop, ← hpub.laid.node_top hnode]
    exact hpub.digestAt_eq hb hnode

include hpub hb in
/-- A check passes only for the original block's digest, and with an honest range it
does. -/
theorem Published.check_spec {t : Tree} (ht : t.Valid g image) (leaf : List UInt8) :
    t.Kept g image (t.check sha range g b leaf).2 ∧
      ((t.check sha range g b leaf).1 = .ok () → leaf = due sha g image b 0) ∧
      (Honest range image t.calls → leaf = due sha g image b 0 →
        (t.check sha range g b leaf).1 = .ok ()) := by
  have htop : 0 + (g.levels - 1) < g.levels := by
    have hpos := hpub.laid.pos
    omega
  obtain ⟨first, c, hlowest, hvalid, hle, hheld⟩ :=
    lowest_spec hb hpub.laid htop ht.cache
  rw [zero_add] at hle hheld htop
  obtain ⟨n, s, hnode⟩ := hpub.laid.exists_node hb (hle.trans_lt htop)
  have hwant :=
    hpub.heldDigest_eq hb ht.top hvalid hnode (fun hlt => hheld hlt n s hnode) hle
  obtain ⟨⟨hkept, hcalls⟩, hdue, hsucceeds⟩ := hpub.descend_spec hb (hle.trans_lt htop)
    (t := { t with cache := (c.find n).2 }) ⟨hvalid.find n, ht.top⟩
  rw [Tree.check]
  simp only [hlowest, hnode, hwant]
  cases hdescend : descend sha range g b first (due sha g image b first) { t with
    cache := (c.find n).2 } with
  | mk result t' =>
    rw [hdescend] at hkept hcalls hdue hsucceeds
    cases result with
    | error bad =>
      refine ⟨⟨hkept, hcalls⟩, nofun, fun hhonest => ?_⟩
      obtain ⟨want, hok⟩ := hsucceeds hhonest
      exact nomatch hok
    | ok want =>
      obtain rfl := hdue want rfl
      by_cases hleaf : leaf ≠ due sha g image b 0
      · simp only [if_pos hleaf]
        exact ⟨⟨hkept, hcalls⟩, nofun, fun _ heq => absurd heq hleaf⟩
      · simp only [if_neg hleaf]
        exact ⟨⟨hkept, hcalls⟩, fun _ => not_not.mp hleaf, fun _ _ => trivial⟩

end Check

end Redoubt.Verity
