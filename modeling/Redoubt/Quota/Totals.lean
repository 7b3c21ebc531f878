import Redoubt.Quota.Paths

/-!
# The one pass is the recursion

The tree a ledger's live roots form, and that its totals, computed in one pass with
saturating sums, are that tree's reserves and charges.
-/

namespace Redoubt.Quota.Ledger

open Finset Function Carving List

variable {l : Ledger}

/-- The volume's root comes first, no directory twice, and every connection is at a live
root. -/
structure WellFormed (l : Ledger) : Prop where
  first : ∃ held rest, l.roots = { id := l.volume, path := [], held := held } :: rest
  paths : (l.roots.map Root.path).Nodup
  ids : (l.roots.map Root.id).Nodup
  served : ∀ c ∈ l.conns, ∃ r ∈ l.roots, r.id = c.root

/-- The live roots' paths. -/
def live (l : Ledger) : Finset Path := (l.roots.map Root.path).toFinset

def find (l : Ledger) (path : Path) : Option Root :=
  l.roots.find? fun r => r.path = path

/-- What the root at a path holds. -/
def heldAt (l : Ledger) (path : Path) : ℕ := ((l.find path).map Root.held).getD 0

/-- The quotas of the connections at a directory. -/
def granted (l : Ledger) (id : ℕ) : ℕ :=
  ((l.conns.filter fun c => c.root = id).map Conn.quota).sum

/-- The quota of the root at a path. -/
def quotaAt (l : Ledger) (path : Path) : ℕ :=
  if path = [] then l.room else ((l.find path).map fun r => l.granted r.id).getD 0

theorem WellFormed.nil_mem (hl : WellFormed l) : [] ∈ l.live := by
  obtain ⟨held, rest, hroots⟩ := hl.first
  rw [live, hroots]
  simp

/-- The tree of the live roots. -/
noncomputable def carving (l : Ledger) (hl : WellFormed l) : Carving Path :=
  tree l.live hl.nil_mem l.quotaAt l.heldAt

theorem mem_live {path : Path} : path ∈ l.live ↔ ∃ r ∈ l.roots, r.path = path := by
  rw [live, List.mem_toFinset, List.mem_map]

variable {i : ℕ}

theorem root_eq (hi : i < l.roots.length) : l.root i = l.roots[i] := by
  rw [root, getD_eq_getElem?_getD, getElem?_eq_getElem hi, Option.getD_some]

theorem root_mem (hi : i < l.roots.length) : l.root i ∈ l.roots := by
  rw [root_eq hi]
  exact getElem_mem hi

theorem path_mem_live (hi : i < l.roots.length) : (l.root i).path ∈ l.live :=
  mem_live.mpr ⟨_, root_mem hi, rfl⟩

variable {r : Root}

theorem exists_index (hr : r ∈ l.roots) : ∃ i, i < l.roots.length ∧ l.root i = r := by
  obtain ⟨i, hi, heq⟩ := mem_iff_getElem.mp hr
  exact ⟨i, hi, (root_eq hi).trans heq⟩

variable {j : ℕ}

section

variable (hl : WellFormed l)
include hl

theorem WellFormed.index_eq (hi : i < l.roots.length)
    (hj : j < l.roots.length) (hpath : (l.root i).path = (l.root j).path) : i = j := by
  rw [root_eq hi, root_eq hj] at hpath
  have hi' : i < (l.roots.map Root.path).length := by rwa [length_map]
  have hj' : j < (l.roots.map Root.path).length := by rwa [length_map]
  have hget : (l.roots.map Root.path)[i] = (l.roots.map Root.path)[j] := by
    rw [getElem_map, getElem_map]
    exact hpath
  exact hl.paths.getElem_inj_iff.mp hget

theorem WellFormed.find_of_mem (hr : r ∈ l.roots) : l.find r.path = some r := by
  have hsome : (l.find r.path).isSome = true :=
    find?_isSome.mpr ⟨r, hr, decide_eq_true rfl⟩
  obtain ⟨s, hs⟩ := Option.isSome_iff_exists.mp hsome
  have hpath : s.path = r.path :=
    of_decide_eq_true (find?_some (p := fun s : Root => decide (s.path = r.path)) hs)
  rw [hs, inj_on_of_nodup_map hl.paths (mem_of_find?_eq_some hs) hr hpath]

theorem WellFormed.heldAt_of_mem (hr : r ∈ l.roots) : l.heldAt r.path = r.held := by
  rw [heldAt, hl.find_of_mem hr]
  rfl

theorem WellFormed.quotaAt_of_mem (hr : r ∈ l.roots)
    (hpath : r.path ≠ []) : l.quotaAt r.path = l.granted r.id := by
  rw [quotaAt, if_neg hpath, hl.find_of_mem hr]
  rfl

theorem WellFormed.length_pos : 0 < l.roots.length := by
  obtain ⟨held, rest, hroots⟩ := hl.first
  rw [hroots]
  exact Nat.succ_pos _

theorem WellFormed.root_zero : (l.root 0).path = [] := by
  obtain ⟨held, rest, hroots⟩ := hl.first
  rw [root, hroots]
  rfl

theorem WellFormed.path_eq_nil_iff (hi : i < l.roots.length) :
    (l.root i).path = [] ↔ i = 0 := by
  constructor
  · intro hnil
    exact hl.index_eq hi hl.length_pos (hnil.trans hl.root_zero.symm)
  · rintro rfl
    exact hl.root_zero

end

/-! ### The nearest root -/

theorem foldl_deeper (xs : List (Root × ℕ)) (best : Root × ℕ) :
    ∃ b, xs.foldl deeper (some best) = some b ∧ (b = best ∨ b ∈ xs) ∧
      best.1.path.length ≤ b.1.path.length ∧ ∀ x ∈ xs,
      x.1.path.length ≤ b.1.path.length := by
  induction xs generalizing best with
  | nil => exact ⟨best, rfl, Or.inl rfl, le_rfl, fun x hx => nomatch hx⟩
  | cons x xs ih =>
    by_cases hx : best.1.path.length ≤ x.1.path.length
    · obtain ⟨b, hfold, hb, hle, hall⟩ := ih x
      refine ⟨b, by rw [foldl_cons, deeper, if_pos hx, hfold], ?_, hx.trans hle, ?_⟩
      · exact Or.inr (mem_cons.mpr hb)
      · intro y hy
        rcases mem_cons.mp hy with rfl | hy
        · exact hle
        · exact hall y hy
    · obtain ⟨b, hfold, hb, hle, hall⟩ := ih best
      refine ⟨b, by rw [foldl_cons, deeper, if_neg hx, hfold], ?_, hle, ?_⟩
      · exact hb.imp_right (mem_cons_of_mem x)
      · intro y hy
        rcases mem_cons.mp hy with rfl | hy
        · exact (not_le.mp hx).le.trans hle
        · exact hall y hy

/-- The nearest root qualifies, and no root that does has a longer path. -/
theorem nearest_spec (qualifies : Path → Bool) (hr : r ∈ l.roots)
    (hqualifies : qualifies r.path = true) :
    l.nearest qualifies < l.roots.length ∧
      qualifies (l.root (l.nearest qualifies)).path = true ∧
      ∀ s ∈ l.roots, qualifies s.path = true →
        s.path.length ≤ (l.root (l.nearest qualifies)).path.length := by
  have hmem : ∀ x, x ∈ l.roots.zipIdx.filter (fun x => qualifies x.1.path) ↔
      l.roots[x.2]? = some x.1 ∧ qualifies x.1.path = true := by
    intro x
    rw [List.mem_filter, List.mem_zipIdx_iff_getElem?]
  have hin : ∀ s ∈ l.roots, qualifies s.path = true →
      ∃ i, (s, i) ∈ l.roots.zipIdx.filter fun x => qualifies x.1.path := by
    intro s hs hqual
    obtain ⟨i, hi⟩ := List.mem_iff_getElem?.mp hs
    exact ⟨i, (hmem (s, i)).mpr ⟨hi, hqual⟩⟩
  rw [nearest]
  generalize hxs : l.roots.zipIdx.filter (fun x => qualifies x.1.path) = xs at hmem hin
  cases xs with
  | nil =>
    obtain ⟨i, hi⟩ := hin r hr hqualifies
    exact nomatch hi
  | cons x xs =>
    obtain ⟨b, hfold, hb, hle, hall⟩ := foldl_deeper xs x
    have hbmem : b ∈ x :: xs := List.mem_cons.mpr hb
    obtain ⟨hget, hqual⟩ := (hmem b).mp hbmem
    have hroot : l.root b.2 = b.1 := by
      rw [root, List.getD_eq_getElem?_getD, hget, Option.getD_some]
    have hnearest : (((x :: xs).foldl deeper none).map Prod.snd).getD 0 = b.2 := by
      rw [List.foldl_cons, deeper, hfold]
      rfl
    rw [hnearest, hroot]
    refine ⟨(List.getElem?_eq_some_iff.mp hget).1, hqual, fun s hs hqualS => ?_⟩
    obtain ⟨i, hi⟩ := hin s hs hqualS
    rcases List.mem_cons.mp hi with heq | hi
    · rw [← heq] at hle
      exact hle
    · exact hall (s, i) hi

variable {dir : Path}

/-- The root strictly above a directory is its parent in the tree. -/
theorem WellFormed.above_spec (hl : WellFormed l) (hdir : dir ≠ []) :
    l.above dir < l.roots.length ∧ IsParent l.live dir (l.root (l.above dir)).path := by
  obtain ⟨held, rest, hroots⟩ := hl.first
  have hqualifies : ∀ p : Path, (p != dir && under dir p) = true ↔ p ≠ dir ∧
      under dir p = true := by
    intro p
    rw [Bool.and_eq_true, bne_iff_ne]
  have hfirst : (⟨l.volume, [], held⟩ : Root) ∈ l.roots := by
    rw [hroots]
    exact mem_cons_self
  obtain ⟨hlt, hqual, hmax⟩ := nearest_spec (fun p => p != dir && under dir p) hfirst
    ((hqualifies []).mpr ⟨hdir.symm, under_nil dir⟩)
  obtain ⟨hne, hunder⟩ := (hqualifies _).mp hqual
  refine ⟨hlt, path_mem_live hlt, hne, hunder, fun dir' hdir' hne' hunder' => ?_⟩
  obtain ⟨s, hs, rfl⟩ := mem_live.mp hdir'
  exact hmax s hs ((hqualifies _).mpr ⟨hne', hunder'⟩)

/-- So is the nearest at or above one that is no live root. -/
theorem WellFormed.holder_spec (hl : WellFormed l) (hdir : dir ∉ l.live) :
    l.holder dir < l.roots.length ∧
      IsParent l.live dir (l.root (l.holder dir)).path := by
  obtain ⟨held, rest, hroots⟩ := hl.first
  have hfirst : (⟨l.volume, [], held⟩ : Root) ∈ l.roots := by
    rw [hroots]
    exact mem_cons_self
  obtain ⟨hlt, hqual, hmax⟩ :=
    nearest_spec (fun p => under dir p) hfirst (under_nil dir)
  refine ⟨hlt, path_mem_live hlt, fun heq => hdir (heq ▸ path_mem_live hlt), hqual,
    fun dir' hdir' _ hunder' => ?_⟩
  obtain ⟨s, hs, rfl⟩ := mem_live.mp hdir'
  exact hmax s hs hunder'

/-! ### The pass -/

/-- What the roots in `done` added to root `i`'s reserve. -/
def childSum (l : Ledger) (size : Path → ℕ) (done : List ℕ) (i : ℕ) : ℕ :=
  ((done.filter fun k => k ≠ 0 ∧ l.above (l.root k).path = i).map fun k =>
    size (l.root k).path).sum

section Pass

variable (hl : WellFormed l) {size : Path → ℕ} {done : List ℕ} {i : ℕ}
include hl

theorem WellFormed.mem_children_iff {k : ℕ} (hk : k < l.roots.length)
    (hi : i < l.roots.length) :
    (l.root k).path ∈ (l.carving hl).children (l.root i).path ↔
      k ≠ 0 ∧ l.above (l.root k).path = i := by
  rw [mem_children]
  change (l.root k).path ∈ l.live ∧ (l.root k).path ≠ [] ∧
    parentIn l.live (l.root k).path = (l.root i).path ↔ _
  rw [ne_eq, hl.path_eq_nil_iff hk, and_iff_right (path_mem_live hk)]
  refine and_congr_right fun hzero => ?_
  obtain ⟨habove, hparent⟩ := hl.above_spec (mt (hl.path_eq_nil_iff hk).mp hzero)
  rw [hparent.eq_parentIn hl.nil_mem]
  exact ⟨hl.index_eq habove hi, fun heq => heq ▸ rfl⟩

/-- Each child that was done counts once. -/
theorem WellFormed.childSum_eq (hdone : done.Nodup)
    (hrange : ∀ k ∈ done, k < l.roots.length) :
    l.childSum size done i = ∑ q ∈ ((done.filter fun k =>
      k ≠ 0 ∧ l.above (l.root k).path = i).map fun k => (l.root k).path).toFinset,
      size q := by
  rw [List.sum_toFinset, List.map_map]
  · rfl
  · refine List.Nodup.map_on (fun j hj k hk hpath => ?_) (hdone.filter _)
    exact hl.index_eq (hrange j (List.mem_filter.mp hj).1)
      (hrange k (List.mem_filter.mp hk).1) hpath

variable (size) in
theorem WellFormed.childSum_le (hdone : done.Nodup)
    (hrange : ∀ k ∈ done, k < l.roots.length)
    (hi : i < l.roots.length) :
    l.childSum size done i ≤ ∑ q ∈ (l.carving hl).children (l.root i).path, size q := by
  rw [hl.childSum_eq hdone hrange]
  refine sum_le_sum_of_subset fun q hq => ?_
  obtain ⟨k, hk, rfl⟩ := mem_map.mp (mem_toFinset.mp hq)
  obtain ⟨hkdone, hchild⟩ := mem_filter.mp hk
  exact (hl.mem_children_iff (hrange k hkdone) hi).mpr (of_decide_eq_true hchild)

theorem WellFormed.childSum_all (hdone : done.Nodup)
    (hrange : ∀ k ∈ done, k < l.roots.length)
    (hi : i < l.roots.length)
    (hall : ∀ k, k < l.roots.length → k ≠ 0 → l.above (l.root k).path = i → k ∈ done) :
    l.childSum size done i = ∑ q ∈ (l.carving hl).children (l.root i).path, size q := by
  refine le_antisymm (hl.childSum_le size hdone hrange hi) ?_
  rw [hl.childSum_eq hdone hrange]
  refine sum_le_sum_of_subset fun q hq => ?_
  obtain ⟨r, hr, hpath⟩ := mem_live.mp (mem_children.mp hq).1
  obtain ⟨k, hk, rfl⟩ := exists_index hr
  subst hpath
  have hchild := (hl.mem_children_iff hk hi).mp hq
  refine mem_toFinset.mpr (mem_map.mpr ⟨k, mem_filter.mpr ⟨?_, ?_⟩, rfl⟩)
  · exact hall k hk hchild.1 hchild.2
  · exact decide_eq_true hchild

end Pass

variable {done : List ℕ}

theorem childSum_snoc {size : Path → ℕ} :
    l.childSum size (done ++ [j]) i = l.childSum size done i +
      if j ≠ 0 ∧ l.above (l.root j).path = i then size (l.root j).path else 0 := by
  rw [childSum, List.filter_append, List.map_append, List.sum_append]
  by_cases hj : j ≠ 0 ∧ l.above (l.root j).path = i
  · rw [List.filter_singleton, decide_eq_true hj, if_pos hj]
    rfl
  · rw [List.filter_singleton, decide_eq_false hj, if_neg hj]
    rfl

theorem saturatingAdd_eq {m n : ℕ} (hle : m + n ≤ maxU64) : saturatingAdd m n = m + n :=
  min_eq_left hle

/-- A saturating sum that stays in bounds is the sum. -/
theorem foldl_saturatingAdd {conns : List Conn} {start : ℕ}
    (hle : start + (conns.map Conn.quota).sum ≤ maxU64) :
    conns.foldl (fun sum c => saturatingAdd sum c.quota) start =
      start + (conns.map Conn.quota).sum := by
  induction conns generalizing start with
  | nil => rfl
  | cons c conns ih =>
    rw [List.map_cons, List.sum_cons] at hle ⊢
    rw [List.foldl_cons, saturatingAdd_eq (by omega), ih (by omega)]
    omega

/-- What fits the tree's largest charge does not saturate. -/
theorem WellFormed.quota_eq (hl : WellFormed l)
    (hbound : (l.carving hl).charge [] ≤ maxU64)
    (hi : i < l.roots.length) : l.quota i = l.quotaAt (l.root i).path := by
  by_cases hzero : i = 0
  · rw [quota, if_pos hzero, quotaAt, if_pos ((hl.path_eq_nil_iff hi).mpr hzero)]
  · have hpath := mt (hl.path_eq_nil_iff hi).mp hzero
    have hle : l.quotaAt (l.root i).path ≤ maxU64 :=
      ((l.carving hl).quota_le_charge (l.root i).path).trans
        ((charge_le_charge_top _ (path_mem_live hi)).trans hbound)
    rw [hl.quotaAt_of_mem (root_mem hi) hpath] at hle ⊢
    rw [quota, if_neg hzero, granted]
    rw [foldl_saturatingAdd (by rwa [zero_add]), zero_add]

/-- After the roots in `done`: each reserve is what they added to it, and their charges
are right. -/
structure Passed (l : Ledger) (hl : WellFormed l) (done : List ℕ)
    (totals : ℕ → ℕ × ℕ) : Prop where
  reserve : ∀ i, i < l.roots.length →
    (totals i).1 = l.childSum (l.carving hl).charge done i
  charge : ∀ i ∈ done, (totals i).2 = (l.carving hl).charge (l.root i).path

theorem passRoot_charge {totals : ℕ → ℕ × ℕ} : (l.passRoot totals j i).2 = if i = j then
      max (l.quota j) (saturatingAdd (l.root j).held (totals j).1)
      else (totals i).2 := by
  have hupdate : ∀ charge, (update totals j ((totals j).1, charge) i).2 =
      if i = j then charge else (totals i).2 := by
    intro charge
    rw [update_apply]
    split <;> rfl
  rw [passRoot]
  split
  · exact hupdate _
  · rw [update_apply]
    split
    · rename_i hi
      rw [← hi]
      exact hupdate _
    · exact hupdate _

theorem passRoot_reserve {totals : ℕ → ℕ × ℕ} :
    (l.passRoot totals j i).1 = if j ≠ 0 ∧ l.above (l.root j).path = i then
      saturatingAdd (totals i).1
        (max (l.quota j) (saturatingAdd (l.root j).held (totals j).1))
      else (totals i).1 := by
  have hupdate : ∀ charge i, (update totals j ((totals j).1, charge) i).1 =
      (totals i).1 := by
    intro charge i
    rw [update_apply]
    split
    · rename_i hi
      rw [hi]
    · rfl
  rw [passRoot]
  split
  · rename_i hzero
    rw [if_neg fun h => h.1 hzero]
    exact hupdate _ i
  · rename_i hzero
    rw [update_apply]
    by_cases hi : i = l.above (l.root j).path
    · rw [if_pos hi, if_pos ⟨hzero, hi.symm⟩, ← hi, hupdate]
    · rw [if_neg hi, if_neg fun h => hi h.2.symm]
      exact hupdate _ i

/-- One root of the pass, once its children are done. -/
theorem Passed.root {hl : WellFormed l} {totals : ℕ → ℕ × ℕ}
    (hpassed : Passed l hl done totals) (hbound : (l.carving hl).charge [] ≤ maxU64)
    (hnodup : (done ++ [j]).Nodup) (hrange : ∀ k ∈ done ++ [j], k < l.roots.length)
    (hall : ∀ k, k < l.roots.length → k ≠ 0 → l.above (l.root k).path = j → k ∈ done) :
    Passed l hl (done ++ [j]) (l.passRoot totals j) := by
  have hj : j < l.roots.length :=
    hrange j (List.mem_append_right _ (List.mem_singleton_self j))
  have hdone : done.Nodup := (List.nodup_append.mp hnodup).1
  have hrangeDone : ∀ k ∈ done, k < l.roots.length := fun k hk =>
    hrange k (List.mem_append_left _ hk)
  have htop : ∀ i, i < l.roots.length →
      (l.carving hl).charge (l.root i).path ≤ maxU64 :=
    fun i hi => (charge_le_charge_top _ (path_mem_live hi)).trans hbound
  have hwithin : ∀ i, i < l.roots.length →
      (l.carving hl).held (l.root i).path + (l.carving hl).reserve (l.root i).path ≤
      maxU64 :=
    fun i hi => ((l.carving hl).held_add_reserve_le_charge _).trans (htop i hi)
  -- the charge it computes
  have hreserve : (totals j).1 = (l.carving hl).reserve (l.root j).path :=
    (hpassed.reserve j hj).trans (hl.childSum_all hdone hrangeDone hj hall)
  have hheld : (l.carving hl).held (l.root j).path = (l.root j).held :=
    hl.heldAt_of_mem (root_mem hj)
  have hcharge : max (l.quota j) (saturatingAdd (l.root j).held (totals j).1) =
      (l.carving hl).charge (l.root j).path := by
    rw [charge_eq, hheld, hreserve, hl.quota_eq hbound hj, saturatingAdd_eq]
    · rfl
    · rw [← hheld]
      exact hwithin j hj
  constructor
  · intro i hi
    have hsum := hl.childSum_le (l.carving hl).charge hnodup hrange hi
    rw [childSum_snoc] at hsum ⊢
    rw [passRoot_reserve, hcharge, hpassed.reserve i hi]
    split
    · rename_i hparent
      rw [if_pos hparent] at hsum
      exact saturatingAdd_eq (hsum.trans ((Nat.le_add_left _ _).trans (hwithin i hi)))
    · rfl
  · intro i hi
    rw [passRoot_charge, hcharge]
    split
    · rename_i heq
      rw [heq]
    · rename_i hne
      refine hpassed.charge i ((List.mem_append.mp hi).resolve_right fun hmem => hne ?_)
      exact List.mem_singleton.mp hmem

/-- The whole pass, in any order that puts longer paths first. -/
theorem Passed.run {hl : WellFormed l} {rest : List ℕ} {totals : ℕ → ℕ × ℕ}
    (hpassed : Passed l hl done totals) (hbound : (l.carving hl).charge [] ≤ maxU64)
    (hnodup : (done ++ rest).Nodup)
    (hrange : ∀ k, k ∈ done ++ rest ↔ k < l.roots.length)
    (hsorted : rest.Pairwise fun i j => (l.root j).path.length ≤
      (l.root i).path.length) :
    Passed l hl (done ++ rest) (rest.foldl l.passRoot totals) := by
  induction rest generalizing done totals with
  | nil =>
    rw [List.append_nil]
    exact hpassed
  | cons j rest ih =>
    have hsplit : done ++ j :: rest = (done ++ [j]) ++ rest := by simp
    rw [hsplit] at hnodup hrange ⊢
    obtain ⟨hfirst, hsorted⟩ := List.pairwise_cons.mp hsorted
    refine ih (hpassed.root hbound (List.nodup_append.mp hnodup).1
      (fun k hk => (hrange k).mp (List.mem_append_left _ hk)) fun k hk hzero habove =>
        ?_)
      hnodup hrange hsorted
    -- a child has a longer path, so it cannot be still to come
    have hlt := (hl.above_spec (mt (hl.path_eq_nil_iff hk).mp hzero)).2.length_lt
    rw [habove] at hlt
    rcases List.mem_append.mp ((hrange k).mpr hk) with hmem | hmem
    · rcases List.mem_append.mp hmem with hmem | hmem
      · exact hmem
      · rw [List.mem_singleton.mp hmem] at hlt
        exact absurd hlt (lt_irrefl _)
    · exact absurd (hfirst k hmem) (not_le.mpr hlt)

section

variable (hl : WellFormed l) (hbound : (l.carving hl).charge [] ≤ maxU64)
include hl hbound

/-- In whatever order the roots of one depth are taken, the pass comes to the reserves
and charges of the tree. -/
theorem WellFormed.pass_eq {order : List ℕ}
    (hperm : order.Perm (List.range l.roots.length))
    (hsorted : order.Pairwise fun i j => (l.root j).path.length ≤
      (l.root i).path.length)
    (hi : i < l.roots.length) : order.foldl l.passRoot (fun _ => (0, 0)) i =
      ((l.carving hl).reserve (l.root i).path,
        (l.carving hl).charge (l.root i).path) := by
  have hrange : ∀ k, k ∈ ([] ++ order) ↔ k < l.roots.length := fun k => by
    rw [List.nil_append, hperm.mem_iff, List.mem_range]
  have hnodup : ([] ++ order).Nodup := by
    exact hperm.nodup_iff.mpr List.nodup_range
  have hpassed : Passed l hl [] fun _ => (0, 0) :=
    ⟨fun _ _ => rfl, fun _ hmem => nomatch hmem⟩
  have hrun := hpassed.run hbound hnodup hrange hsorted
  refine Prod.ext ?_ (hrun.charge i ((hrange i).mpr hi))
  refine (hrun.reserve i hi).trans
    (hl.childSum_all hnodup (fun k => (hrange k).mp) hi ?_)
  exact fun k hk _ _ => (hrange k).mpr hk

/-- The totals are the reserves and charges of the tree. -/
theorem WellFormed.totals_eq (hi : i < l.roots.length) : l.totals i =
      ((l.carving hl).reserve (l.root i).path, (l.carving hl).charge (l.root i).path) :=
  hl.pass_eq hbound (List.perm_insertionSort _ _) (List.pairwise_insertionSort _ _) hi

/-! ### The recursive totals -/

/-- The live roots nearest below a directory. -/
def nearestBelow (l : Ledger) (dir : Path) : List ℕ :=
  (List.range l.roots.length).filter fun j =>
    dir ≠ (l.root j).path ∧ under (l.root j).path dir = true ∧
      ∀ q ∈ l.roots, q.path ≠ (l.root j).path → q.path ≠ dir →
        under (l.root j).path q.path = true → ¬ under q.path dir = true

/-- What they are charged together. -/
def chargeBelow (l : Ledger) (dir : Path) : ℕ :=
  ((l.nearestBelow dir).map fun j => (l.totals j).2).sum

omit hl hbound in
theorem mem_nearestBelow : j ∈ l.nearestBelow dir ↔
    j < l.roots.length ∧ IsNearest l.live dir (l.root j).path := by
  rw [nearestBelow, List.mem_filter, List.mem_range, decide_eq_true_iff]
  refine and_congr_right fun _ => ⟨fun hnear => ⟨hnear.1, hnear.2.1, ?_⟩,
    fun hnear => ⟨hnear.ne, hnear.under, ?_⟩⟩
  · intro q hq
    obtain ⟨r, hr, rfl⟩ := mem_live.mp hq
    exact hnear.2.2 r hr
  · exact fun r hr => hnear.between r.path (mem_live.mpr ⟨r, hr, rfl⟩)

theorem WellFormed.chargeBelow_eq {below : Finset Path} (hbelow : below ⊆ l.live)
    (hnear : ∀ path ∈ l.live, IsNearest l.live dir path ↔ path ∈ below) :
    l.chargeBelow dir = ∑ path ∈ below, (l.carving hl).charge path := by
  have hset : ((l.nearestBelow dir).map fun j => (l.root j).path).toFinset = below := by
    ext path
    rw [List.mem_toFinset, List.mem_map]
    constructor
    · rintro ⟨j, hj, rfl⟩
      obtain ⟨hlt, hj⟩ := mem_nearestBelow.mp hj
      exact (hnear _ (path_mem_live hlt)).mp hj
    · intro hpath
      obtain ⟨r, hr, rfl⟩ := mem_live.mp (hbelow hpath)
      obtain ⟨j, hlt, rfl⟩ := exists_index hr
      exact ⟨j, mem_nearestBelow.mpr ⟨hlt, (hnear _ (hbelow hpath)).mpr hpath⟩, rfl⟩
  have hnodup : ((l.nearestBelow dir).map fun j => (l.root j).path).Nodup := by
    refine (List.nodup_range.filter _).map_on fun j hj k hk heq => ?_
    exact hl.index_eq (mem_nearestBelow.mp hj).1 (mem_nearestBelow.mp hk).1 heq
  rw [← hset, List.sum_toFinset _ hnodup, List.map_map]
  refine congrArg List.sum (List.map_congr_left fun j hj => ?_)
  rw [hl.totals_eq hbound (mem_nearestBelow.mp hj).1]
  rfl

/-- The totals are the recursive ones. -/
theorem WellFormed.totals_recursive (hi : i < l.roots.length) :
    (l.totals i).1 = l.chargeBelow (l.root i).path ∧
      (l.totals i).2 = max (l.quota i) ((l.root i).held + (l.totals i).1) := by
  constructor
  · have hnear : ∀ path ∈ l.live, IsNearest l.live (l.root i).path path ↔
        path ∈ (l.carving hl).children (l.root i).path := fun path hpath => by
      rw [isNearest_iff_of_mem hl.nil_mem (path_mem_live hi), mem_children]
      exact ⟨fun hchild => ⟨hpath, hchild⟩, fun hchild => hchild.2⟩
    rw [hl.totals_eq hbound hi, hl.chargeBelow_eq hbound (filter_subset _ _) hnear]
    rfl
  · rw [hl.totals_eq hbound hi, hl.quota_eq hbound hi, ← hl.heldAt_of_mem (root_mem hi)]
    exact charge_eq _ _

/-- What a directory not yet live would reserve. -/
theorem WellFormed.chargeBelow_new (hdir : dir ∉ l.live) :
    l.chargeBelow dir = ∑ path ∈ lowered l.live dir, (l.carving hl).charge path :=
  hl.chargeBelow_eq hbound (filter_subset _ _) fun _ hpath =>
    isNearest_iff_of_notMem hl.nil_mem hdir hpath

end

end Redoubt.Quota.Ledger
