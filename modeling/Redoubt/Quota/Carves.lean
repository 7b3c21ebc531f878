import Redoubt.Quota.Steps

/-!
# What each call leaves

A root that grows within its quota, a mint at a live root and a mint that makes a
directory live change one node of the tree: every other root holds, reserves and is
charged what it was.  A root gone gives its parent what it held, and no charge grows.
-/

namespace Redoubt.Quota.Ledger

open Finset Vectors Function Carving

variable {l l' : Ledger} {i : ℕ} {r : Root} {path : Path}

theorem carving_eq_tree (hl : WellFormed l) {live : Finset Path} (hlive : l.live = live)
    (hnil : [] ∈ live) : l.carving hl = tree live hnil l.quotaAt l.heldAt := by
  subst hlive
  rfl

theorem children_eq (hl : WellFormed l) (hl' : WellFormed l')
    (hlive : l'.live = l.live) (k : Path) :
    (l'.carving hl').children k = (l.carving hl).children k := by
  rw [carving_eq_tree hl' hlive hl.nil_mem]
  rfl

/-! ### What a root holds -/

section Change

variable (hl : WellFormed l) (hbound : (l.carving hl).charge [] ≤ maxU64)
    (hi : i < l.roots.length)
  {more less : ℕ}
include hl hi

theorem WellFormed.change : WellFormed (l.change i more less) := by
  rw [change_eq hi]
  exact hl.setHeld _ _

omit hl in
theorem live_change : (l.change i more less).live = l.live := by
  rw [change_eq hi, live_setHeld]

theorem WellFormed.quotaAt_change : (l.change i more less).quotaAt = l.quotaAt := by
  rw [change_eq hi, hl.quotaAt_setHeld hi]

theorem WellFormed.heldAt_change : (l.change i more less).heldAt =
    update l.heldAt (l.root i).path (saturatingAdd (l.root i).held more - less) := by
  rw [change_eq hi, hl.heldAt_setHeld hi]

include hbound in
/-- Growth that fits changes no charge. -/
theorem WellFormed.charge_grow {memory : Bool}
    (hfits : l.fits i (more - less) memory = true) :
    ∀ k ∈ l.live, ((l.change i more less).carving (hl.change hi)).charge k =
      (l.carving hl).charge k := by
  have hspec := fits_spec hfits
  rw [hl.quota_eq hbound hi, hl.totals_eq hbound hi,
    ← hl.heldAt_of_mem (root_mem hi)] at hspec
  refine Carving.charge_grow (i := (l.root i).path) (live_change hi)
    (children_eq _ _ (live_change hi))
    (fun k => congrFun (hl.quotaAt_change hi) k) (fun k hk => ?_) ?_ ?_
  · change (l.change i more less).heldAt k = l.heldAt k
    rw [hl.heldAt_change hi, update_of_ne hk]
  · exact le_trans (Nat.le_add_right _ _) hspec
  · change (l.change i more less).heldAt _ + _ ≤ _
    rw [hl.heldAt_change hi, update_self, ← hl.heldAt_of_mem (root_mem hi)]
    have hsum : saturatingAdd (l.heldAt (l.root i).path) more ≤
        l.heldAt (l.root i).path + more :=
      min_le_left _ _
    have hspec : l.heldAt (l.root i).path + (l.carving hl).reserve (l.root i).path +
        (more - less) ≤
      (l.carving hl).quota (l.root i).path := hspec
    omega

/-- A root that holds less, or as much, raises no charge. -/
theorem WellFormed.charge_shrink (hless : more ≤ less) :
    ∀ k ∈ l.live, ((l.change i more less).carving (hl.change hi)).charge k ≤
      (l.carving hl).charge k := by
  refine charge_le_of_le (live_change hi) (children_eq _ _ (live_change hi))
    (fun k => (congrFun (hl.quotaAt_change hi) k).le) fun k => ?_
  change (l.change i more less).heldAt k ≤ l.heldAt k
  rw [hl.heldAt_change hi, update_apply]
  split_ifs with hk
  · have hsum : saturatingAdd (l.root i).held more ≤ (l.root i).held + more :=
      min_le_left _ _
    rw [hk, hl.heldAt_of_mem (root_mem hi)]
    omega
  · exact le_rfl

end Change

/-! ### A connection at a live root -/

theorem WellFormed.path_eq_of_find (hl : WellFormed l) (hr : r ∈ l.roots)
    (hid : (l.find path).map Root.id = some r.id) : path = r.path := by
  obtain ⟨s, hfind, hid⟩ := Option.map_eq_some_iff.mp hid
  have hs := List.mem_of_find?_eq_some hfind
  have hpath :=
    of_decide_eq_true
      (List.find?_some (p := fun r : Root => decide (r.path = path)) hfind)
  rw [← hpath, List.inj_on_of_nodup_map hl.ids hs hr hid]

theorem WellFormed.quotaAt_connect_of_ne (hl : WellFormed l) (badge quota : ℕ)
    (hr : r ∈ l.roots)
    (hne : r.path ≠ []) : (l.connect badge r.id quota).quotaAt =
      update l.quotaAt r.path (l.quotaAt r.path + quota) := by
  funext k
  rw [quotaAt_connect, update_apply]
  by_cases hk : k = r.path
  · have hroot : k ≠ [] ∧ (l.find k).map Root.id = some r.id := by
      rw [hk, hl.find_of_mem hr]
      exact ⟨hne, rfl⟩
    rw [if_pos hroot, if_pos hk, hk]
  · rw [if_neg fun hroot => hk (hl.path_eq_of_find hr hroot.2), if_neg hk, add_zero]

/-- A connection at the volume's root carves nothing. -/
theorem WellFormed.quotaAt_connect_volume (hl : WellFormed l) (badge quota : ℕ) :
    (l.connect badge (l.root 0).id quota).quotaAt = l.quotaAt := by
  funext k
  have hother : ¬ (k ≠ [] ∧ (l.find k).map Root.id = some (l.root 0).id) := by
    rintro ⟨hk, hid⟩
    exact hk ((hl.path_eq_of_find (root_mem hl.length_pos) hid).trans hl.root_zero)
  rw [quotaAt_connect, if_neg hother, add_zero]

theorem above_nil : l.above [] = 0 := by
  have hnone : (l.roots.zipIdx.filter fun r => r.1.path != [] && under [] r.1.path) =
      [] := by
    refine List.filter_eq_nil_iff.mpr fun r _ hr => ?_
    rw [Bool.and_eq_true, bne_iff_ne] at hr
    exact absurd (length_lt_of_under hr.2 hr.1) (Nat.not_lt_zero _)
  rw [above, nearest, hnone]
  rfl

/-- What a mint at another root than the granter's own leaves: all roots but the parent
hold and reserve what they did, and the parent is within its quota. -/
structure Carved (l l' : Ledger) (hl : WellFormed l) (hl' : WellFormed l')
    (parent : Path) : Prop where
  live : l.live ⊆ l'.live
  allHeld : l'.allHeld = l.allHeld
  charge : (l'.carving hl').charge [] ≤ (l.carving hl).charge []
  others : ∀ k ∈ l.live, k ≠ parent →
    l'.heldAt k = l.heldAt k ∧ (l'.carving hl').reserve k = (l.carving hl).reserve k
  within : l'.heldAt parent + (l'.carving hl').reserve parent ≤ l'.quotaAt parent

theorem heldAt_connect (badge id quota : ℕ) :
    (l.connect badge id quota).heldAt = l.heldAt := rfl

theorem WellFormed.carved_volume (hl : WellFormed l)
    (hbound : (l.carving hl).charge [] ≤ maxU64)
    {badge quota need : ℕ} (hl' : WellFormed (l.connect badge (l.root 0).id quota))
    (hfits : (l.root 0).held + (l.totals 0).1 + need ≤ l.quota 0) :
    Carved l (l.connect badge (l.root 0).id quota) hl hl' [] := by
  have hsame : (l.connect badge (l.root 0).id quota).carving hl' = l.carving hl :=
    carving_congr hl hl' rfl (hl.quotaAt_connect_volume _ _) rfl
  have hheld := hl.heldAt_of_mem (root_mem hl.length_pos)
  rw [hl.totals_eq hbound hl.length_pos, ← hheld,
    hl.root_zero] at hfits
  refine ⟨subset_rfl, rfl, ?_, fun k _ _ => ⟨rfl, ?_⟩, ?_⟩
  · rw [hsame]
  · rw [hsame]
  · rw [hsame]
    exact le_trans (Nat.le_add_right _ _) hfits

theorem WellFormed.held_add_reserve_le (hl : WellFormed l) (hi : i < l.roots.length) :
    (l.root i).held + (l.carving hl).reserve (l.root i).path ≤
    (l.carving hl).charge [] := by
  rw [← hl.heldAt_of_mem (root_mem hi)]
  calc
    _ ≤ (l.carving hl).charge (l.root i).path := held_add_reserve_le_charge _
    _ ≤ (l.carving hl).charge [] := charge_le_charge_top _ (path_mem_live hi)

section Live

variable (hl : WellFormed l) (hi : i < l.roots.length) (hne : i ≠ 0) {badge quota : ℕ}
  (hl' : WellFormed (l.connect badge (l.root i).id quota))
  (hfits : (l.root (l.above (l.root i).path)).held +
      (l.carving hl).reserve (l.root (l.above (l.root i).path)).path +
      (max (l.quotaAt (l.root i).path + quota)
        ((l.root i).held + (l.carving hl).reserve (l.root i).path) -
      (l.carving hl).charge (l.root i).path) ≤
      l.quotaAt (l.root (l.above (l.root i).path)).path)
include hi hne

theorem WellFormed.parent_eq :
    (l.carving hl).parent (l.root i).path =
    (l.root (l.above (l.root i).path)).path := by
  have hnil : (l.root i).path ≠ [] := fun hnil => hne ((hl.path_eq_nil_iff hi).mp hnil)
  exact (hl.above_spec hnil).2.eq_parentIn hl.nil_mem

include hfits in
theorem WellFormed.charge_connect :
    ∀ k ∈ l.live, ((l.connect badge (l.root i).id quota).carving hl').charge k =
      update (l.carving hl).charge (l.root i).path
        (max (l.quotaAt (l.root i).path + quota)
          ((l.root i).held + (l.carving hl).reserve (l.root i).path)) k := by
  have hnil : (l.root i).path ≠ [] := fun hnil => hne ((hl.path_eq_nil_iff hi).mp hnil)
  have hparent := (hl.above_spec hnil).1
  have hquota := hl.quotaAt_connect_of_ne badge quota (root_mem hi) hnil
  have hquotaSelf : (l.connect badge (l.root i).id quota).quotaAt (l.root i).path =
      l.quotaAt (l.root i).path + quota := by rw [hquota, update_self]
  rw [← hl.heldAt_of_mem (root_mem hi), ← hl.heldAt_of_mem (root_mem hparent),
    ← hquotaSelf,
    ← hl.parent_eq hi hne] at hfits
  rw [← hl.heldAt_of_mem (root_mem hi), ← hquotaSelf]
  refine charge_raise (c := l.carving hl) rfl (children_eq hl hl' rfl)
    (path_mem_live hi) hnil
    (fun k hk => ?_) ?_ (fun _ => rfl) hfits
  · exact (congrFun hquota k).trans (update_of_ne hk _ _)
  · exact (Nat.le_add_right _ _).trans_eq hquotaSelf.symm

include hfits in
theorem WellFormed.carved_live :
    Carved l (l.connect badge (l.root i).id quota) hl hl'
      (l.root (l.above (l.root i).path)).path := by
  have hcharge := hl.charge_connect hi hne hl' hfits
  have hchildren := children_eq hl hl' rfl
  have hparentEq := hl.parent_eq hi hne
  have hnil : (l.root i).path ≠ [] := fun hnil => hne ((hl.path_eq_nil_iff hi).mp hnil)
  obtain ⟨hparent, hisParent⟩ := hl.above_spec hnil
  have hmem : ∀ k, (l.root i).path ∈ (l.carving hl).children k ↔
      k = (l.root (l.above (l.root i).path)).path := fun k => by
    rw [mem_children, hparentEq]
    exact ⟨fun hchild => hchild.2.2.symm, fun hk => ⟨path_mem_live hi, hnil, hk.symm⟩⟩
  refine ⟨subset_rfl, rfl, ?_, fun k _ hk => ⟨rfl, ?_⟩, ?_⟩
  · rw [hcharge [] hl.nil_mem, update_of_ne hnil.symm]
  · exact reserve_of_update (hchildren k) hcharge fun hchild => hk ((hmem k).mp hchild)
  · have hreserve := reserve_parent_of_update (hchildren _) hcharge ((hmem _).mpr rfl)
    rw [hl.quotaAt_connect_of_ne _ _ (root_mem hi) hnil, update_of_ne hisParent.ne,
      heldAt_connect, hl.heldAt_of_mem (root_mem hparent)]
    omega

end Live

/-! ### A directory goes live -/

theorem addRoot_eq {parent left id held : ℕ} : l.addRoot parent left id path held =
      (l.setHeld parent left).pushRoot { id := id, path := path, held := held } := rfl

section New

variable (hl : WellFormed l) (hlive : path ∉ l.live) {parent badge id quota held : ℕ}
  (hid : ∀ r ∈ l.roots, r.id ≠ id) (hparent : parent < l.roots.length)
  (hparentPath : (l.root parent).path = parentIn l.live path)
  (hheld : held ≤ (l.root parent).held)
include hl hlive hid

/-- The ledger after a directory that held `held` goes live below `parent`. -/
def carveRoot (l : Ledger) (parent badge id : ℕ) (path : Path)
    (quota held : ℕ) : Ledger :=
  (l.addRoot parent ((l.root parent).held - held) id path held).connect badge id quota

omit hl hlive hid in
theorem live_carveRoot :
    (l.carveRoot parent badge id path quota held).live = insert path l.live := by
  change ((l.setHeld parent _).pushRoot _).live = _
  rw [live_pushRoot, live_setHeld]

variable (parent) in
theorem WellFormed.pushRoot_setHeld (left : ℕ) :
    WellFormed (l.setHeld parent left) ∧ path ∉ (l.setHeld parent left).live ∧
      ∀ s ∈ (l.setHeld parent left).roots, s.id ≠ id := by
  refine ⟨hl.setHeld _ _, by rwa [live_setHeld], fun s hs heq => ?_⟩
  have hmem : s.id ∈ (l.setHeld parent left).roots.map Root.id := List.mem_map_of_mem hs
  rw [map_setHeld Root.id fun _ _ => rfl] at hmem
  obtain ⟨r, hr, hrs⟩ := List.mem_map.mp hmem
  exact hid r hr (hrs.trans heq)

theorem WellFormed.carveRoot :
    WellFormed (l.carveRoot parent badge id path quota held) := by
  obtain ⟨hset, hpath, hids⟩ :=
    hl.pushRoot_setHeld hlive parent hid ((l.root parent).held - held)
  exact WellFormed.connect (WellFormed.pushRoot hset hpath hids) _ _
    ⟨_, List.mem_concat_self, rfl⟩

include hparent in
theorem WellFormed.heldAt_carveRoot :
    (l.carveRoot parent badge id path quota held).heldAt =
    update (update l.heldAt (l.root parent).path ((l.root parent).held - held))
      path held := by
  obtain ⟨hset, hpath, hids⟩ :=
    hl.pushRoot_setHeld hlive parent hid ((l.root parent).held - held)
  rw [Ledger.carveRoot, addRoot_eq, heldAt_connect, hset.heldAt_pushRoot hpath hids,
    hl.heldAt_setHeld hparent]

include hparent in
theorem WellFormed.quotaAt_carveRoot :
    (l.carveRoot parent badge id path quota held).quotaAt =
    update l.quotaAt path quota := by
  obtain ⟨hset, hpath, hids⟩ :=
    hl.pushRoot_setHeld hlive parent hid ((l.root parent).held - held)
  have hpush :
      WellFormed (l.addRoot parent ((l.root parent).held - held) id path held) :=
    hset.pushRoot hpath hids
  have hquota : (l.addRoot parent ((l.root parent).held - held) id path held).quotaAt =
      l.quotaAt :=
    (hset.quotaAt_pushRoot (r := ⟨id, path, held⟩) hpath hids).trans
      (hl.quotaAt_setHeld hparent _)
  have hnew : (⟨id, path, held⟩ : Root) ∈
      (l.addRoot parent ((l.root parent).held - held) id path held).roots :=
        List.mem_concat_self
  have hnil : path ≠ [] := ne_nil_of_notMem hl.nil_mem hlive
  have hconnect := hpush.quotaAt_connect_of_ne badge quota hnew hnil
  rw [hquota, quotaAt_of_notMem hl hlive, zero_add] at hconnect
  exact hconnect

end New

section Lower

variable (hl : WellFormed l) (hl' : WellFormed l') (hlive : path ∉ l.live)
  (hlive' : l'.live = insert path l.live) {quota held : ℕ}
  (hquota : l'.quotaAt = update l.quotaAt path quota)
  (hheld : l'.heldAt = update
    (update l.heldAt (parentIn l.live path) (l.heldAt (parentIn l.live path) - held))
    path held)
  (hpart : held ≤ l.heldAt (parentIn l.live path))
  (hfits : l.heldAt (parentIn l.live path) - held +
      ((l.carving hl).reserve (parentIn l.live path) -
        ∑ j ∈ lowered l.live path, (l.carving hl).charge j) +
    max quota (held + ∑ j ∈ lowered l.live path, (l.carving hl).charge j) ≤
      l.quotaAt (parentIn l.live path))
include hl hl' hlive hlive' hheld hpart

omit hlive' hpart in
theorem WellFormed.held_lower : (l'.carving hl').held path = held ∧
    (l'.carving hl').held (parentIn l.live path) =
    l.heldAt (parentIn l.live path) - held := by
  have hparent := isParent_parentIn hl.nil_mem (ne_nil_of_notMem hl.nil_mem hlive)
  change l'.heldAt path = held ∧ l'.heldAt (parentIn l.live path) = _
  rw [hheld]
  exact ⟨update_self _ _ _, by rw [update_of_ne hparent.ne, update_self]⟩

/-- What the new root holds has left its parent. -/
theorem WellFormed.allHeld_lower : l'.allHeld = l.allHeld := by
  have hmem := (isParent_parentIn hl.nil_mem (ne_nil_of_notMem hl.nil_mem hlive)).mem
  have hsum : ∑ k ∈ l.live, update l.heldAt (parentIn l.live path)
      (l.heldAt (parentIn l.live path) - held) k + held = ∑ k ∈ l.live, l.heldAt k := by
    rw [sum_update_of_mem hmem, ← add_sum_erase _ _ hmem, erase_eq]
    omega
  rw [hl'.allHeld_eq, hl.allHeld_eq, hlive', sum_insert hlive, hheld, update_self,
    sum_update_of_notMem hlive, ← hsum, add_comm]

include hquota hfits

/-- A new root between the parent and the roots lowered to it, that holds part of what
the parent held. -/
theorem WellFormed.charge_lower : ∀ k ∈ insert path l.live, (l'.carving hl').charge k =
    update (l.carving hl).charge path
      (max quota (held + ∑ j ∈ lowered l.live path, (l.carving hl).charge j)) k := by
  have hparent := isParent_parentIn hl.nil_mem (ne_nil_of_notMem hl.nil_mem hlive)
  have htree := carving_eq_tree hl' hlive' (mem_insert_of_mem hl.nil_mem)
  obtain ⟨hheldNew, hheldParent⟩ := hl.held_lower hl' hlive hheld
  have hquotaNew : (l'.carving hl').quota path = quota := by
    change l'.quotaAt path = quota
    rw [hquota, update_self]
  have hnodes : (l'.carving hl').nodes = insert path (l.carving hl).nodes := hlive'
  rw [← hlive', ← hquotaNew, ← hheldNew]
  refine charge_insert (c := l.carving hl) hlive hparent.mem
    (lowered_subset hl.nil_mem) hnodes (fun k hkm hkp => ?_) ?_ ?_ (fun k hk => ?_)
    (fun k hkm hkp => ?_) ?_ ?_
  · rw [htree]
    exact children_insert_of_ne hl.nil_mem hlive hkm hkp
  · rw [htree]
    exact children_insert_self hl.nil_mem hlive
  · rw [htree]
    exact children_insert_parent hl.nil_mem hlive
  · change l'.quotaAt k = l.quotaAt k
    rw [hquota, update_of_ne hk]
  · change l'.heldAt k = l.heldAt k
    rw [hheld, update_of_ne hkm, update_of_ne hkp]
  · rw [hheldParent, hheldNew]
    exact Nat.sub_add_cancel hpart
  · rw [hheldParent, hheldNew, hquotaNew]
    exact hfits

theorem WellFormed.carved_lower : Carved l l' hl hl' (parentIn l.live path) := by
  have hnil := ne_nil_of_notMem hl.nil_mem hlive
  have hparent := isParent_parentIn hl.nil_mem hnil
  have htree := carving_eq_tree hl' hlive' (mem_insert_of_mem hl.nil_mem)
  have hcharge := hl.charge_lower hl' hlive hlive' hquota hheld hpart hfits
  have hold : ∀ k ∈ l.live, (l'.carving hl').charge k = (l.carving hl).charge k :=
    fun k hk => by
    have hne : k ≠ path := fun heq => hlive (heq ▸ hk)
    rw [hcharge k (mem_insert_of_mem hk), update_of_ne hne]
  refine ⟨?_, hl.allHeld_lower hl' hlive hlive' hheld hpart, (hold [] hl.nil_mem).le,
    fun k hk hkp => ?_, ?_⟩
  · rw [hlive']
    exact subset_insert _ _
  · have hkm : k ≠ path := fun heq => hlive (heq ▸ hk)
    constructor
    · rw [hheld, update_of_ne hkm, update_of_ne hkp]
    · have hchildren : (l'.carving hl').children k = (l.carving hl).children k := by
        rw [htree]
        exact children_insert_of_ne hl.nil_mem hlive hkm hkp
      rw [Carving.reserve, hchildren]
      exact sum_congr rfl fun j hj => hold j (Carving.mem_children.mp hj).1
  · have hchildren : (l'.carving hl').children (parentIn l.live path) = insert path
        ((l.carving hl).children (parentIn l.live path) \ lowered l.live path) := by
      rw [htree]
      exact children_insert_parent hl.nil_mem hlive
    have hnew := hcharge path (mem_insert_self _ _)
    rw [update_self] at hnew
    have hreserve :=
      Carving.reserve_insert (c := l.carving hl) hlive (lowered_subset hl.nil_mem)
      hchildren hnew hold
    have hheldParent : l'.heldAt (parentIn l.live path) =
        l.heldAt (parentIn l.live path) - held :=
      (hl.held_lower hl' hlive hheld).2
    have hquotaParent : l'.quotaAt (parentIn l.live path) =
        l.quotaAt (parentIn l.live path) := by
      rw [hquota, update_of_ne hparent.ne]
    omega

end Lower

/-- A directory goes live below the live root nearest above it. -/
theorem WellFormed.carved_new (hl : WellFormed l)
    (hbound : (l.carving hl).charge [] ≤ maxU64)
    (hlive : path ∉ l.live) {badge id quota held : ℕ} (hid : ∀ r ∈ l.roots, r.id ≠ id)
    (hheld : held ≤ (l.root (l.above path)).held)
    (hfits : (l.root (l.above path)).held - held +
        ((l.totals (l.above path)).1 - l.chargeBelow path) +
        max quota (saturatingAdd held (l.chargeBelow path)) ≤ l.quota (l.above path)) :
    ∃ hl' : WellFormed (l.carveRoot (l.above path) badge id path quota held),
      Carved l _ hl hl' (l.root (l.above path)).path := by
  obtain ⟨hparent, hisParent⟩ := hl.above_spec (ne_nil_of_notMem hl.nil_mem hlive)
  have hparentPath : (l.root (l.above path)).path = parentIn l.live path :=
    (hisParent.eq_parentIn hl.nil_mem).symm
  have hroom := (hl.held_add_reserve_le hparent).trans hbound
  have hquotaNew : (l.carveRoot (l.above path) badge id path quota held).quotaAt = _ :=
    hl.quotaAt_carveRoot hlive hid hparent
  have hheldNew : (l.carveRoot (l.above path) badge id path quota held).heldAt = _ :=
    hl.heldAt_carveRoot hlive hid hparent
  rw [hl.totals_eq hbound hparent, hl.quota_eq hbound hparent,
    hl.chargeBelow_new hbound hlive] at hfits
  rw [← hl.heldAt_of_mem (root_mem hparent), hparentPath] at hfits hheld hroom hheldNew
  have hlow : ∑ j ∈ lowered l.live path, (l.carving hl).charge j ≤
      (l.carving hl).reserve (parentIn l.live path) :=
    sum_le_sum_of_subset (lowered_subset hl.nil_mem)
  rw [saturatingAdd_eq ((Nat.add_le_add hheld hlow).trans hroom)] at hfits
  refine ⟨hl.carveRoot hlive hid, ?_⟩
  rw [hparentPath]
  exact hl.carved_lower _ hlive live_carveRoot hquotaNew hheldNew hheld hfits

/-! ### Mints -/

/-- A mint's arguments are the directory's own: its id and path name one directory, and
the count is of what it holds and of the live roots nearest below it. -/
structure Exact (l : Ledger) (id : ℕ) (path : Path)
    (count : Option (ℕ × ℕ)) : Prop where
  names : ∀ r ∈ l.roots, r.id = id ↔ r.path = path
  held : ∀ held reserve, count = some (held, reserve) →
    held ≤ (l.root (l.above path)).held
  reserve : ∀ held reserve, count = some (held, reserve) → reserve = l.chargeBelow path

theorem find_id {id : ℕ} (hfind : l.roots.findIdx? (fun r => r.id = id) = some i) :
    i < l.roots.length ∧ (l.root i).id = id := by
  obtain ⟨hlt, hid, -⟩ := List.findIdx?_eq_some_iff_getElem.mp hfind
  rw [root_eq hlt]
  exact ⟨hlt, of_decide_eq_true hid⟩

theorem ne_of_find_id {id : ℕ} (hfind : l.roots.findIdx? (fun r => r.id = id) = none) :
    ∀ r ∈ l.roots, r.id ≠ id := by
  intro r hr heq
  exact absurd (decide_eq_true heq)
    (Bool.eq_false_iff.mp (List.findIdx?_eq_none_iff.mp hfind r hr))

section Mint

variable (hl : WellFormed l) (hbound : (l.carving hl).charge [] ≤ maxU64)
  {granter badge id quota : ℕ} {count : Option (ℕ × ℕ)} {memory : Bool}
  (hmint : l.mint granter badge id path quota count memory = some l')

theorem WellFormed.rootOf_mem (hl : WellFormed l) (granter : ℕ) :
    ∃ r ∈ l.roots, r.id = l.rootOf granter := by
  rw [rootOf]
  cases hfind : l.conns.find? fun c => c.badge = granter with
  | none =>
    obtain ⟨held, rest, hroots⟩ := hl.first
    exact ⟨_, hroots ▸ List.mem_cons_self, rfl⟩
  | some c => exact hl.served c (List.mem_of_find?_eq_some hfind)

include hmint

/-- A mint at the granter's own root leaves the tree as it was. -/
theorem WellFormed.mint_own_carving (hown : id = l.rootOf granter) :
    ∃ hl' : WellFormed l', l'.carving hl' = l.carving hl ∧ l'.roots = l.roots := by
  obtain ⟨rfl, rfl⟩ := mint_own hmint hown
  have hl' := hl.connect badge 0 (hown ▸ hl.rootOf_mem granter)
  refine ⟨hl', carving_congr hl hl' rfl ?_ rfl, rfl⟩
  funext k
  rw [quotaAt_connect, ite_self, add_zero]

include hbound

theorem WellFormed.mint_carved (hown : id ≠ l.rootOf granter)
    (hexact : l.Exact id path count) :
    ∃ hl' : WellFormed l', Carved l l' hl hl' (l.root (l.above path)).path := by
  cases hfind : l.roots.findIdx? fun r => r.id = id with
  | some i =>
    obtain ⟨hfits, rfl⟩ := mint_live hmint hown hfind
    obtain ⟨hi, rfl⟩ := find_id hfind
    have hpath : (l.root i).path = path := (hexact.names _ (root_mem hi)).mp rfl
    have hl' := hl.connect badge quota ⟨_, root_mem hi, rfl⟩
    refine ⟨hl', ?_⟩
    subst hpath
    by_cases hzero : i = 0
    · subst hzero
      rw [hl.root_zero, above_nil] at hfits ⊢
      rw [hl.root_zero]
      exact hl.carved_volume hbound hl' hfits
    · have hnil : (l.root i).path ≠ [] := fun hnil =>
        hzero ((hl.path_eq_nil_iff hi).mp hnil)
      have hparent := (hl.above_spec hnil).1
      have hroom := (hl.held_add_reserve_le hi).trans hbound
      rw [hl.totals_eq hbound hi, hl.totals_eq hbound hparent, hl.quota_eq hbound hi,
        hl.quota_eq hbound hparent, saturatingAdd_eq hroom] at hfits
      exact hl.carved_live hi hzero hl' hfits
  | none =>
    obtain ⟨held, reserve, hcount, hfits, rfl⟩ := mint_new hmint hown hfind
    have hid := ne_of_find_id hfind
    have hlive : path ∉ l.live := fun hmem => by
      obtain ⟨r, hr, hpath⟩ := mem_live.mp hmem
      exact hid r hr ((hexact.names r hr).mpr hpath)
    rw [hexact.reserve _ _ hcount] at hfits
    exact hl.carved_new hbound hlive hid (hexact.held _ _ hcount) hfits

end Mint

/-! ### Disconnects -/

/-- Root `i` goes, and what it held returns to the root above it. -/
def release (l : Ledger) (i : ℕ) : Ledger :=
  let rest := l.removeRoot i
  { rest with roots := rest.roots.modify (rest.holder (l.root i).path) fun r =>
      { r with held := saturatingAdd r.held (l.root i).held } }

/-- What a disconnect does: nothing, or one connection goes, or with it its root. -/
theorem disconnect_cases (l : Ledger) (badge : ℕ) :
    l.disconnect badge = l ∨ ∃ c, c < l.conns.length ∧
      (l.disconnect badge = l.dropConn c ∨
        ∃ i, (l.dropConn c).Unserved i ∧
        l.disconnect badge = (l.dropConn c).release i) := by
  rw [disconnect]
  cases hconn : l.conns.findIdx? fun c => c.badge = badge with
  | none => exact Or.inl rfl
  | some c =>
    have hc : c < l.conns.length := (List.findIdx?_eq_some_iff_getElem.mp hconn).1
    refine Or.inr ⟨c, hc, ?_⟩
    generalize hroot : (l.conns.getD c ⟨0, 0, 0⟩).root = root
    cases hfind : l.roots.findIdx? fun r => r.id = root with
    | none =>
      left
      simp only [hroot, hfind]
      rfl
    | some i =>
      obtain ⟨hi, hid⟩ := find_id hfind
      simp only [hroot, hfind]
      by_cases hzero : i = 0
      · rw [if_pos hzero]
        exact Or.inl rfl
      · rw [if_neg hzero]
        by_cases hlast : ((swapRemove l.conns c).all fun conn => conn.root ≠ root) =
          true
        · rw [if_pos hlast]
          refine Or.inr ⟨i, ⟨hi, hzero, fun conn hmem => ?_⟩, rfl⟩
          exact hid ▸ of_decide_eq_true (List.all_eq_true.mp hlast conn hmem)
        · rw [if_neg hlast]
          exact Or.inl rfl

/-- What a disconnect leaves: no root is charged more, or holds and reserves more. -/
structure Released (l l' : Ledger) (hl : WellFormed l)
    (hl' : WellFormed l') : Prop where
  live : l'.live ⊆ l.live
  allHeld : l'.allHeld = l.allHeld
  charge : ∀ k ∈ l'.live, (l'.carving hl').charge k ≤ (l.carving hl).charge k
  used : ∀ k ∈ l'.live, l'.heldAt k + (l'.carving hl').reserve k ≤
    l.heldAt k + (l.carving hl).reserve k

theorem Released.refl (hl : WellFormed l) : Released l l hl hl :=
  ⟨subset_rfl, rfl, fun _ _ => le_rfl, fun _ _ => le_rfl⟩

theorem Released.trans {l'' : Ledger} {hl : WellFormed l} {hl' : WellFormed l'}
    {hl'' : WellFormed l''}
    (hfirst : Released l l' hl hl') (hnext : Released l' l'' hl' hl'') :
    Released l l'' hl hl'' where
  live := hnext.live.trans hfirst.live
  allHeld := hnext.allHeld.trans hfirst.allHeld
  charge := fun k hk => (hnext.charge k hk).trans (hfirst.charge k (hnext.live hk))
  used := fun k hk => (hnext.used k hk).trans (hfirst.used k (hnext.live hk))

theorem WellFormed.released_dropConn (hl : WellFormed l) {c : ℕ}
    (hc : c < l.conns.length) :
    Released l (l.dropConn c) hl (hl.dropConn hc) := by
  have hchildren := children_eq hl (hl.dropConn hc) rfl
  have hcharge : ∀ k ∈ l.live, ((l.dropConn c).carving (hl.dropConn hc)).charge k ≤
      (l.carving hl).charge k :=
    charge_le_of_le (c := l.carving hl) rfl hchildren (quotaAt_dropConn_le hc) fun _ =>
      le_rfl
  refine ⟨subset_rfl, rfl, hcharge, fun k _ => ?_⟩
  exact Nat.add_le_add_left (reserve_le_of_le hchildren hcharge k) _

/-- Together the roots hold no more than the volume's root is charged. -/
theorem WellFormed.allHeld_le (hl : WellFormed l) :
    l.allHeld ≤ (l.carving hl).charge [] := by
  rw [hl.allHeld_eq]
  exact (l.carving hl).sum_held_le.trans ((l.carving hl).held_add_reserve_le_charge [])

section Release

variable (hl : WellFormed l) (hbound : (l.carving hl).charge [] ≤ maxU64)
    (hgone : l.Unserved i)
include hgone

theorem Unserved.allHeld_removeRoot :
    (l.removeRoot i).allHeld + (l.root i).held = l.allHeld := by
  have hsum := ((removeRoot_perm hgone.lt).map Root.held).sum_eq
  rw [List.map_cons, List.sum_cons] at hsum
  rw [allHeld, allHeld, ← hsum, add_comm]

include hl

theorem WellFormed.holder_removeRoot :
    (l.removeRoot i).holder (l.root i).path < (l.removeRoot i).roots.length ∧
      ((l.removeRoot i).root ((l.removeRoot i).holder (l.root i).path)).path =
        parentIn (l.removeRoot i).live (l.root i).path := by
  have hrest := hl.removeRoot hgone
  have hnot : (l.root i).path ∉ (l.removeRoot i).live := by
    rw [hl.live_removeRoot hgone.lt]
    exact notMem_erase _ _
  obtain ⟨hholder, hparent⟩ := hrest.holder_spec hnot
  exact ⟨hholder, (hparent.eq_parentIn hrest.nil_mem).symm⟩

include hbound

/-- The sum does not saturate. -/
theorem WellFormed.release_eq : l.release i = (l.removeRoot i).setHeld
    ((l.removeRoot i).holder (l.root i).path)
    (((l.removeRoot i).root ((l.removeRoot i).holder (l.root i).path)).held +
      (l.root i).held) := by
  obtain ⟨hholder, -⟩ := hl.holder_removeRoot hgone
  have hle : ((l.removeRoot i).root ((l.removeRoot i).holder (l.root i).path)).held ≤
      (l.removeRoot i).allHeld :=
    List.single_le_sum (fun _ _ => Nat.zero_le _) _
      (List.mem_map_of_mem (root_mem hholder))
  have hall := hl.allHeld_le
  have hsum := hgone.allHeld_removeRoot
  rw [← saturatingAdd_eq (show _ + (l.root i).held ≤ maxU64 by omega)]
  exact modify_held hholder fun held => saturatingAdd held (l.root i).held

theorem WellFormed.release : WellFormed (l.release i) := by
  rw [hl.release_eq hbound hgone]
  exact (hl.removeRoot hgone).setHeld _ _

theorem WellFormed.live_release : (l.release i).live = (l.removeRoot i).live := by
  rw [hl.release_eq hbound hgone, live_setHeld]

theorem WellFormed.quotaAt_release : (l.release i).quotaAt = l.quotaAt := by
  obtain ⟨hholder, -⟩ := hl.holder_removeRoot hgone
  rw [hl.release_eq hbound hgone,
    (hl.removeRoot hgone).quotaAt_setHeld hholder, hl.quotaAt_removeRoot hgone]

theorem WellFormed.heldAt_release (k : Path) : (l.release i).heldAt k =
    if k = parentIn (l.removeRoot i).live (l.root i).path then
      l.heldAt k + l.heldAt (l.root i).path
    else if k = (l.root i).path then 0 else l.heldAt k := by
  have hrest := hl.removeRoot hgone
  obtain ⟨hholder, hparent⟩ := hl.holder_removeRoot hgone
  have hother := hl.path_ne_of_mem_removeRoot hgone.lt (root_mem hholder)
  rw [hl.release_eq hbound hgone, hrest.heldAt_setHeld hholder, update_apply,
    ← hrest.heldAt_of_mem (root_mem hholder), hl.heldAt_removeRoot hgone,
    update_of_ne hother, update_apply, hparent, hl.heldAt_of_mem (root_mem hgone.lt)]
  by_cases hk : k = parentIn (l.removeRoot i).live (l.root i).path
  · rw [if_pos hk, if_pos hk, hk]
  · rw [if_neg hk, if_neg hk]

theorem WellFormed.allHeld_release : (l.release i).allHeld = l.allHeld := by
  obtain ⟨hholder, -⟩ := hl.holder_removeRoot hgone
  have hset := (hl.removeRoot hgone).allHeld_setHeld hholder
    (((l.removeRoot i).root ((l.removeRoot i).holder (l.root i).path)).held +
      (l.root i).held)
  have hsum := hgone.allHeld_removeRoot
  rw [← hl.release_eq hbound hgone] at hset
  omega

theorem WellFormed.released :
    Released l (l.release i) hl (hl.release hbound hgone) := by
  have hrest := hl.removeRoot hgone
  have hlive := hl.live_removeRoot hgone.lt
  have hlive' := hl.live_release hbound hgone
  have hnot : (l.root i).path ∉ (l.removeRoot i).live := hlive ▸ notMem_erase _ _
  have hnil : (l.root i).path ≠ [] := ne_nil_of_notMem hrest.nil_mem hnot
  have hinsert : l.live = insert (l.root i).path (l.removeRoot i).live := by
    rw [hlive, insert_erase (path_mem_live hgone.lt)]
  have htree := carving_eq_tree hl hinsert (mem_insert_of_mem hrest.nil_mem)
  have htree' := carving_eq_tree (hl.release hbound hgone) hlive' hrest.nil_mem
  have hheld := hl.heldAt_release hbound hgone
  have hspec : ∀ k ∈ (l.release i).live,
      ((l.release i).carving (hl.release hbound hgone)).charge k ≤
      (l.carving hl).charge k ∧
      (l.release i).heldAt k +
      ((l.release i).carving (hl.release hbound hgone)).reserve k ≤
      l.heldAt k + (l.carving hl).reserve k := by
    have hnodes : ((l.release i).carving (hl.release hbound hgone)).nodes =
        (l.carving hl).nodes.erase (l.root i).path := hlive'.trans hlive
    refine charge_remove (c := l.carving hl)
      (p := parentIn (l.removeRoot i).live (l.root i).path)
      (path_mem_live hgone.lt) hnil ?_
      hnodes (fun k hki hkp => ?_) ?_
      (fun k => (congrFun (hl.quotaAt_release hbound hgone) k).le) (fun k hkp => ?_) ?_
    · rw [htree]
      exact parentIn_insert_self hrest.nil_mem hnot
    · rw [htree, htree']
      exact (children_insert_of_ne hrest.nil_mem hnot hki hkp).symm
    · rw [htree, htree']
      exact children_parent_eq hrest.nil_mem hnot
    · change (l.release i).heldAt k ≤ l.heldAt k
      rw [hheld, if_neg hkp]
      split_ifs
      · exact Nat.zero_le _
      · exact le_rfl
    · change (l.release i).heldAt _ ≤ l.heldAt _ + l.heldAt _
      rw [hheld, if_pos rfl]
  refine ⟨?_, hl.allHeld_release hbound hgone, fun k hk => (hspec k hk).1,
    fun k hk => (hspec k hk).2⟩
  rw [hlive', hlive]
  exact erase_subset _ _

end Release

theorem WellFormed.disconnect_released (hl : WellFormed l)
    (hbound : (l.carving hl).charge [] ≤ maxU64) (badge : ℕ) :
    ∃ hl' : WellFormed (l.disconnect badge),
      Released l (l.disconnect badge) hl hl' := by
  rcases l.disconnect_cases badge with hsame | ⟨c, hc, hdrop | ⟨i, hgone, hrelease⟩⟩
  · rw [hsame]
    exact ⟨hl, Released.refl hl⟩
  · rw [hdrop]
    exact ⟨_, hl.released_dropConn hc⟩
  · have hfirst := hl.released_dropConn hc
    have hbound' := (hfirst.charge [] hl.nil_mem).trans hbound
    rw [hrelease]
    exact ⟨_, hfirst.trans ((hl.dropConn hc).released hbound' hgone)⟩

end Redoubt.Quota.Ledger
