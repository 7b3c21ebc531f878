import Redoubt.Quota.Totals

/-!
# What each call does to the tree

Every change of a ledger is made of a few: a root holds another amount, a root comes
or goes, a connection comes or goes.  How each changes the live roots, what they hold
and their quotas.
-/

namespace Redoubt.Quota.Ledger

open Finset Vectors Function Option

variable {l l' : Ledger} {i : ℕ} {r : Root} {path : Path}

theorem carving_congr (hl : WellFormed l) (hl' : WellFormed l')
    (hlive : l'.live = l.live)
    (hquota : l'.quotaAt = l.quotaAt) (hheld : l'.heldAt = l.heldAt) :
    l'.carving hl' = l.carving hl := by
  simp only [carving, hlive, hquota, hheld]

/-- What the roots hold together. -/
def allHeld (l : Ledger) : ℕ := (l.roots.map Root.held).sum

theorem WellFormed.allHeld_eq (hl : WellFormed l) :
    l.allHeld = ∑ path ∈ l.live, l.heldAt path := by
  rw [live, List.sum_toFinset _ hl.paths, List.map_map]
  refine congrArg List.sum (List.map_congr_left fun r hr => ?_)
  exact (hl.heldAt_of_mem hr).symm

/-! ### A root holds another amount -/

/-- Root `i` holds `held`. -/
def setHeld (l : Ledger) (i held : ℕ) : Ledger :=
  { l with roots := l.roots.modify i fun r => { r with held := held } }

theorem map_setHeld {α : Type} (f : Root → α)
    (hf : ∀ r held, f { r with held := held } = f r)
    (held : ℕ) : (l.setHeld i held).roots.map f = l.roots.map f := by
  refine List.ext_getElem? fun j => ?_
  simp only [setHeld, List.getElem?_map, List.getElem?_modify]
  cases l.roots[j]? with
  | none => rfl
  | some r =>
    by_cases hj : i = j
    · simp [hj, hf]
    · simp [hj]

theorem live_setHeld (held : ℕ) : (l.setHeld i held).live = l.live := by
  rw [live, map_setHeld Root.path (fun _ _ => rfl), live]

theorem length_setHeld (held : ℕ) : (l.setHeld i held).roots.length = l.roots.length :=
  List.length_modify _ _ _

theorem root_setHeld (hi : i < l.roots.length) (held j : ℕ) :
    (l.setHeld i held).root j = if j = i then { l.root i with held := held }
    else l.root j := by
  rw [root, List.getD_eq_getElem?_getD, setHeld, List.getElem?_modify]
  by_cases hj : j = i
  · subst hj
    rw [List.getElem?_eq_getElem hi, root_eq hi]
    simp
  · have hij : ¬ i = j := fun h => hj h.symm
    rw [if_neg hj, root]
    simp [hij]

theorem WellFormed.setHeld (hl : WellFormed l) (i held : ℕ) :
    WellFormed (l.setHeld i held) where
  first := by
    obtain ⟨held₀, rest, hroots⟩ := hl.first
    cases i with
    | zero => exact ⟨held, rest, by rw [Ledger.setHeld, hroots]; rfl⟩
    | succ i => exact ⟨held₀, _, by rw [Ledger.setHeld, hroots]; rfl⟩
  paths := by
    rw [map_setHeld Root.path fun _ _ => rfl]
    exact hl.paths
  ids := by
    rw [map_setHeld Root.id fun _ _ => rfl]
    exact hl.ids
  served := by
    intro c hc
    obtain ⟨r, hr, hid⟩ := hl.served c hc
    have hmem : c.root ∈ (l.setHeld i held).roots.map Root.id := by
      rw [map_setHeld Root.id fun _ _ => rfl, ← hid]
      exact List.mem_map_of_mem hr
    exact List.mem_map.mp hmem

theorem find_eq_none (hpath : path ∉ l.live) : l.find path = none := by
  refine List.find?_eq_none.mpr fun r hr heq => hpath ?_
  exact mem_live.mpr ⟨r, hr, of_decide_eq_true heq⟩

theorem heldAt_of_notMem (hpath : path ∉ l.live) : l.heldAt path = 0 := by
  rw [heldAt, find_eq_none hpath]
  rfl

/-- What roots hold is told by what each holds. -/
theorem WellFormed.heldAt_eq (hl : WellFormed l) {held : Path → ℕ}
    (hroots : ∀ r ∈ l.roots, held r.path = r.held)
    (hother : ∀ path, path ∉ l.live → held path = 0) :
    l.heldAt = held := by
  funext path
  by_cases hpath : path ∈ l.live
  · obtain ⟨r, hr, rfl⟩ := mem_live.mp hpath
    rw [hl.heldAt_of_mem hr, hroots r hr]
  · rw [heldAt_of_notMem hpath, hother path hpath]

/-- And so are the quotas by each one's connections. -/
theorem WellFormed.quotaAt_eq (hl : WellFormed l) {quota : Path → ℕ}
    (hnil : quota [] = l.room)
    (hroots : ∀ r ∈ l.roots, r.path ≠ [] → quota r.path = l.granted r.id)
    (hother : ∀ path, path ∉ l.live → quota path = 0) : l.quotaAt = quota := by
  funext path
  by_cases hzero : path = []
  · rw [hzero, quotaAt, if_pos rfl, hnil]
  · by_cases hpath : path ∈ l.live
    · obtain ⟨r, hr, rfl⟩ := mem_live.mp hpath
      rw [hl.quotaAt_of_mem hr hzero, hroots r hr hzero]
    · rw [quotaAt, if_neg hzero, find_eq_none hpath, hother path hpath]
      rfl

theorem quotaAt_of_notMem (hl : WellFormed l) (hpath : path ∉ l.live) :
    l.quotaAt path = 0 := by
  have hzero : path ≠ [] := fun heq => hpath (heq ▸ hl.nil_mem)
  rw [quotaAt, if_neg hzero, find_eq_none hpath]
  rfl

theorem mem_setHeld (hi : i < l.roots.length) {held : ℕ}
    (hr : r ∈ (l.setHeld i held).roots) :
    r = { l.root i with held := held } ∨ ∃ j, j ≠ i ∧ j < l.roots.length ∧
      r = l.root j := by
  obtain ⟨j, hj, rfl⟩ := exists_index hr
  rw [length_setHeld] at hj
  rw [root_setHeld hi]
  by_cases hji : j = i
  · rw [if_pos hji]
    exact Or.inl rfl
  · rw [if_neg hji]
    exact Or.inr ⟨j, hji, hj, rfl⟩

theorem WellFormed.heldAt_setHeld (hl : WellFormed l)
    (hi : i < l.roots.length) (held : ℕ) :
    (l.setHeld i held).heldAt = update l.heldAt (l.root i).path held := by
  refine (hl.setHeld i held).heldAt_eq (fun r hr => ?_) fun path hpath => ?_
  · rcases mem_setHeld hi hr with rfl | ⟨j, hji, hj, rfl⟩
    · exact update_self _ _ _
    · rw [update_of_ne fun heq => hji (hl.index_eq hj hi heq),
        hl.heldAt_of_mem (root_mem hj)]
  · rw [live_setHeld] at hpath
    have hne : path ≠ (l.root i).path := fun heq => hpath (heq ▸ path_mem_live hi)
    rw [update_of_ne hne, heldAt_of_notMem hpath]

theorem WellFormed.quotaAt_setHeld (hl : WellFormed l)
    (hi : i < l.roots.length) (held : ℕ) :
    (l.setHeld i held).quotaAt = l.quotaAt := by
  refine (hl.setHeld i held).quotaAt_eq (if_pos rfl) (fun r hr hne => ?_)
    fun path hpath => ?_
  · rcases mem_setHeld hi hr with rfl | ⟨j, hji, hj, rfl⟩
    · have hquota : l.quotaAt (l.root i).path = l.granted (l.root i).id :=
        hl.quotaAt_of_mem (root_mem hi) hne
      exact hquota
    · exact hl.quotaAt_of_mem (root_mem hj) hne
  · rw [live_setHeld] at hpath
    exact quotaAt_of_notMem hl hpath

theorem WellFormed.allHeld_setHeld (hl : WellFormed l)
    (hi : i < l.roots.length) (held : ℕ) :
    (l.setHeld i held).allHeld + (l.root i).held = l.allHeld + held := by
  have hmem := path_mem_live hi
  rw [(hl.setHeld i held).allHeld_eq, live_setHeld, hl.heldAt_setHeld hi, hl.allHeld_eq,
    sum_update_of_mem hmem, ← hl.heldAt_of_mem (root_mem hi),
    ← add_sum_erase _ _ hmem, erase_eq]
  omega

theorem modify_held (hi : i < l.roots.length) (f : ℕ → ℕ) :
    { l with roots := l.roots.modify i fun r => { r with held := f r.held } } =
      l.setHeld i (f (l.root i).held) := by
  congr 1
  refine List.ext_getElem? fun j => ?_
  rw [List.getElem?_modify, List.getElem?_modify]
  by_cases hj : i = j
  · subst hj
    rw [List.getElem?_eq_getElem hi, root_eq hi]
    rfl
  · simp [hj]

theorem change_eq (hi : i < l.roots.length) (more less : ℕ) :
    l.change i more less = l.setHeld i (saturatingAdd (l.root i).held more - less) :=
  modify_held hi fun held => saturatingAdd held more - less

/-! ### A root comes -/

/-- One more live root. -/
def pushRoot (l : Ledger) (r : Root) : Ledger := { l with roots := l.roots ++ [r] }

section Push

variable (hl : WellFormed l) (hpath : r.path ∉ l.live)
    (hid : ∀ s ∈ l.roots, s.id ≠ r.id)
include hl hpath hid

theorem WellFormed.pushRoot : WellFormed (l.pushRoot r) where
  first := by
    obtain ⟨held, rest, hroots⟩ := hl.first
    exact ⟨held, rest ++ [r], by rw [Ledger.pushRoot, hroots]; rfl⟩
  paths := by
    rw [Ledger.pushRoot, List.map_append, List.nodup_append_comm, List.map_singleton,
      List.singleton_append, List.nodup_cons]
    exact ⟨fun hmem => hpath (List.mem_toFinset.mpr hmem), hl.paths⟩
  ids := by
    rw [Ledger.pushRoot, List.map_append, List.nodup_append_comm, List.map_singleton,
      List.singleton_append, List.nodup_cons]
    refine ⟨fun hmem => ?_, hl.ids⟩
    obtain ⟨s, hs, heq⟩ := List.mem_map.mp hmem
    exact hid s hs heq
  served := by
    intro c hc
    obtain ⟨s, hs, hroot⟩ := hl.served c hc
    exact ⟨s, List.mem_append_left _ hs, hroot⟩

omit hl hpath hid in
theorem live_pushRoot : (l.pushRoot r).live = insert r.path l.live := by
  ext path
  simp [live, Ledger.pushRoot]

theorem WellFormed.heldAt_pushRoot :
    (l.pushRoot r).heldAt = update l.heldAt r.path r.held := by
  refine (hl.pushRoot hpath hid).heldAt_eq (fun s hs => ?_) fun path hnot => ?_
  · rcases List.mem_append.mp hs with hs | hs
    · have hne : s.path ≠ r.path := fun heq => hpath (heq ▸ mem_live.mpr ⟨s, hs, rfl⟩)
      rw [update_of_ne hne, hl.heldAt_of_mem hs]
    · rw [List.mem_singleton.mp hs, update_self]
  · rw [live_pushRoot, mem_insert, not_or] at hnot
    rw [update_of_ne hnot.1, heldAt_of_notMem hnot.2]

omit hpath in
theorem WellFormed.granted_new : l.granted r.id = 0 := by
  rw [granted, List.filter_eq_nil_iff.mpr]
  · rfl
  · intro c hc heq
    obtain ⟨s, hs, hroot⟩ := hl.served c hc
    exact hid s hs (hroot.trans (of_decide_eq_true heq))

theorem WellFormed.quotaAt_pushRoot : (l.pushRoot r).quotaAt = l.quotaAt := by
  refine (hl.pushRoot hpath hid).quotaAt_eq (if_pos rfl) (fun s hs hne => ?_)
    fun path hnot => ?_
  · rcases List.mem_append.mp hs with hs | hs
    · exact hl.quotaAt_of_mem hs hne
    · rw [List.mem_singleton.mp hs, quotaAt_of_notMem hl hpath]
      exact (hl.granted_new hid).symm
  · rw [live_pushRoot, mem_insert, not_or] at hnot
    exact quotaAt_of_notMem hl hnot.2

end Push

/-! ### A root goes -/

/-- Root `i` goes, and the last root takes its place. -/
def removeRoot (l : Ledger) (i : ℕ) : Ledger := { l with roots := swapRemove l.roots i }

/-- A root other than the volume's that serves no connection. -/
structure Unserved (l : Ledger) (i : ℕ) : Prop where
  lt : i < l.roots.length
  ne : i ≠ 0
  conns : ∀ c ∈ l.conns, c.root ≠ (l.root i).id

section Remove

variable (hl : WellFormed l) (hi : i < l.roots.length) (hgone : l.Unserved i)
include hi

theorem removeRoot_perm : (l.root i :: (l.removeRoot i).roots).Perm l.roots := by
  rw [root_eq hi]
  exact swapRemove_perm hi

theorem mem_of_mem_removeRoot (hr : r ∈ (l.removeRoot i).roots) : r ∈ l.roots :=
  (removeRoot_perm hi).mem_iff.mp (List.mem_cons_of_mem _ hr)

theorem mem_removeRoot_of_ne (hr : r ∈ l.roots) (hother : r ≠ l.root i) :
    r ∈ (l.removeRoot i).roots :=
  (List.mem_cons.mp ((removeRoot_perm hi).mem_iff.mpr hr)).resolve_left hother

include hl

theorem WellFormed.path_ne_of_mem_removeRoot (hr : r ∈ (l.removeRoot i).roots) :
    r.path ≠ (l.root i).path := by
  intro heq
  have hnodup := ((removeRoot_perm hi).map Root.path).nodup_iff.mpr hl.paths
  rw [List.map_cons, List.nodup_cons] at hnodup
  exact hnodup.1 (List.mem_map.mpr ⟨r, hr, heq⟩)

theorem WellFormed.live_removeRoot :
    (l.removeRoot i).live = l.live.erase (l.root i).path := by
  ext path
  rw [mem_erase, mem_live, mem_live]
  constructor
  · rintro ⟨r, hr, rfl⟩
    exact ⟨hl.path_ne_of_mem_removeRoot hi hr, r, mem_of_mem_removeRoot hi hr, rfl⟩
  · rintro ⟨hother, r, hr, rfl⟩
    exact ⟨r, mem_removeRoot_of_ne hi hr fun heq => hother (congrArg Root.path heq),
      rfl⟩

omit hi
include hgone

theorem WellFormed.removeRoot : WellFormed (l.removeRoot i) where
  first := by
    obtain ⟨held, rest, hroots⟩ := hl.first
    have hi := hgone.lt
    rw [hroots] at hi
    obtain ⟨rest', hrest⟩ := swapRemove_cons _ _ hgone.ne hi
    exact ⟨held, rest', by rw [Ledger.removeRoot, hroots, hrest]⟩
  paths :=
    (List.nodup_cons.mp
      (((removeRoot_perm hgone.lt).map Root.path).nodup_iff.mpr hl.paths)).2
  ids := (List.nodup_cons.mp
    (((removeRoot_perm hgone.lt).map Root.id).nodup_iff.mpr hl.ids)).2
  served := by
    intro c hc
    obtain ⟨r, hr, hroot⟩ := hl.served c hc
    refine ⟨r, mem_removeRoot_of_ne hgone.lt hr fun heq => hgone.conns c hc ?_, hroot⟩
    rw [← hroot, heq]

theorem WellFormed.heldAt_removeRoot :
    (l.removeRoot i).heldAt = update l.heldAt (l.root i).path 0 := by
  have hi := hgone.lt
  refine (hl.removeRoot hgone).heldAt_eq (fun r hr => ?_) fun path hnot => ?_
  · rw [update_of_ne (hl.path_ne_of_mem_removeRoot hi hr),
      hl.heldAt_of_mem (mem_of_mem_removeRoot hi hr)]
  · by_cases heq : path = (l.root i).path
    · rw [heq, update_self]
    · rw [hl.live_removeRoot hi, mem_erase] at hnot
      rw [update_of_ne heq, heldAt_of_notMem fun hlive => hnot ⟨heq, hlive⟩]

theorem WellFormed.quotaAt_removeRoot : (l.removeRoot i).quotaAt = l.quotaAt := by
  have hi := hgone.lt
  refine (hl.removeRoot hgone).quotaAt_eq (if_pos rfl) (fun r hr hpath => ?_)
    fun path hnot => ?_
  · exact hl.quotaAt_of_mem (mem_of_mem_removeRoot hi hr) hpath
  · by_cases heq : path = (l.root i).path
    · have hnil : path ≠ [] := fun hnil =>
        hgone.ne ((hl.path_eq_nil_iff hi).mp (heq.symm.trans hnil))
      rw [heq] at hnil ⊢
      rw [hl.quotaAt_of_mem (root_mem hi) hnil, granted, List.filter_eq_nil_iff.mpr]
      · rfl
      · intro c hc hroot
        exact hgone.conns c hc (of_decide_eq_true hroot)
    · rw [hl.live_removeRoot hi, mem_erase] at hnot
      exact quotaAt_of_notMem hl fun hlive => hnot ⟨heq, hlive⟩

end Remove

/-! ### Connections come and go -/

theorem granted_connect (badge id quota other : ℕ) :
    (l.connect badge id quota).granted other = l.granted other + if id = other then
      quota else 0 := by
  rw [granted, connect, List.filter_append, List.map_append, granted]
  by_cases heq : id = other <;> simp [heq]

theorem WellFormed.connect (hl : WellFormed l) (badge quota : ℕ) {id : ℕ}
    (hid : ∃ r ∈ l.roots, r.id = id) : WellFormed (l.connect badge id quota) :=
  { hl with
  served := by
    intro c hc
    rcases List.mem_append.mp hc with hc | hc
    · exact hl.served c hc
    · rw [List.mem_singleton.mp hc]
      exact hid }

theorem quotaAt_connect (badge id quota : ℕ) (path : Path) :
    (l.connect badge id quota).quotaAt path = l.quotaAt path +
      if path ≠ [] ∧ (l.find path).map Root.id = some id then quota else 0 := by
  have hfind : (l.connect badge id quota).find path = l.find path := rfl
  rw [quotaAt, quotaAt, hfind]
  by_cases hnil : path = []
  · simp only [hnil]
    rfl
  · rw [if_neg hnil, if_neg hnil]
    cases hroot : l.find path with
    | none => simp
    | some r =>
      simp only [granted_connect]
      by_cases heq : id = r.id
      · simp [heq, hnil]
      · simp [heq, Ne.symm heq]

/-- Connection `c` goes. -/
def dropConn (l : Ledger) (c : ℕ) : Ledger := { l with conns := swapRemove l.conns c }

theorem WellFormed.dropConn (hl : WellFormed l) {c : ℕ} (hc : c < l.conns.length) :
    WellFormed (l.dropConn c) := { hl with
  served := fun conn hconn =>
    hl.served conn ((swapRemove_perm hc).mem_iff.mp (List.mem_cons_of_mem _ hconn)) }

theorem granted_dropConn_le {c : ℕ} (hc : c < l.conns.length) (id : ℕ) :
    (l.dropConn c).granted id ≤ l.granted id := by
  have hperm :=
    (((swapRemove_perm hc).filter fun conn => conn.root = id).map Conn.quota).sum_eq
  rw [granted, granted, ← hperm]
  refine List.Sublist.sum_le_sum ?_ fun _ _ => Nat.zero_le _
  exact ((List.sublist_cons_self _ _).filter _).map _

theorem quotaAt_dropConn_le {c : ℕ} (hc : c < l.conns.length) (path : Path) :
    (l.dropConn c).quotaAt path ≤ l.quotaAt path := by
  rw [quotaAt, quotaAt]
  by_cases hnil : path = []
  · rw [if_pos hnil, if_pos hnil]
    exact le_rfl
  · rw [if_neg hnil, if_neg hnil]
    have hfind : (l.dropConn c).find path = l.find path := rfl
    rw [hfind]
    cases l.find path with
    | none => exact le_rfl
    | some r => exact granted_dropConn_le hc r.id

/-! ### When a mint is accepted -/

theorem checkedAdd_eq_some {m n sum : ℕ} (hsum : checkedAdd m n = some sum) :
    sum = m + n := by
  rw [checkedAdd, ite_none_right_eq_some] at hsum
  exact (some.inj hsum.2).symm

theorem fits_spec {need : ℕ} {memory : Bool} (hfits : l.fits i need memory = true) :
    (l.root i).held + (l.totals i).1 + need ≤ l.quota i := by
  rw [fits, Bool.and_eq_true, any_eq_true] at hfits
  obtain ⟨total, htotal, hle⟩ := hfits.2
  obtain ⟨used, hused, htotal⟩ := bind_eq_some_iff.mp htotal
  rw [checkedAdd_eq_some htotal, checkedAdd_eq_some hused] at hle
  exact of_decide_eq_true hle

section Mint

variable {granter badge id quota : ℕ} {count : Option (ℕ × ℕ)} {memory : Bool}
  (hmint : l.mint granter badge id path quota count memory = some l')
include hmint

theorem memory_of_mint : ¬ (!memory) = true := by
  intro hmemory
  rw [mint, if_pos hmemory] at hmint
  exact nomatch hmint

/-- At the granter's own root. -/
theorem mint_own (hown : id = l.rootOf granter) :
    quota = 0 ∧ l' = l.connect badge id 0 := by
  rw [mint, if_neg (memory_of_mint hmint), if_pos hown] at hmint
  by_cases hquota : quota ≠ 0
  · rw [if_pos hquota] at hmint
    exact nomatch hmint
  · rw [if_neg hquota] at hmint
    rw [not_not] at hquota
    subst hquota
    exact ⟨rfl, (some.inj hmint).symm⟩

/-- At another live root. -/
theorem mint_live (hown : id ≠ l.rootOf granter)
    (hfind : l.roots.findIdx? (fun r => r.id = id) = some i) :
    (l.root (l.above path)).held + (l.totals (l.above path)).1 +
        (max (l.quota i + quota) (saturatingAdd (l.root i).held (l.totals i).1) -
          (l.totals i).2) ≤
      l.quota (l.above path) ∧
    l' = l.connect badge id quota := by
  rw [mint, if_neg (memory_of_mint hmint), if_neg hown, hfind] at hmint
  obtain ⟨sum, hsum, hmint⟩ := bind_eq_some_iff.mp hmint
  rw [ite_none_right_eq_some, checkedAdd_eq_some hsum] at hmint
  exact ⟨fits_spec hmint.1, (some.inj hmint.2).symm⟩

/-- At a directory that goes live. -/
theorem mint_new (hown : id ≠ l.rootOf granter)
    (hfind : l.roots.findIdx? (fun r => r.id = id) = none) :
    ∃ held reserve, count = some (held, reserve) ∧
      (l.root (l.above path)).held - held + ((l.totals (l.above path)).1 - reserve) +
        max quota (saturatingAdd held reserve) ≤ l.quota (l.above path) ∧
      l' = (l.addRoot (l.above path) ((l.root (l.above path)).held - held)
        id path held).connect badge id quota := by
  rw [mint, if_neg (memory_of_mint hmint), if_neg hown, hfind] at hmint
  obtain ⟨⟨held, reserve⟩, hcount, hmint⟩ := bind_eq_some_iff.mp hmint
  obtain ⟨room, hroom, hmint⟩ := bind_eq_some_iff.mp hmint
  obtain ⟨kept, hkept, hroom⟩ := bind_eq_some_iff.mp hroom
  rw [ite_none_left_eq_some, checkedAdd_eq_some hroom,
    checkedAdd_eq_some hkept] at hmint
  exact ⟨held, reserve, hcount, Nat.le_of_not_gt hmint.1, (some.inj hmint.2).symm⟩

end Mint

end Redoubt.Quota.Ledger
