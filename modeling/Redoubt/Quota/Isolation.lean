import Redoubt.Quota.Carves

/-!
# Quotas keep roots apart

A ledger goes from one state to the next by mints, disconnects, and by what its roots
come to hold.  In every ledger reached from the volume's root alone, the totals of the
one pass are the recursive ones, together the roots hold no more than the volume's room
(or what it held at first), and a call at one root leaves the others' totals as they
were.
-/

namespace Redoubt.Quota.Ledger

open Finset List Ledger

variable {l l' : Ledger} {i j : ℕ} {path : Path}

/-- One call.  A root grows only by what fits; it may shrink by any amount. -/
inductive Step : Ledger → Ledger → Prop
  | mint {l l' : Ledger} {granter badge id : ℕ} {path : Path} {quota : ℕ}
  {count : Option (ℕ × ℕ)}
      {memory : Bool} (exact : l.Exact id path count)
      (accepted : l.mint granter badge id path quota count memory = some l') : Step l l'
  | disconnect (l : Ledger) (badge : ℕ) : Step l (l.disconnect badge)
  | change {l : Ledger} {i more less : ℕ} {memory : Bool} (live : i < l.roots.length)
      (fits : less < more → l.fits i (more - less) memory = true) :
        Step l (l.change i more less)

/-- The ledgers of a volume with `room` bytes that held `held` when it was opened. -/
inductive Reached (room held : UInt64) (volume : ℕ) : Ledger → Prop
  | new : Reached room held volume (new room held volume)
  | step {l l' : Ledger} (before : Reached room held volume l) (next : Step l l') :
      Reached room held volume l'

/-- What every call keeps: the volume's root is charged no more than at first. -/
structure Kept (bound : ℕ) (l : Ledger) : Prop where
  wellFormed : WellFormed l
  charge : (l.carving wellFormed).charge [] ≤ bound

theorem kept_new (room held : UInt64) (volume : ℕ) :
    Kept (max room.toNat held.toNat) (new room held volume) := by
  have hl : WellFormed (new room held volume) := by
    refine ⟨⟨held.toNat, [], rfl⟩, ?_, ?_, fun c hc => nomatch hc⟩ <;>
      exact nodup_singleton _
  refine ⟨hl, ?_⟩
  have hchildren : ((new room held volume).carving hl).children [] = ∅ := by
    refine filter_eq_empty_iff.mpr fun path hpath hchild => hchild.1 ?_
    simpa [carving, tree, live, new] using hpath
  rw [Carving.charge_eq, Carving.reserve, hchildren]
  exact le_rfl

theorem Kept.step {bound : ℕ} (hkept : Kept bound l) (hbound : bound ≤ maxU64)
    (hstep : Step l l') :
    Kept bound l' := by
  obtain ⟨hl, hcharge⟩ := hkept
  have hmax := hcharge.trans hbound
  cases hstep with
  | @mint _ granter _ id _ _ _ _ hexact hmint =>
    by_cases hown : id = l.rootOf granter
    · obtain ⟨hl', hsame, -⟩ := hl.mint_own_carving hmint hown
      exact ⟨hl', hsame ▸ hcharge⟩
    · obtain ⟨hl', hcarved⟩ := hl.mint_carved hmax hmint hown hexact
      exact ⟨hl', hcarved.charge.trans hcharge⟩
  | disconnect badge =>
    obtain ⟨hl', hreleased⟩ := hl.disconnect_released hmax badge
    exact ⟨hl', (hreleased.charge [] hl'.nil_mem).trans hcharge⟩
  | @change i more less memory hi hfits =>
    refine ⟨hl.change hi, ?_⟩
    rcases lt_or_ge less more with hgrow | hshrink
    · rw [hl.charge_grow hmax hi (hfits hgrow) [] hl.nil_mem]
      exact hcharge
    · exact (hl.charge_shrink hi hshrink [] hl.nil_mem).trans hcharge

theorem max_le_maxU64 (room held : UInt64) : max room.toNat held.toNat ≤ maxU64 := by
  have hroom := room.toNat_lt
  have hheld := held.toNat_lt
  rw [maxU64]
  omega

/-- A run keeps it. -/
theorem Reached.kept {room held : UInt64} {volume : ℕ}
    (hreached : Reached room held volume l) :
    Kept (max room.toNat held.toNat) l := by
  induction hreached with
  | new => exact kept_new room held volume
  | step _ hstep ih => exact ih.step (max_le_maxU64 room held) hstep

/-! ### The calls, root by root -/

theorem getElem?_path (hi : i < l.roots.length) :
    (l.roots.map Root.path)[i]? = some (l.root i).path := by
  rw [getElem?_map, getElem?_eq_getElem hi, root_eq hi]
  rfl

/-- No root moves, or changes its path, by a mint. -/
theorem mint_root {granter badge id quota : ℕ} {count : Option (ℕ × ℕ)} {memory : Bool}
    (hmint : l.mint granter badge id path quota count memory = some l')
    (hi : i < l.roots.length) :
    i < l'.roots.length ∧ (l'.root i).path = (l.root i).path := by
  by_cases hown : id = l.rootOf granter
  · obtain ⟨-, rfl⟩ := mint_own hmint hown
    exact ⟨hi, rfl⟩
  · cases hfind : l.roots.findIdx? fun r => r.id = id with
    | some k =>
      obtain ⟨-, rfl⟩ := mint_live hmint hown hfind
      exact ⟨hi, rfl⟩
    | none =>
      obtain ⟨held, reserve, -, -, rfl⟩ := mint_new hmint hown hfind
      generalize (l.root (l.above path)).held - held = left
      have hpaths :
          ((l.addRoot (l.above path) left id path held).connect badge id
            quota).roots.map
          Root.path = l.roots.map Root.path ++ [path] := by
        have hset := map_setHeld (l := l) (i := l.above path) Root.path
          (fun _ _ => rfl) left
        rw [← hset]
        exact map_append
      have hlength : i < ((l.addRoot (l.above path) left id path held).connect badge id
          quota).roots.length := by
        rw [← length_map Root.path, hpaths, length_append, length_map]
        exact Nat.lt_add_right _ hi
      refine ⟨hlength, Option.some.inj ?_⟩
      rw [← getElem?_path hlength, hpaths, getElem?_append_left (by rwa [length_map]),
        getElem?_path hi]

theorem WellFormed.above_lt (hl : WellFormed l) (path : Path) :
    l.above path < l.roots.length := by
  by_cases hnil : path = []
  · rw [hnil, above_nil]
    exact hl.length_pos
  · exact (hl.above_spec hnil).1

section Kept

variable {bound : ℕ} (hkept : Kept bound l) (hbound : bound ≤ maxU64)
include hkept hbound

theorem Kept.totals (hi : i < l.roots.length) :
    (l.totals i).1 = l.chargeBelow (l.root i).path ∧
      (l.totals i).2 = max (l.quota i) ((l.root i).held + (l.totals i).1) :=
  hkept.wellFormed.totals_recursive (hkept.charge.trans hbound) hi

theorem Kept.grow {more less : ℕ} {memory : Bool} (hi : i < l.roots.length)
    (hfits : l.fits i (more - less) memory = true) (hj : j < l.roots.length)
    (hne : j ≠ i) :
    (l.change i more less).root j = l.root j ∧
    (l.change i more less).totals j = l.totals j := by
  have hl := hkept.wellFormed
  have hmax := hkept.charge.trans hbound
  have hcharge := hl.charge_grow hmax hi hfits
  have hroot : (l.change i more less).root j = l.root j := by
    rw [change_eq hi, root_setHeld hi, if_neg hne]
  have hlength : j < (l.change i more less).roots.length := by
    rw [change_eq hi, length_setHeld]
    exact hj
  have hmax' : ((l.change i more less).carving (hl.change hi)).charge [] ≤ maxU64 := by
    rw [hcharge [] hl.nil_mem]
    exact hmax
  refine ⟨hroot, ?_⟩
  rw [(hl.change hi).totals_eq hmax' hlength, hl.totals_eq hmax hj, hroot,
    hcharge _ (path_mem_live hj),
    Carving.reserve_of_charge (children_eq hl (hl.change hi) (live_change hi)) hcharge]

/-- A mint carves from the parent only. -/
theorem Kept.mint {granter badge id quota : ℕ} {count : Option (ℕ × ℕ)} {memory : Bool}
    (hexact : l.Exact id path count)
    (hmint : l.mint granter badge id path quota count memory = some l') :
    l'.allHeld = l.allHeld ∧
      (id ≠ l.rootOf granter →
        (l'.root (l.above path)).held + (l'.totals (l.above path)).1 ≤
        l'.quota (l.above path)) ∧
      ∀ j, j < l.roots.length → j ≠ l.above path ∨ id = l.rootOf granter →
        (l'.root j).held + (l'.totals j).1 = (l.root j).held + (l.totals j).1 := by
  have hl := hkept.wellFormed
  have hmax := hkept.charge.trans hbound
  by_cases hown : id = l.rootOf granter
  · obtain ⟨hl', hsame, hroots⟩ := hl.mint_own_carving hmint hown
    have hroot : ∀ j, l'.root j = l.root j := fun j => by rw [root, hroots, root]
    refine ⟨by rw [allHeld, hroots, allHeld], fun hother => absurd hown hother,
      fun j hj _ => ?_⟩
    rw [hl'.totals_eq (hsame ▸ hmax) (hroots ▸ hj), hl.totals_eq hmax hj, hsame, hroot]
  · obtain ⟨hl', hcarved⟩ := hl.mint_carved hmax hmint hown hexact
    have hmax' := hcarved.charge.trans hmax
    have hused : ∀ j, j < l.roots.length → (l'.root j).held + (l'.totals j).1 =
        l'.heldAt (l.root j).path + (l'.carving hl').reserve (l.root j).path :=
          fun j hj => by
      obtain ⟨hj', hpath⟩ := mint_root hmint hj
      rw [hl'.totals_eq hmax' hj', ← hl'.heldAt_of_mem (root_mem hj'), hpath]
    refine ⟨hcarved.allHeld, fun _ => ?_, fun j hj hother => ?_⟩
    · obtain ⟨hparent', hpath⟩ := mint_root hmint (hl.above_lt path)
      rw [hused _ (hl.above_lt path), hl'.quota_eq hmax' hparent', hpath]
      exact hcarved.within
    · have hne : (l.root j).path ≠ (l.root (l.above path)).path := fun heq =>
        hother.resolve_right hown (hl.index_eq hj (hl.above_lt path) heq)
      obtain ⟨hheld, hreserve⟩ := hcarved.others _ (path_mem_live hj) hne
      rw [hused j hj, hheld, hreserve, hl.heldAt_of_mem (root_mem hj),
        hl.totals_eq hmax hj]

theorem Kept.disconnect (badge : ℕ) : (l.disconnect badge).allHeld = l.allHeld ∧
      ∀ i j, i < l.roots.length → j < (l.disconnect badge).roots.length →
        ((l.disconnect badge).root j).path = (l.root i).path →
        ((l.disconnect badge).root j).held + ((l.disconnect badge).totals j).1 ≤
          (l.root i).held + (l.totals i).1 := by
  have hl := hkept.wellFormed
  have hmax := hkept.charge.trans hbound
  obtain ⟨hl', hreleased⟩ := hl.disconnect_released hmax badge
  have hmax' := (hreleased.charge [] hl'.nil_mem).trans hmax
  refine ⟨hreleased.allHeld, fun i j hi hj hpath => ?_⟩
  have hused := hreleased.used _ (path_mem_live hj)
  rw [hl'.totals_eq hmax' hj, hl.totals_eq hmax hi, ← hl'.heldAt_of_mem (root_mem hj),
    ← hl.heldAt_of_mem (root_mem hi), ← hpath]
  exact hused

end Kept

/-- Quota isolation, in every ledger reached.  A volume opened over its room stays
within what it held; a mint at the granter's own root carves nothing from any root. -/
theorem quotas_isolate_roots {room held : UInt64} {volume : ℕ}
    (hreached : Reached room held volume l) :
    -- the one pass computes the recursive totals
    (∀ i, i < l.roots.length → (l.totals i).1 = l.chargeBelow (l.root i).path ∧
      (l.totals i).2 = max (l.quota i) ((l.root i).held + (l.totals i).1)) ∧
    l.allHeld ≤ max room.toNat held.toNat ∧
    -- growth that fits
    (∀ i more less memory, i < l.roots.length → less < more →
      l.fits i (more - less) memory = true → ∀ j, j < l.roots.length → j ≠ i →
        (l.change i more less).root j = l.root j ∧
        (l.change i more less).totals j = l.totals j) ∧
    -- a mint that is accepted
    (∀ granter badge id path quota count memory l', l.Exact id path count →
      l.mint granter badge id path quota count memory = some l' →
      l'.allHeld = l.allHeld ∧
      (id ≠ l.rootOf granter →
        (l'.root (l.above path)).held + (l'.totals (l.above path)).1 ≤
        l'.quota (l.above path)) ∧
      ∀ j, j < l.roots.length → j ≠ l.above path ∨ id = l.rootOf granter →
        (l'.root j).held + (l'.totals j).1 = (l.root j).held + (l.totals j).1) ∧
    -- a disconnect
    (∀ badge, (l.disconnect badge).allHeld = l.allHeld ∧
      ∀ i j, i < l.roots.length → j < (l.disconnect badge).roots.length →
        ((l.disconnect badge).root j).path = (l.root i).path →
        ((l.disconnect badge).root j).held + ((l.disconnect badge).totals j).1 ≤
          (l.root i).held + (l.totals i).1) := by
  have hkept := hreached.kept
  have hbound := max_le_maxU64 room held
  refine ⟨fun i => hkept.totals hbound, hkept.wellFormed.allHeld_le.trans hkept.charge,
    fun i more less memory hi _ hfits j => hkept.grow hbound hi hfits,
    fun granter badge id path quota count memory l' => hkept.mint hbound,
    hkept.disconnect hbound⟩

/-- A home directory of 10 bytes, minted with a quota of 20 from a volume of 100 that
held 30. -/
def mintedHome : Ledger where
  room := 100
  volume := 1
  roots := [⟨1, [], 20⟩, ⟨2, [104], 10⟩]
  conns := [⟨5, 2, 20⟩]

theorem mintedHome_reached : Reached 100 30 1 mintedHome := by
  have hmint : (new 100 30 1).mint 0 5 2 [104] 20 (some (10, 0)) true =
      some mintedHome := by
    decide +kernel
  refine Reached.new.step (Step.mint ⟨by decide, ?_, ?_⟩ hmint)
  · rintro held reserve ⟨⟩
    decide
  · rintro held reserve ⟨⟩
    decide

theorem mintedHome_isolated :
    (mintedHome.totals 0).1 = mintedHome.chargeBelow [] ∧ mintedHome.allHeld ≤ 100 ∧
      (mintedHome.disconnect 5).allHeld = mintedHome.allHeld := by
  obtain ⟨htotals, hall, -, -, hdisconnect⟩ := quotas_isolate_roots mintedHome_reached
  exact ⟨(htotals 0 (by decide)).1, hall, (hdisconnect 5).1⟩

/-- A volume may hold more than its room when it is opened, and a connection at the
granter's own root is accepted all the same. -/
theorem volume_over_room_from_start : Reached 10 20 7 (new 10 20 7) ∧
    (new 10 20 7).room < (new 10 20 7).allHeld ∧
    (new 10 20 7).Exact 7 [] none ∧
    ∃ l', (new 10 20 7).mint 0 1 7 [] 0 none true = some l' ∧
      l'.quota ((new 10 20 7).above []) <
        (l'.root ((new 10 20 7).above [])).held +
        (l'.totals ((new 10 20 7).above [])).1 := by
  refine ⟨Reached.new, by decide, ⟨by decide, nofun, nofun⟩, _, rfl, ?_⟩
  decide +kernel

end Redoubt.Quota.Ledger
