import Redoubt.Library.WaterFilling
import Redoubt.Sched.Ranks

/-!
# The cap set

`Queue::cap` finds in one pass over the heaviest candidates what `Scheduler::cap_set` of
`model/src/sched.rs` finds round by round over every queued budget.
-/

namespace Redoubt.Stride.Board

open List WaterFilling

/-- The budgets that may be capped. -/
def candidates (q : Board) : List Slot :=
  q.slots.filter fun slot => counted slot && q.mayCap slot

def countedWeight (q : Board) : ℕ := ((q.slots.filter counted).map Slot.weight).sum

/-- The harts, shared by weight among the budgets that count, each of which needs one
for each of its threads. -/
def sharing (q : Board) : Sharing Slot where
  weight := Slot.weight
  need := Slot.threads
  all := (q.slots.filter counted).toFinset
  may := q.candidates.toFinset
  supply := q.harts
  may_subset := by
    intro slot hslot
    simp only [candidates, mem_toFinset, mem_filter, Bool.and_eq_true] at hslot ⊢
    exact ⟨hslot.1, hslot.2.1⟩

/-- The budgets water filling caps: as many rounds as there are budgets. -/
def waterFilled (q : Board) : Finset Slot := q.sharing.fill^[q.slots.length] ∅

/-- The cap set found among the `n` heaviest candidates. -/
def capSetOf (q : Board) (n : ℕ) : List ℕ :=
  capFrom (q.candidates.foldl (insertTop n) []) q.harts q.countedWeight

/-- `capFrom`, with each subtraction checked. -/
def capChecked : List Slot → ℕ → ℕ → Option (List ℕ)
  | [], _, _ => some []
  | slot :: rest, harts, weight =>
    if slot.weight * harts ≤ slot.threads * weight then some []
    else if slot.threads ≤ harts ∧ slot.weight ≤ weight then
      (capChecked rest (harts - slot.threads) (weight - slot.weight)).map
      (slot.budget :: ·)
    else none

/-! ## The heaviest candidates -/

abbrev Lighter (slot other : Slot) : Prop :=
  WaterFilling.Lighter Slot.weight Slot.threads slot other

theorem lighter_iff {slot other : Slot} :
    Lighter slot other ↔ ¬ slot.heavier other := by
  rw [Slot.heavier, decide_eq_true_iff, not_lt]
  rfl

/-- `top` are the `n` heaviest of `seen`, the heaviest first. -/
structure Top (n : ℕ) (seen top : List Slot) : Prop where
  subset : top ⊆ seen
  nodup : top.Nodup
  sorted : top.Pairwise fun slot other => Lighter other slot
  left_out : ∀ slot ∈ seen, slot ∉ top → top.length = n ∧ ∀ other ∈ top,
    Lighter slot other

variable {n : ℕ} {seen top : List Slot} {slot : Slot}

/-- The list with `slot` in its place, nothing dropped yet. -/
def placed (top : List Slot) (slot : Slot) : List Slot :=
  top.rdropWhile slot.heavier ++ slot :: top.rtakeWhile slot.heavier

theorem placed_perm : (placed top slot).Perm (slot :: top) := by
  refine perm_middle.trans ?_
  rw [rdropWhile_append_rtakeWhile]

section

variable (htop : Top n seen top) (hpos : ∀ s ∈ seen, 0 < s.threads)
include htop hpos

theorem Top.sorted_placed :
    (placed top slot).Pairwise fun slot other => Lighter other slot := by
  have hsorted := htop.sorted
  rw [← rdropWhile_append_rtakeWhile (p := slot.heavier) (l := top),
    pairwise_append] at hsorted
  obtain ⟨hfirst, hsecond, hcross⟩ := hsorted
  refine pairwise_append.mpr ⟨hfirst, pairwise_cons.mpr ⟨fun s hs => ?_, hsecond⟩,
    fun s hs t ht => ?_⟩
  · have hheavier : slot.heavier s := mem_rtakeWhile_imp hs
    exact (of_decide_eq_true hheavier).le
  rcases mem_cons.mp ht with rfl | ht
  · have hne := ne_nil_of_mem hs
    have hlast := lighter_iff.mpr (rdropWhile_last_not _ top hne)
    have hthreads :=
      hpos _ (htop.subset (( rdropWhile_prefix _ _).subset (getLast_mem hne)))
    rw [← dropLast_append_getLast hne] at hs hfirst
    rcases mem_append.mp hs with hs | hs
    · exact hlast.trans hthreads
        ((pairwise_append.mp hfirst).2.2 s hs _ (mem_singleton_self _))
    · rwa [mem_singleton.mp hs]
  · exact hcross s hs t ht

theorem Top.insert (hfresh : slot ∉ seen) :
    Top n (seen ++ [slot]) (insertTop n top slot) := by
  have hmem (s : Slot) : s ∈ placed top slot ↔ s = slot ∨ s ∈ top :=
    placed_perm.mem_iff.trans mem_cons
  have hlength : (placed top slot).length = top.length + 1 := placed_perm.length_eq
  have hsorted : (placed top slot).Pairwise fun slot other => Lighter other slot :=
    htop.sorted_placed hpos
  have hnodup : (placed top slot).Nodup :=
    placed_perm.nodup_iff.mpr
      (nodup_cons.mpr ⟨fun hslot => hfresh (htop.subset hslot), htop.nodup⟩)
  rw [insertTop, ← placed]
  have hsplit := take_append_drop n (placed top slot)
  refine ⟨fun s hs => ?_, hnodup.sublist (take_sublist _ _),
    hsorted.sublist (take_sublist _ _), fun s hs hnot => ?_⟩
  · rcases (hmem s).mp (mem_of_mem_take hs) with rfl | hs
    · exact mem_append_right _ (mem_singleton_self _)
    · exact mem_append_left _ (htop.subset hs)
  rw [← hsplit, pairwise_append] at hsorted
  by_cases hin : s ∈ placed top slot
  · have hdropped : s ∈ (placed top slot).drop n := by
      rw [← hsplit, mem_append] at hin
      exact hin.resolve_left hnot
    have hlen := length_pos_of_mem hdropped
    rw [length_drop] at hlen
    exact ⟨length_take_of_le (by omega), fun t ht => hsorted.2.2 t ht s hdropped⟩
  · rw [hmem, not_or] at hin
    have hseen : s ∈ seen := (mem_append.mp hs).resolve_right fun h =>
      hin.1 (mem_singleton.mp h)
    obtain ⟨hlen, hlighter⟩ := htop.left_out s hseen hin.2
    refine ⟨length_take_of_le (by omega), fun t ht => ?_⟩
    rcases (hmem t).mp (mem_of_mem_take ht) with rfl | htop'
    · -- one that was there before makes place, and is lighter
      obtain ⟨d, hd⟩ :=
        exists_mem_of_length_pos (show 0 < ((placed top t).drop n).length by
        rw [length_drop]; omega)
      have hdtop : d ∈ top := by
        refine ((hmem d).mp (mem_of_mem_drop hd)).resolve_left fun heq => ?_
        exact (disjoint_take_drop hnodup le_rfl) ht (heq ▸ hd)
      exact (hlighter d hdtop).trans (hpos d (htop.subset hdtop))
        (hsorted.2.2 t ht d hd)
    · exact hlighter t htop'

end

theorem top_foldl {slots : List Slot} (hnodup : slots.Nodup)
    (hpos : ∀ s ∈ slots, 0 < s.threads) :
    Top n slots (slots.foldl (insertTop n) []) := by
  induction slots using reverseRecOn with
  | nil =>
    exact ⟨nil_subset _, nodup_nil, Pairwise.nil, fun s hs => absurd hs not_mem_nil⟩
  | append_singleton slots slot ih =>
    rw [foldl_append]
    have hparts := nodup_append.mp hnodup
    have hpos' := fun s hs => hpos s (mem_append_left _ hs)
    exact (ih hparts.1 hpos').insert hpos' fun hslot =>
      hparts.2.2 slot hslot slot (mem_singleton_self _) rfl

/-! ## The pass -/

theorem capFrom_eq (slots : List Slot) (harts weight : ℕ) : capFrom slots harts weight =
    (greedy Slot.weight Slot.threads slots harts weight).map Slot.budget := by
  induction slots generalizing harts weight with
  | nil => rfl
  | cons slot rest ih =>
    rw [capFrom, greedy, ih]
    split_ifs <;> rfl

theorem capChecked_eq {slots : List Slot} {harts weight : ℕ}
    (hweight : (slots.map Slot.weight).sum ≤ weight) :
    capChecked slots harts weight = some (capFrom slots harts weight) := by
  induction slots generalizing harts weight with
  | nil => rfl
  | cons slot rest ih =>
    rw [map_cons, sum_cons] at hweight
    rw [capChecked, capFrom]
    split_ifs with hfew hroom
    · rfl
    · rw [ih (by omega)]
      rfl
    · rw [not_le] at hfew
      refine absurd
        ⟨le_of_lt (Nat.lt_of_mul_lt_mul_left (a := slot.weight) ?_), by omega⟩ hroom
      calc
        slot.weight * slot.threads = slot.threads * slot.weight := mul_comm _ _
        _ ≤ slot.threads * weight := Nat.mul_le_mul_left _ (by omega)
        _ < slot.weight * harts := hfew

variable {q : Board}

theorem mem_candidates : slot ∈ q.candidates → slot ∈ q.slots.filter counted ∧
    0 < slot.threads := by
  rw [candidates, mem_filter, Bool.and_eq_true, mem_filter]
  rintro ⟨hslot, hcounted, -⟩
  refine ⟨⟨hslot, hcounted⟩, ?_⟩
  rw [counted, Bool.and_eq_true, decide_eq_true_iff, decide_eq_true_iff] at hcounted
  exact Nat.pos_of_ne_zero hcounted.2

section

variable (hnodup : q.slots.Nodup)
include hnodup

theorem top_candidates : Top n q.candidates (q.candidates.foldl (insertTop n) []) :=
  top_foldl (hnodup.filter _) fun _ hslot => (mem_candidates hslot).2

theorem sum_weight_le (htop : Top n q.candidates top) :
    (top.map Slot.weight).sum ≤ q.countedWeight := by
  rw [countedWeight, ← sum_toFinset _ htop.nodup, ← sum_toFinset _ (hnodup.filter _)]
  refine Finset.sum_le_sum_of_subset fun slot hslot => ?_
  rw [mem_toFinset] at hslot ⊢
  exact (mem_candidates (htop.subset hslot)).1

theorem stable_greedy (hharts : 0 < q.harts) (hn : q.harts - 1 ≤ n)
    (htop : Top n q.candidates top) :
    q.sharing.Stable
      (greedy Slot.weight Slot.threads top q.harts q.countedWeight).toFinset := by
  have hpos : ∀ slot ∈ top, 0 < slot.threads := fun slot hslot =>
    (mem_candidates (htop.subset hslot)).2
  obtain ⟨taken, rest, hgreedy, hparts, hsum, htaken, hrest⟩ :=
    greedy_spec hharts hpos (sum_weight_le hnodup htop) htop.sorted
  rw [hgreedy]
  have hmem : ∀ slot ∈ taken, slot ∈ top := fun slot hslot =>
    hparts ▸ mem_append_left _ hslot
  have htakenNodup : taken.Nodup := (nodup_append.mp (hparts ▸ htop.nodup)).1
  have hsupply : q.sharing.supplyLeft taken.toFinset =
      q.harts - (taken.map Slot.threads).sum := by
    rw [Sharing.supplyLeft, sum_toFinset _ htakenNodup]
    rfl
  have hweight : q.sharing.weightLeft taken.toFinset = q.countedWeight -
      (taken.map Slot.weight).sum := by
    have hsub : taken.toFinset ⊆ q.sharing.all := fun slot hslot =>
      mem_toFinset.mpr
        (mem_candidates (htop.subset (hmem slot (mem_toFinset.mp hslot)))).1
    have hsdiff := Finset.sum_sdiff (f := Slot.weight) hsub
    rw [sum_toFinset _ htakenNodup, sharing, sum_toFinset _ (hnodup.filter _)] at hsdiff
    exact Nat.eq_sub_of_add_eq hsdiff
  constructor
  · intro slot hslot
    exact mem_toFinset.mpr (htop.subset (hmem slot (mem_toFinset.mp hslot)))
  · rw [sum_toFinset _ htakenNodup]
    exact hsum
  · intro slot hslot
    rw [hsupply, hweight, mem_toFinset]
    refine ⟨htaken slot, fun hmore => ?_⟩
    by_contra hnot
    have hcandidate : slot ∈ q.candidates := mem_toFinset.mp hslot
    refine absurd hmore (not_lt.mpr ?_)
    by_cases hin : slot ∈ top
    · rw [hparts, mem_append] at hin
      exact hrest slot (hin.resolve_left hnot)
    obtain ⟨hlength, hlighter⟩ := htop.left_out slot hcandidate hin
    cases rest with
    | cons other rest =>
      have hother : other ∈ top := hparts ▸ mem_append_right _ mem_cons_self
      rw [← not_lt]
      exact fun hmore => absurd ((hlighter other hother).more (hpos other hother) hmore)
        (not_lt.mpr (hrest other mem_cons_self))
    | nil =>
      -- as many are capped as there are harts but one, each with one thread
      rw [append_nil] at hparts
      have hthreads : taken.length ≤ (taken.map Slot.threads).sum := by
        have hones := card_nsmul_le_sum (taken.map Slot.threads) 1 (fun k hk => by
          obtain ⟨s, hs, rfl⟩ := mem_map.mp hk
          exact hpos s (hmem s hs))
        rwa [length_map, smul_eq_mul, mul_one] at hones
      have hone : q.harts - (taken.map Slot.threads).sum ≤ 1 := by
        have hfull : taken.length = n := hparts ▸ hlength
        omega
      have hself : slot.weight ≤ q.sharing.weightLeft taken.toFinset := by
        refine Finset.single_le_sum (f := Slot.weight) (fun _ _ => Nat.zero_le _)
          (Finset.mem_sdiff.mpr ⟨?_, ?_⟩)
        · exact q.sharing.may_subset hslot
        · rwa [mem_toFinset]
      rw [← hweight]
      calc
        slot.weight * (q.harts - (taken.map Slot.threads).sum) ≤ slot.weight * 1 :=
          Nat.mul_le_mul_left _ hone
        _ ≤ slot.threads * q.sharing.weightLeft taken.toFinset := by
          rw [Nat.mul_comm]
          exact Nat.mul_le_mul (mem_candidates hcandidate).2 hself

theorem toFinset_greedy (hharts : 0 < q.harts) (hn : q.harts - 1 ≤ n)
    (htop : Top n q.candidates top) :
    (greedy Slot.weight Slot.threads top q.harts q.countedWeight).toFinset =
    q.waterFilled := by
  have hstable := stable_greedy hnodup hharts hn htop
  refine (hstable.iterate_fill ?_).symm
  calc
    _ ≤ q.sharing.may.card := Finset.card_le_card hstable.subset
    _ ≤ q.candidates.length := toFinset_card_le _
    _ ≤ q.slots.length := length_filter_le _ _

theorem mem_capSetOf (hharts : 0 < q.harts) (hn : q.harts - 1 ≤ n) (b : ℕ) :
    b ∈ q.capSetOf n ↔ ∃ slot ∈ q.waterFilled, slot.budget = b := by
  rw [capSetOf, capFrom_eq, mem_map,
    ← toFinset_greedy hnodup hharts hn (top_candidates hnodup)]
  simp only [mem_toFinset]

end

/-- On 2 to 16 harts the cap set is what water filling gives: in whatever order the
slots are, and with as many candidates or more; the threads capped leave a hart, and no
subtraction underflows. -/
theorem cap_is_water_filling (q : Board) (hnodup : q.budgets.Nodup) (htwo : 2 ≤ q.harts)
    (hmost : q.harts ≤ 16) :
    (q.cap.slots.map fun slot => (slot.budget, slot.capped)) =
      (q.slots.map fun slot => (slot.budget, decide (slot ∈ q.waterFilled))) ∧
    (∀ slots, slots.Perm q.slots → ∀ b, b ∈ { q with slots := slots }.capSet ↔
      b ∈ q.capSet) ∧
    (∀ n, q.harts - 1 ≤ n → ∀ b, b ∈ q.capSetOf n ↔ b ∈ q.capSet) ∧
    ((q.cap.slots.filter Slot.capped).map Slot.threads).sum ≤ q.harts - 1 ∧
    capChecked q.top q.harts q.countedWeight = some q.capSet := by
  have hslots : q.slots.Nodup := hnodup.of_map _
  have hharts : 0 < q.harts := by omega
  have hn : q.harts - 1 ≤ min (q.harts - 1) maxCapped := by
    rw [maxCapped]
    omega
  have hstable := stable_greedy hslots hharts hn (top_candidates hslots)
  rw [toFinset_greedy hslots hharts hn (top_candidates hslots)] at hstable
  have hcaps : ∀ b, b ∈ q.capSet ↔ ∃ slot ∈ q.waterFilled, slot.budget = b :=
    mem_capSetOf hslots hharts hn
  have hfilled : ∀ slot ∈ q.waterFilled, slot ∈ q.slots := fun slot hslot =>
    mem_of_mem_filter (mem_toFinset.mp (hstable.subset hslot))
  have hcapped : ∀ slot ∈ q.slots, q.capSet.contains slot.budget =
      decide (slot ∈ q.waterFilled) := by
    intro slot hslot
    rw [contains_eq_mem, decide_eq_decide, hcaps]
    constructor
    · rintro ⟨other, hother, heq⟩
      rwa [← eq_of_budget_eq hnodup (hfilled other hother) hslot heq]
    · exact fun hslot => ⟨slot, hslot, rfl⟩
  refine ⟨?_, fun slots hperm b => ?_, fun n hn b => ?_, ?_, ?_⟩
  · rw [cap, map_map]
    exact map_congr_left fun slot hslot =>
      congrArg (Prod.mk slot.budget) (hcapped slot hslot)
  · have hsame : { q with slots := slots }.waterFilled = q.waterFilled := by
      have hsharing : { q with slots := slots }.sharing = q.sharing := by
        simp only [sharing, candidates, toFinset_eq_of_perm _ _ (hperm.filter _)]
        rfl
      rw [waterFilled, hsharing, hperm.length_eq, waterFilled]
    rw [hcaps, ← hsame]
    exact mem_capSetOf (q := { q with slots := slots })
      (hperm.nodup_iff.mpr hslots) hharts hn b
  · rw [mem_capSetOf hslots hharts hn, hcaps]
  · rw [cap, filter_map, map_map]
    have hthreads := hstable.sum_lt
    have heq : q.waterFilled =
        (q.slots.filter fun slot => q.capSet.contains slot.budget).toFinset := by
      ext slot
      rw [mem_toFinset, mem_filter]
      refine ⟨fun hslot => ⟨hfilled slot hslot, ?_⟩, fun hslot => ?_⟩
      · rw [hcapped slot (hfilled slot hslot), decide_eq_true hslot]
      · exact of_decide_eq_true ((hcapped slot hslot.1).symm.trans hslot.2)
    rw [heq, sum_toFinset _ (hslots.filter _)] at hthreads
    exact Nat.le_sub_one_of_lt hthreads
  · exact capChecked_eq (sum_weight_le hslots (top_candidates hslots))

/-- Four harts: a heavy budget on one, a light one on one, and one with threads
waiting. -/
def fourHarts : Board where
  harts := 4
  capacity := 3
  slots :=
    [{ budget := 1, weight := 1, waiting := 3, running := 1 },
      { budget := 2, weight := 3, running := 1 },
      { budget := 3, weight := 9, running := 1, capped := true }]

theorem fourHarts_capped : fourHarts.capSet = [3, 2] ∧
    ((fourHarts.cap.slots.filter Slot.capped).map Slot.threads).sum ≤
    fourHarts.harts - 1 :=
  ⟨by decide,
    (cap_is_water_filling fourHarts (by decide) (by decide) (by decide)).2.2.2.1⟩

end Redoubt.Stride.Board
