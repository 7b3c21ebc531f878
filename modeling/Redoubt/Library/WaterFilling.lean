import Mathlib

/-!
# Water filling

A supply is shared by weight among users, each of which needs only so much.  Round by
round, those whose share of what is left is more than they need are full: what they need
and what they weigh leaves the rest.  One pass over the users, the heaviest for their
need first, finds the same.
-/

namespace Redoubt.WaterFilling

open Finset

/-- Only the users in `may` can be full. -/
structure Sharing (ι : Type) where
  weight : ι → ℕ
  need : ι → ℕ
  all : Finset ι
  may : Finset ι
  supply : ℕ
  may_subset : may ⊆ all

variable {ι : Type} [DecidableEq ι]

namespace Sharing

variable (s : Sharing ι) (full : Finset ι)

def supplyLeft : ℕ := s.supply - ∑ i ∈ full, s.need i

def weightLeft : ℕ := ∑ i ∈ s.all \ full, s.weight i

/-- One round. -/
def fill : Finset ι :=
  full ∪ s.may.filter fun i => s.need i * s.weightLeft full < s.weight i *
    s.supplyLeft full

/-- Exactly the users in `full` have more than they need of what they leave. -/
structure Stable : Prop where
  subset : full ⊆ s.may
  sum_lt : ∑ i ∈ full, s.need i < s.supply
  mem_iff : ∀ i ∈ s.may, i ∈ full ↔
    s.need i * s.weightLeft full < s.weight i * s.supplyLeft full

end Sharing

variable {s : Sharing ι} {full part : Finset ι}

namespace Sharing.Stable

variable (hstable : s.Stable full) (hpart : part ⊆ full)
include hstable hpart

theorem supplyLeft_part :
    s.supplyLeft part = s.supplyLeft full + ∑ i ∈ full \ part, s.need i := by
  have hsum := sum_sdiff (f := s.need) hpart
  have hlt := hstable.sum_lt
  rw [supplyLeft, supplyLeft]
  omega

theorem weightLeft_part :
    s.weightLeft part = s.weightLeft full + ∑ i ∈ full \ part, s.weight i := by
  rw [weightLeft, weightLeft, ← sum_union (disjoint_left.mpr fun i hi hi' =>
    (mem_sdiff.mp hi).2 (mem_sdiff.mp hi').1)]
  refine sum_congr (Finset.ext fun i => ?_) fun _ _ => rfl
  have hall := fun hi : i ∈ full => s.may_subset (hstable.subset hi)
  simp only [mem_sdiff, mem_union]
  tauto

theorem fill_subset : s.fill part ⊆ full := by
  intro i hi
  rcases mem_union.mp hi with hi | hi
  · exact hpart hi
  obtain ⟨hi, hmore⟩ := mem_filter.mp hi
  by_contra hnot
  rw [hstable.mem_iff i hi, not_lt] at hnot
  rw [hstable.supplyLeft_part hpart, hstable.weightLeft_part hpart, mul_add,
    mul_add] at hmore
  have hsum : (∑ j ∈ full \ part, s.need j) * s.weightLeft full ≤
      (∑ j ∈ full \ part, s.weight j) * s.supplyLeft full := by
    rw [sum_mul, sum_mul]
    refine sum_le_sum fun j hj => ?_
    have hj := (mem_sdiff.mp hj).1
    exact ((hstable.mem_iff j (hstable.subset hj)).mp hj).le
  -- the users still to come weigh more for their need than `i`
  have hcross : s.weight i * ∑ j ∈ full \ part, s.need j ≤
      s.need i * ∑ j ∈ full \ part, s.weight j := by
    refine Nat.le_of_mul_le_mul_right ?_ (Nat.sub_pos_of_lt hstable.sum_lt)
    calc
      s.weight i * (∑ j ∈ full \ part, s.need j) * s.supplyLeft full
          = s.weight i * s.supplyLeft full * ∑ j ∈ full \ part, s.need j := by ring
      _ ≤ s.need i * s.weightLeft full * ∑ j ∈ full \ part, s.need j :=
          Nat.mul_le_mul_right _ hnot
      _ = s.need i * ((∑ j ∈ full \ part, s.need j) * s.weightLeft full) := by ring
      _ ≤ s.need i * ((∑ j ∈ full \ part, s.weight j) * s.supplyLeft full) :=
          Nat.mul_le_mul_left _ hsum
      _ = s.need i * (∑ j ∈ full \ part, s.weight j) * s.supplyLeft full := by ring
  omega

/-- A round that fills nobody has found them all. -/
theorem eq_of_fill (hfill : s.fill part = part) : part = full := by
  by_contra hne
  obtain ⟨i, hi, hnot⟩ := exists_of_ssubset (hpart.ssubset_of_ne hne)
  have hleft : (∑ j ∈ full \ part, s.weight j) * s.supplyLeft part ≤
      (∑ j ∈ full \ part, s.need j) * s.weightLeft part := by
    rw [sum_mul, sum_mul]
    refine sum_le_sum fun j hj => ?_
    obtain ⟨hj, hnot⟩ := mem_sdiff.mp hj
    rw [← not_lt]
    intro hmore
    refine hnot ?_
    rw [← hfill]
    exact mem_union_right _ (mem_filter.mpr ⟨hstable.subset hj, hmore⟩)
  have hstrict : (∑ j ∈ full \ part, s.need j) * s.weightLeft full <
      (∑ j ∈ full \ part, s.weight j) * s.supplyLeft full := by
    rw [sum_mul, sum_mul]
    refine sum_lt_sum_of_nonempty ⟨i, mem_sdiff.mpr ⟨hi, hnot⟩⟩ fun j hj => ?_
    have hj := (mem_sdiff.mp hj).1
    exact (hstable.mem_iff j (hstable.subset hj)).mp hj
  rw [hstable.supplyLeft_part hpart, hstable.weightLeft_part hpart] at hleft
  nlinarith

omit hpart

/-- Enough rounds fill exactly the users of a stable set. -/
theorem iterate_fill {n : ℕ} (hn : full.card ≤ n) : s.fill^[n] ∅ = full := by
  have hrounds : ∀ n, s.fill^[n] ∅ ⊆ full ∧
      (s.fill^[n] ∅ = full ∨ n ≤ (s.fill^[n] ∅).card) := by
    intro n
    induction n with
    | zero => exact ⟨empty_subset _, Or.inr (Nat.zero_le _)⟩
    | succ n ih =>
      obtain ⟨hpart, hrounds⟩ := ih
      rw [Function.iterate_succ_apply']
      have hfilled := hstable.fill_subset hpart
      refine ⟨hfilled, ?_⟩
      by_cases hfixed : s.fill (s.fill^[n] ∅) = s.fill^[n] ∅
      · rw [hfixed]
        exact Or.inl (hstable.eq_of_fill hpart hfixed)
      · have hmore := card_lt_card (subset_union_left.ssubset_of_ne (Ne.symm hfixed))
        rcases hrounds with hall | hcard
        · exact absurd (subset_antisymm (hfilled.trans hall.ge) subset_union_left)
            hfixed
        · exact Or.inr (Nat.succ_le_of_lt (lt_of_le_of_lt hcard hmore))
  obtain ⟨hpart, hall | hcard⟩ := hrounds n
  · exact hall
  · exact eq_of_subset_of_card_le hpart (hn.trans hcard)

end Sharing.Stable

/-! ## One pass -/

section

variable {α : Type} (weight need : α → ℕ)

/-- In order, while a user's share of what is left is more than it needs. -/
def greedy : List α → ℕ → ℕ → List α
  | [], _, _ => []
  | i :: rest, supply, left =>
    if weight i * supply ≤ need i * left then []
    else i :: greedy rest (supply - need i) (left - weight i)

variable {weight need}

/-- `i` weighs no more for its need than `j`. -/
def Lighter (weight need : α → ℕ) (i j : α) : Prop :=
  weight i * need j ≤ weight j * need i

theorem Lighter.trans {i j k : α} (hneed : 0 < need j) (hij : Lighter weight need i j)
    (hjk : Lighter weight need j k) : Lighter weight need i k := by
  refine Nat.le_of_mul_le_mul_right ?_ hneed
  rw [Lighter] at hij hjk
  nlinarith

/-- A user whose share is more than it needs, beside one that is no lighter. -/
theorem Lighter.more {i j : α} (hneed : 0 < need j) (hij : Lighter weight need i j)
    {supply left : ℕ}
    (hmore : need i * left < weight i * supply) :
    need j * left < weight j * supply := by
  refine Nat.lt_of_mul_lt_mul_left (a := need i) ?_
  calc
    need i * (need j * left) = need j * (need i * left) := by ring
    _ < need j * (weight i * supply) := Nat.mul_lt_mul_of_pos_left hmore hneed
    _ = weight i * need j * supply := by ring
    _ ≤ weight j * need i * supply := Nat.mul_le_mul_right _ hij
    _ = need i * (weight j * supply) := by ring

/-- What the pass takes has more than it needs of what it leaves, and what it passes
over has not. -/
theorem greedy_spec {users : List α} {supply left : ℕ} (hsupply : 0 < supply)
    (hneed : ∀ i ∈ users, 0 < need i) (hleft : (users.map weight).sum ≤ left)
    (hsorted : users.Pairwise fun i j => Lighter weight need j i) :
    ∃ taken rest, greedy weight need users supply left = taken ∧ users = taken ++ rest ∧
      (taken.map need).sum < supply ∧
      (∀ i ∈ taken, need i * (left - (taken.map weight).sum) <
        weight i * (supply - (taken.map need).sum)) ∧
      ∀ i ∈ rest, weight i * (supply - (taken.map need).sum) ≤
      need i * (left - (taken.map weight).sum) := by
  induction users generalizing supply left with
  | nil => exact ⟨[], [], rfl, rfl, hsupply, by simp, by simp⟩
  | cons i users ih =>
    rw [List.pairwise_cons] at hsorted
    rw [List.forall_mem_cons] at hneed
    rw [List.map_cons, List.sum_cons] at hleft
    rw [greedy]
    split_ifs with hfew
    · refine ⟨[], i :: users, rfl, rfl, hsupply, by simp, ?_⟩
      rw [List.forall_mem_cons]
      refine ⟨hfew, fun j hj => ?_⟩
      rw [← not_lt]
      exact fun hmore => absurd ((hsorted.1 j hj).more hneed.1 hmore) (not_lt.mpr hfew)
    · rw [not_le] at hfew
      have hweight : need i * weight i ≤ need i * left :=
        Nat.mul_le_mul_left _ (by omega)
      have hlt : need i < supply := by
        refine Nat.lt_of_mul_lt_mul_left (a := weight i) ?_
        rw [mul_comm]
        exact hweight.trans_lt hfew
      obtain ⟨taken, rest, hgreedy, heq, hsum, htaken, hrest⟩ :=
        ih (Nat.sub_pos_of_lt hlt) hneed.2 (show _ ≤ left - weight i by omega) hsorted.2
      refine ⟨i :: taken, rest, congrArg _ hgreedy, congrArg _ heq, ?_⟩
      rw [List.map_cons, List.sum_cons, List.map_cons, List.sum_cons, ← Nat.sub_sub,
        ← Nat.sub_sub,
        List.forall_mem_cons]
      refine ⟨by omega, ⟨?_, htaken⟩, hrest⟩
      cases taken with
      | nil =>
        rw [List.map_nil, List.map_nil, List.sum_nil, Nat.sub_zero,
          Nat.sub_zero, Nat.mul_sub,
          Nat.mul_sub, mul_comm (weight i) (need i)]
        omega
      | cons j taken =>
        have hj : j ∈ users := heq ▸ List.mem_cons_self
        exact (hsorted.1 j hj).more hneed.1 (htaken j List.mem_cons_self)

end

end Redoubt.WaterFilling
