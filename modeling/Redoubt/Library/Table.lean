import Mathlib

/-!
# Tallies of tables

A weight summed over the entries of a finite table, and how it changes when one
entry does.
-/

namespace Redoubt.Table

open List AList

variable {κ ν : Type} [DecidableEq κ]

/-- The weights of all entries together. -/
def tally (weight : κ → ν → ℕ) (table : AList fun _ : κ => ν) : ℕ :=
  (table.entries.map fun entry => weight entry.1 entry.2).sum

/-- The value at a key, the default one where there is no entry. -/
def value [Inhabited ν] (table : AList fun _ : κ => ν) (k : κ) : ν :=
  (table.lookup k).getD default

variable {weight : κ → ν → ℕ} {table : AList fun _ : κ => ν} {k : κ} {v : ν}

/-- An entry's weight, and those of the others. -/
theorem tally_eq_add_erase (hlookup : table.lookup k = some v) :
    tally weight table = weight k v + tally weight (table.erase k) := by
  have hmem : (⟨k, v⟩ : Sigma fun _ : κ => ν) ∈ table.entries :=
    mem_lookup_iff.mp hlookup
  obtain ⟨v', left, right, hnot, hsplit, herase⟩ :=
    exists_of_kerase (mem_keys_of_mem hmem)
  have hv : v' = v := by
    have hmem' : (⟨k, v'⟩ : Sigma fun _ : κ => ν) ∈ table.entries := by
      rw [hsplit]
      exact mem_append_right _ mem_cons_self
    exact Option.some.inj ((mem_lookup_iff.mpr hmem').symm.trans hlookup)
  subst hv
  simp only [tally, erase, herase]
  rw [hsplit]
  simp only [map_append, map_cons, sum_append, sum_cons]
  omega

theorem tally_insert :
    tally weight (table.insert k v) = weight k v + tally weight (table.erase k) := by
  simp only [tally, AList.insert, List.kinsert, map_cons, sum_cons, AList.erase]

theorem erase_of_lookup_none (hlookup : table.lookup k = none) :
    table.erase k = table :=
  ext (kerase_of_notMem_keys (lookup_eq_none.mp hlookup))

omit [DecidableEq κ] in
/-- A count of entries is a tally. -/
theorem length_filter_eq_tally (holds : κ → ν → Prop) [∀ k v, Decidable (holds k v)] :
    (table.entries.filter fun entry => holds entry.1 entry.2).length =
      tally (fun k v => if holds k v then 1 else 0) table := by
  rw [tally]
  induction table.entries with
  | nil => rfl
  | cons head tail ih =>
    by_cases hhead : holds head.1 head.2
    · simp only [filter_cons, hhead, decide_true, if_true, length_cons, ih,
        map_cons, sum_cons]
      omega
    · simp only [filter_cons, hhead, decide_false, Bool.false_eq_true, if_false, ih,
        map_cons, sum_cons, zero_add]

/-- Entry by entry. -/
theorem tally_le {weight' : κ → ν → ℕ}
    (hle : ∀ k v, table.lookup k = some v → weight k v ≤ weight' k v) :
    tally weight table ≤ tally weight' table :=
  sum_le_sum fun entry hentry => hle entry.1 entry.2 (mem_lookup_iff.mpr hentry)

omit [DecidableEq κ] in
theorem tally_add (weight' : κ → ν → ℕ) :
    tally (fun k v => weight k v + weight' k v) table = tally weight table +
      tally weight' table :=
  sum_map_add

omit [DecidableEq κ] in
theorem tally_mul (factor : ℕ) :
    tally (fun k v => factor * weight k v) table = factor * tally weight table := by
  rw [tally, tally, sum_map_mul_left]

omit [DecidableEq κ] in
theorem length_eq_tally : table.entries.length = tally (fun _ _ => 1) table := by
  rw [tally, map_const', sum_replicate, nsmul_one]
  rfl

theorem length_insert_of_lookup {w : ν} (hlookup : table.lookup k = some w) :
    (table.insert k v).entries.length = table.entries.length := by
  rw [length_eq_tally, length_eq_tally, tally_insert, tally_eq_add_erase hlookup]

theorem length_insert_of_lookup_none (hlookup : table.lookup k = none) :
    (table.insert k v).entries.length = table.entries.length + 1 := by
  rw [length_eq_tally, length_eq_tally, tally_insert,
    erase_of_lookup_none hlookup, add_comm]

theorem length_erase_le : (table.erase k).entries.length ≤ table.entries.length := by
  cases hlookup : table.lookup k with
  | none => rw [erase_of_lookup_none hlookup]
  | some v =>
    rw [length_eq_tally, length_eq_tally, tally_eq_add_erase hlookup]
    exact Nat.le_add_left _ _

/-- Distinct elements of a list weigh no more than all of it. -/
theorem sum_map_le_of_subset {σ : Type} {part whole : List σ} (hnodup : part.Nodup)
    (hsubset : part ⊆ whole) (size : σ → ℕ) :
    (part.map size).sum ≤ (whole.map size).sum := by
  obtain ⟨middle, hperm, hsublist⟩ := subperm_of_subset hnodup hsubset
  rw [← (hperm.map size).sum_eq]
  exact (hsublist.map size).sum_le_sum fun _ _ => Nat.zero_le _

/-- Entries in named slots, each of its own, weigh at most what the slots allow, and any
other at most `small`: a table with `room` for so many weighs no more than every named
slot full and the rest of the room at `small`. -/
theorem tally_le_slots {σ : Type} {slot : κ → Option σ} {named : List σ}
    {big : σ → ℕ} {small room : ℕ} (hbig : ∀ s ∈ named, small ≤ big s)
    (hnamed : ∀ k s, slot k = some s → s ∈ named)
    (hown : ∀ j k s, j ∈ table.keys → k ∈ table.keys → slot j = some s →
      slot k = some s → j = k)
    (hweight : ∀ k v, table.lookup k = some v →
      weight k v ≤ ((slot k).map big).getD small)
    (hlength : table.entries.length ≤ room) (hroom : named.length ≤ room) :
    tally weight table ≤ (named.map big).sum + (room - named.length) * small := by
  -- what a slot allows beyond `small`
  let extra : σ → ℕ := fun s => big s - small
  have hentries : tally weight table ≤
      tally (fun _ _ => small) table +
        tally (fun k _ => ((slot k).map extra).getD 0) table := by
    rw [← tally_add]
    refine tally_le fun k v hlookup => (hweight k v hlookup).trans ?_
    cases slot k with
    | none => exact Nat.le_add_right _ _
    | some s =>
      change big s ≤ small + (big s - small)
      omega
  have hextra : tally (fun k _ => ((slot k).map extra).getD 0) table ≤
      (named.map extra).sum := by
    have hsum : tally (fun k _ => ((slot k).map extra).getD 0) table =
        ((table.keys.filterMap slot).map extra).sum := by
      rw [tally, AList.keys]
      induction table.entries with
      | nil => rfl
      | cons head tail ih =>
        cases hslot : slot head.1 with
        | none => simp [hslot, ih]
        | some s => simp [hslot, ih]
    rw [hsum]
    refine sum_map_le_of_subset ?_ ?_ extra
    · refine pairwise_filterMap.mpr (Pairwise.imp_of_mem ?_ table.nodupKeys)
      intro j k hj hk hne s hs s' hs' heq
      exact hne (hown j k s hj hk hs (heq ▸ hs'))
    · intro s hs
      obtain ⟨k, _, hslot⟩ := mem_filterMap.mp hs
      exact hnamed k s hslot
  have hsmall : tally (fun _ _ => small) table ≤ room * small := by
    rw [tally, map_const', sum_replicate]
    exact Nat.mul_le_mul_right _ hlength
  have hnamed' : (named.map big).sum = (named.map extra).sum +
      named.length * small := by
    calc
      _ = (named.map fun s => extra s + small).sum := by
        refine congrArg List.sum (map_congr_left fun s hs => ?_)
        exact (Nat.sub_add_cancel (hbig s hs)).symm
      _ = _ := by
        rw [sum_map_add, map_const', sum_replicate]
        rfl
  have hsplit : room * small = (room - named.length) * small +
      named.length * small := by
    rw [← add_mul, Nat.sub_add_cancel hroom]
  omega

variable {j : κ}

theorem lookup_insert :
    (table.insert k v).lookup j = if j = k then some v else table.lookup j := by
  split_ifs with hj
  · rw [hj, AList.lookup_insert]
  · exact AList.lookup_insert_ne hj

theorem lookup_erase :
    (table.erase k).lookup j = if j = k then none else table.lookup j := by
  split_ifs with hj
  · rw [hj, AList.lookup_erase]
  · exact AList.lookup_erase_ne hj

section Value

variable [Inhabited ν]

theorem value_of_lookup (hlookup : table.lookup k = some v) : value table k = v := by
  rw [value, hlookup, Option.getD_some]

theorem value_insert :
    value (table.insert k v) j = if j = k then v else value table j := by
  rw [value, lookup_insert, apply_ite (Option.getD · default)]
  rfl

theorem value_erase :
    value (table.erase k) j = if j = k then default else value table j := by
  rw [value, lookup_erase, apply_ite (Option.getD · default)]
  rfl

/-- As `tally_eq_add_erase`, an absent entry weighing nothing. -/
theorem tally_eq_value_add (hzero : weight k default = 0) :
    tally weight table = weight k (value table k) + tally weight (table.erase k) := by
  cases hlookup : table.lookup k with
  | some v => rw [value_of_lookup hlookup, tally_eq_add_erase hlookup]
  | none =>
    rw [erase_of_lookup_none hlookup, value, hlookup, Option.getD_none, hzero, zero_add]

end Value

end Redoubt.Table
