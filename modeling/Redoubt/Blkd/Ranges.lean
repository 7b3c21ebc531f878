import Redoubt.Blkd.Gpt

/-!
# What an accepted table says

Partitions lie after the table and share no sector, whatever bytes the table was read
from.
-/

namespace Redoubt.Blkd

open Checks List

variable {loc : ArrayLocation} {diskSectors : ℕ}

/-- Each partition found is usable, and none shares a sector with another. -/
structure Found (loc : ArrayLocation) (found : List Partition) : Prop where
  usable : ∀ p ∈ found, loc.firstUsable ≤ p.firstLba
  apart : found.Pairwise fun p q => overlaps p q = false

theorem Found.entry {array : Bytes} {index : ℕ} {found found' : List Partition}
    (hentry : entryAt loc array index found = .ok found') (h : Found loc found) :
    Found loc found' := by
  rw [entryAt] at hentry
  split at hentry
  · exact nomatch hentry
  · split at hentry
    · cases hentry
      exact h
    · rw [used] at hentry
      obtain ⟨first, -, hentry⟩ := bind_eq_ok_iff.mp hentry
      obtain ⟨last, -, hentry⟩ := bind_eq_ok_iff.mp hentry
      obtain ⟨hinside, hentry⟩ := bind_eq_ok.mp hentry
      obtain ⟨hapart, hentry⟩ := bind_eq_ok.mp hentry
      cases hentry
      have hinside := refuse_eq_ok.mp hinside
      have hapart := refuse_eq_ok.mp hapart
      constructor
      · intro p hp
        rcases mem_append.mp hp with hold | hnew
        · exact h.usable p hold
        · rw [mem_singleton.mp hnew]
          exact not_lt.mp fun hlt => hinside (.inr (.inl hlt))
      · refine pairwise_append.mpr ⟨h.apart, pairwise_singleton _ _,
          fun p hp q hq => ?_⟩
        rw [mem_singleton.mp hq]
        exact Bool.eq_false_iff.mpr fun hover => hapart (any_eq_true.mpr ⟨p, hp, hover⟩)

variable {memory : Bool}

/-- Ranges of different entries share no sector, and lie in the usable part. -/
structure Apart (loc : ArrayLocation) (roots : List (Option Range)) : Prop where
  apart : ∀ (i j : ℕ) (r r' : Range) s, roots[i]? = some (some r) →
    roots[j]? = some (some r') → r.Has s → r'.Has s → i = j
  after : ∀ (i : ℕ) (r : Range) s, roots[i]? = some (some r) → r.Has s →
    loc.firstUsable ≤ s

end Redoubt.Blkd
