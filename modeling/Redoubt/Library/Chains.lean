import Mathlib

/-!
# Chains through a word of each node, and elements kept in one list each

A chain is named by its first node's number plus one, 0 for none, and each node's word
names the next.  `Chained` relates such a name to the sequence of nodes it stands for.
`Placed` says that a family of lists holds every member of a set, each in one list and
once; elements may be added, taken away and moved from one list to another.
-/

namespace Redoubt

open Function List Function

/-- The chain that `head` names is `nodes`. -/
def Chained (next : ℕ → ℕ) : ℕ → List ℕ → Prop
  | head, [] => head = 0
  | head, node :: rest => head = node + 1 ∧ Chained next (next node) rest

namespace Chained

variable {next next' : ℕ → ℕ} {head node : ℕ} {nodes rest : List ℕ}

theorem nil_of_zero (hchain : Chained next 0 nodes) : nodes = [] := by
  cases nodes with
  | nil => rfl
  | cons node rest => exact absurd hchain.1 (Nat.succ_ne_zero node).symm

theorem cons_of_pos (hchain : Chained next head nodes) (hhead : head ≠ 0) :
    ∃ rest, nodes = (head - 1) :: rest ∧ Chained next (next (head - 1)) rest := by
  cases nodes with
  | nil => exact absurd hchain hhead
  | cons node rest =>
    obtain ⟨rfl, hrest⟩ := hchain
    exact ⟨rest, rfl, hrest⟩

/-- A chain reads only its own nodes' words. -/
theorem congr (hchain : Chained next head nodes)
    (hsame : ∀ node ∈ nodes, next' node = next node) : Chained next' head nodes := by
  induction nodes generalizing head with
  | nil => exact hchain
  | cons node rest ih =>
    refine ⟨hchain.1, ?_⟩
    rw [hsame node mem_cons_self]
    exact ih hchain.2 fun other hother => hsame other (mem_cons_of_mem node hother)

theorem update (hchain : Chained next head nodes) (hnode : node ∉ nodes) (value : ℕ) :
    Chained (update next node value) head nodes :=
  hchain.congr fun other hmem =>
    update_of_ne (fun heq : other = node => hnode (heq ▸ hmem)) _ _

/-- A node linked onto the front of a chain. -/
theorem push (hchain : Chained next head nodes) (hnode : node ∉ nodes) :
    Chained (Function.update next node head) (node + 1) (node :: nodes) := by
  refine ⟨rfl, ?_⟩
  rw [update_self]
  exact hchain.update hnode head

/-- A chain whose last node is linked to another chain. -/
theorem join {last tail : ℕ} {nodes' : List ℕ}
    (hchain : Chained next head (nodes ++ [last]))
    (htail : Chained next tail nodes') (hlast : last ∉ nodes) (hlast' : last ∉ nodes') :
    Chained (Function.update next last tail) head (nodes ++ [last] ++ nodes') := by
  induction nodes generalizing head with
  | nil =>
    refine ⟨hchain.1, ?_⟩
    rw [update_self]
    exact htail.update hlast' tail
  | cons node rest ih =>
    rw [mem_cons, not_or] at hlast
    refine ⟨hchain.1, ?_⟩
    rw [update_of_ne (Ne.symm hlast.1)]
    exact ih hchain.2 hlast.2

end Chained

/-- Every member is in one list of the family, once, and nothing else is. -/
structure Placed {ι α : Type*} (member : α → Prop) (lists : ι → List α) : Prop where
  mem_iff : ∀ a, member a ↔ ∃ i, a ∈ lists i
  nodup : ∀ i, (lists i).Nodup
  unique : ∀ a i j, a ∈ lists i → a ∈ lists j → i = j

namespace Placed

variable {ι α : Type*} {member member' : α → Prop} {lists : ι → List α} {i j : ι}

theorem member_of_mem (hplaced : Placed member lists) {a : α}
    (hmem : a ∈ lists i) : member a :=
  (hplaced.mem_iff a).2 ⟨i, hmem⟩

theorem notMem (hplaced : Placed member lists) {a : α} (hnot : ¬ member a) (i : ι) :
    a ∉ lists i := fun hmem => hnot (hplaced.member_of_mem hmem)

theorem congr (hplaced : Placed member lists) (hsame : ∀ a, member' a ↔ member a) :
    Placed member' lists := { hplaced with
  mem_iff a := (hsame a).trans (hplaced.mem_iff a) }

variable [DecidableEq ι]

/-- Elements that are not members yet join list `i`. -/
theorem add (hplaced : Placed member lists) {added into : List α}
    (hinto : into.Perm (added ++ lists i)) (hnodup : added.Nodup)
    (hnew : ∀ a ∈ added, ¬ member a) :
    Placed (fun a => member a ∨ a ∈ added) (update lists i into) where
  mem_iff a := by
    constructor
    · rintro (hmem | hmem)
      · obtain ⟨j, hj⟩ := (hplaced.mem_iff a).1 hmem
        refine ⟨j, ?_⟩
        by_cases hji : j = i
        · subst hji
          rw [update_self, hinto.mem_iff]
          exact mem_append_right added hj
        · rwa [update_of_ne hji]
      · refine ⟨i, ?_⟩
        rw [update_self, hinto.mem_iff]
        exact mem_append_left _ hmem
    · rintro ⟨j, hj⟩
      by_cases hji : j = i
      · subst hji
        rw [update_self, hinto.mem_iff, mem_append] at hj
        exact hj.symm.imp_left hplaced.member_of_mem
      · rw [update_of_ne hji] at hj
        exact Or.inl (hplaced.member_of_mem hj)
  nodup j := by
    by_cases hji : j = i
    · subst hji
      rw [update_self, hinto.nodup_iff, nodup_append']
      exact ⟨hnodup, hplaced.nodup j,
        fun a ha hmem => hnew a ha (hplaced.member_of_mem hmem)⟩
    · rw [update_of_ne hji]
      exact hplaced.nodup j
  unique a := by
    -- An element met in list `i` is old there, or new and in no other list.
    have hkey : ∀ j, j ≠ i → a ∈ lists j → a ∈ update lists i into i → False := by
      intro j hji hj hi
      rw [update_self, hinto.mem_iff, mem_append] at hi
      rcases hi with hi | hi
      · exact hnew a hi (hplaced.member_of_mem hj)
      · exact hji (hplaced.unique a j i hj hi)
    intro j k hj hk
    by_cases hji : j = i <;> by_cases hki : k = i
    · rw [hji, hki]
    · rw [hji] at hj
      rw [update_of_ne hki] at hk
      exact (hkey k hki hk hj).elim
    · rw [hki] at hk
      rw [update_of_ne hji] at hj
      exact (hkey j hji hj hk).elim
    · rw [update_of_ne hji] at hj
      rw [update_of_ne hki] at hk
      exact hplaced.unique a j k hj hk

/-- Elements of list `i` stop being members. -/
theorem remove (hplaced : Placed member lists) {gone rest : List α}
    (hlist : (lists i).Perm (gone ++ rest)) :
    Placed (fun a => member a ∧ a ∉ gone) (update lists i rest) := by
  have hdisj := nodup_append'.1 (hlist.nodup_iff.1 (hplaced.nodup i))
  have hsub : ∀ j a, a ∈ update lists i rest j → a ∈ lists j := by
    intro j a hmem
    by_cases hji : j = i
    · subst hji
      rw [update_self] at hmem
      exact hlist.mem_iff.2 (mem_append_right gone hmem)
    · rwa [update_of_ne hji] at hmem
  refine ⟨fun a => ⟨?_, ?_⟩, fun j => ?_, fun a j k hj hk =>
    hplaced.unique a j k (hsub j a hj) (hsub k a hk)⟩
  · rintro ⟨hmem, hgone⟩
    obtain ⟨j, hj⟩ := (hplaced.mem_iff a).1 hmem
    refine ⟨j, ?_⟩
    by_cases hji : j = i
    · subst hji
      rw [update_self]
      exact (mem_append.1 (hlist.mem_iff.1 hj)).resolve_left hgone
    · rwa [update_of_ne hji]
  · rintro ⟨j, hj⟩
    refine ⟨hplaced.member_of_mem (hsub j a hj), fun hgone => ?_⟩
    have hi : a ∈ lists i := hlist.mem_iff.2 (mem_append_left rest hgone)
    have hji := hplaced.unique a j i (hsub j a hj) hi
    subst hji
    rw [update_self] at hj
    exact hdisj.2.2 hgone hj
  · by_cases hji : j = i
    · subst hji
      rw [update_self]
      exact hdisj.2.1
    · rw [update_of_ne hji]
      exact hplaced.nodup j

/-- Elements of list `i` move to list `j`. -/
theorem move (hplaced : Placed member lists) (hne : j ≠ i) {moved rest into : List α}
    (hlist : (lists i).Perm (moved ++ rest)) (hinto : into.Perm (moved ++ lists j)) :
    Placed member (update (update lists i rest) j into) := by
  have hnodup := nodup_append'.1 (hlist.nodup_iff.1 (hplaced.nodup i))
  have hinto' : into.Perm (moved ++ update lists i rest j) := by
    rwa [update_of_ne hne]
  refine ((hplaced.remove hlist).add hinto' hnodup.1 fun a ha hmem => hmem.2 ha).congr
    fun a => ?_
  constructor
  · intro hmem
    by_cases hmoved : a ∈ moved
    · exact Or.inr hmoved
    · exact Or.inl ⟨hmem, hmoved⟩
  · rintro (hmem | hmem)
    · exact hmem.1
    · exact hplaced.member_of_mem (hlist.mem_iff.2 (mem_append_left rest hmem))

end Placed

end Redoubt
