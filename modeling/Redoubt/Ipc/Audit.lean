import Redoubt.Ipc.Refinement

/-!
# The audit of a list

`List::audit` walks a list forward in memory that may hold anything.  A member is passed
only if its back link names the one before it, so no member is passed twice, and the
walk ends.
-/

namespace Redoubt.Ipclist

open Library List

/-- What an audit reads, all words of 64 bits. -/
structure Links (ε : Type) extends Walk ε where
  first_lt : first < 2 ^ 64
  next_lt : ∀ r, next r < 2 ^ 64

namespace Links

variable {ε σ : Type} (l : Links ε)

/-- Where the walk stands after the members it passed. -/
structure Walked (prev r n : ℕ) (passed : List ℕ) : Prop where
  linked : Linked l.next l.prev 0 passed r
  first : l.first = passed.headD r
  prev : prev = passed.getLastD 0
  count : n = passed.length
  distinct : passed.Nodup
  small : ∀ m ∈ passed, m ≠ 0 ∧ m < 2 ^ 64
  next_lt : r < 2 ^ 64

variable {l} {prev r n : ℕ} {passed : List ℕ}

section

variable (hwalked : l.Walked prev r n passed)
include hwalked

/-- A member passed before has another member before it. -/
theorem Walked.notMem (hprev : l.prev r = prev) : r ∉ passed := by
  intro hmem
  obtain ⟨front, back, rfl⟩ := append_of_mem hmem
  have hback := hwalked.linked.neighbours.1
  rw [hprev, hwalked.prev] at hback
  have hin := getLast_mem (cons_ne_nil r back)
  have hlast : (front ++ r :: back).getLastD 0 =
      (r :: back).getLast (cons_ne_nil r back) := by
    simp [getLast?_eq_some_getLast]
  rw [← hlast, hback] at hin
  rcases eq_or_ne front [] with rfl | hfront
  · exact (hwalked.small 0 hin).1 rfl
  · have hfrom : front.getLastD 0 ∈ front := by
      simp [getLast?_eq_some_getLast hfront]
    exact disjoint_of_nodup_append hwalked.distinct hfrom hin

theorem Walked.pass (hzero : r ≠ 0) (hprev : l.prev r = prev) :
    l.Walked r (l.next r) (n + 1) (passed ++ [r]) where
  linked :=
    Linked.append_iff.mpr ⟨hwalked.linked, hprev.trans hwalked.prev, rfl, trivial⟩
  first := by rw [hwalked.first, Linked.headD_append]; rfl
  prev := by simp
  count := by simp [hwalked.count]
  distinct := by
    rw [← concat_eq_append, nodup_concat]
    exact ⟨hwalked.notMem hprev, hwalked.distinct⟩
  small m hm := by
    rcases mem_append.mp hm with hm | hm
    · exact hwalked.small m hm
    · exact mem_singleton.mp hm ▸ ⟨hzero, hwalked.next_lt⟩
  next_lt := l.next_lt r

theorem Walked.length_lt : passed.length < 2 ^ 64 := by
  have hsub : passed.toFinset ⊆ Finset.Ioo 0 (2 ^ 64) := by
    intro m hm
    obtain ⟨hpos, hlt⟩ := hwalked.small m (mem_toFinset.mp hm)
    exact Finset.mem_Ioo.mpr ⟨pos_of_ne_zero hpos, hlt⟩
  have hcard := Finset.card_le_card hsub
  rw [toFinset_card_of_nodup hwalked.distinct, Nat.card_Ioo] at hcard
  omega

/-- The walk ends: each turn returns or passes a new member, of fewer than `2 ^ 64`. -/
theorem Walked.auditFrom_eq (each : σ → ℕ → Except ε σ) (fuel : ℕ) (s : σ)
    (hfuel : 2 ^ 64 ≤ fuel + passed.length) : ∃ members result,
      l.auditFrom each fuel s prev r n passed = some (members, result) ∧
      members.Nodup ∧ ∀ count last, result = .ok (count, last) →
        l.Walked (members.getLastD 0) 0 count members ∧
        ∀ tail, l.tail = some tail → tail = members.getLastD 0 := by
  induction fuel generalizing s prev r n passed with
  | zero => exact absurd hwalked.length_lt (by omega)
  | succ fuel ih =>
    unfold Walk.auditFrom
    split_ifs with hzero htail hprev
    · exact ⟨passed, _, rfl, hwalked.distinct, fun _ _ h => by simp at h⟩
    · refine ⟨passed, _, rfl, hwalked.distinct, fun count last hcount => ?_⟩
      obtain ⟨rfl, rfl⟩ := Prod.mk.inj (Except.ok.inj hcount)
      refine ⟨hwalked.prev ▸ hzero ▸ hwalked, fun tail hkept => ?_⟩
      rw [hkept, Option.isSome_some, eq_self, true_and, not_not] at htail
      exact (Option.some.inj htail).trans hwalked.prev
    · exact ⟨passed, _, rfl, hwalked.distinct, fun _ _ h => by simp at h⟩
    · have hpassed := hwalked.pass hzero (not_not.mp hprev)
      cases each s r with
      | error fault => exact ⟨_, _, rfl, hpassed.distinct, fun _ _ h => by simp at h⟩
      | ok s =>
        refine ih hpassed s ?_
        rw [length_append, length_singleton]
        omega

end

/-- In any memory the audit ends, having passed no member twice; it accepts only a list
whose forward links reach that many members, each with its back link right, up to the
tail. -/
theorem audit_sound (l : Links ε) (each : σ → ℕ → Except ε σ) (s : σ) :
    ∃ members result, l.audit each (2 ^ 64) s = some (members, result) ∧ members.Nodup ∧
      ∀ count last, result = .ok (count, last) → count = members.length ∧ 0 ∉ members ∧
        l.first = members.headD 0 ∧ Linked l.next l.prev 0 members 0 ∧
        ∀ tail, l.tail = some tail → tail = members.getLastD 0 := by
  have hstart : l.Walked 0 l.first 0 [] :=
    ⟨trivial, rfl, rfl, rfl, nodup_nil, fun _ h => by simp at h, l.first_lt⟩
  obtain ⟨members, result, haudit, hdistinct, hok⟩ :=
    hstart.auditFrom_eq each (2 ^ 64) s (le_add_right le_rfl)
  refine ⟨members, result, haudit, hdistinct, fun count last hcount => ?_⟩
  obtain ⟨hwalked, htail⟩ := hok count last hcount
  exact ⟨hwalked.count, fun h => (hwalked.small 0 h).1 rfl, hwalked.first,
    hwalked.linked, htail⟩

end Links

namespace IpcList

variable (list : IpcList) {w : Words} (hwords : ∀ page word, w page word < 2 ^ 64)

/-- What the audit of a list of threads reads. -/
def links : Links Fault where
  toWalk := list.walk w
  first_lt := hwords _ _
  next_lt _ := hwords _ _

variable {list} in
/-- The members of a list are words. -/
theorem IsList.walked {nodes : List ℕ} (hlist : IsList w list nodes) :
    (list.links hwords).Walked (nodes.getLastD 0) 0 nodes.length nodes where
  linked := hlist.linked
  first := hlist.first
  prev := rfl
  count := rfl
  distinct := hlist.distinct
  small m hm := by
    obtain ⟨front, back, rfl⟩ := append_of_mem hm
    have hnext := hlist.next_of_last
    rw [headD_cons] at hnext
    refine ⟨hlist.ne_zero hm, hnext ▸ ?_⟩
    split_ifs <;> exact hwords _ _
  next_lt := Nat.two_pow_pos 64

include hwords in
/-- The audit of a list that keeps a tail accepts the well-formed lists and nothing
else. -/
theorem audit_ok_iff (htail : list.tail ≠ none) (count : ℕ) :
    (list.audit w (2 ^ 64) (fun s _ => .ok s) ()).map Prod.fst = .ok count ↔
      ∃ nodes, IsList w list nodes ∧ nodes.length = count := by
  constructor
  · intro haudit
    have hstart : (list.links hwords).Walked 0 (list.first w) 0 [] :=
      ⟨trivial, rfl, rfl, rfl, nodup_nil, fun _ h => by simp at h, hwords _ _⟩
    obtain ⟨nodes, result, hwalk, hdistinct, hok⟩ :=
      hstart.auditFrom_eq (fun s _ => .ok s) (2 ^ 64) () (le_add_right le_rfl)
    have hresult : list.audit w (2 ^ 64) (fun s _ => .ok s) () = result := by
      rw [IpcList.audit, show (list.walk w).audit _ _ _ = _ from hwalk]
    rw [hresult] at haudit
    cases result with
    | error fault => exact absurd haudit (by simp [Except.map])
    | ok answer =>
      obtain rfl := Except.ok.inj haudit
      obtain ⟨hwalked, hlast⟩ := hok answer.1 answer.2 rfl
      obtain ⟨tail, hkept⟩ := Option.ne_none_iff_exists'.mp htail
      refine ⟨nodes, ⟨hwalked.linked, hwalked.first, ?_, hdistinct,
        fun h => (hwalked.small 0 h).1 rfl⟩, hwalked.count.symm⟩
      rw [last, hkept]
      exact hlast _ (congrArg (Option.map (w list.owner)) hkept)
  · rintro ⟨nodes, hlist, rfl⟩
    have hpass : nodes.foldlM (fun s _ => .ok s) () = (.ok () : Except Fault Unit) :=
      foldlM_pure
    rw [audit_ok hlist hpass (hlist.walked hwords).length_lt]
    rfl

/-- Endpoint 1 with three groups, on threads 9, 4 and 6. -/
def threeGroups : Words where
  read
    | .endpoint 1, .eGroups => 9
    | .endpoint 1, .eGroupsTail => 6
    | .thread 9, .gNext => 4
    | .thread 4, .gPrev => 9
    | .thread 4, .gNext => 6
    | .thread 6, .gPrev => 4
    | _, _ => 0

theorem audit_ok_of_threeGroups : IsList threeGroups (groups 1) [9, 4, 6] ∧
    ((groups 1).audit threeGroups (2 ^ 64) (fun s _ => .ok s) ()).map Prod.fst =
    .ok 3 := by
  have hlist : IsList threeGroups (groups 1) [9, 4, 6] :=
    ⟨by simp [Linked]; decide, rfl, rfl, by decide, by decide⟩
  have hwords : ∀ page word, threeGroups page word < 2 ^ 64 := by
    intro page word
    unfold threeGroups
    dsimp only
    split <;> decide
  exact ⟨hlist, (audit_ok_iff (groups 1) hwords (by decide) 3).mpr ⟨_, hlist, rfl⟩⟩

end IpcList

end Redoubt.Ipclist
