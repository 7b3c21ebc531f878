import Redoubt.Library.Carving
import Redoubt.Quota.Ledger

/-!
# The tree of live roots

A path's ancestors form a chain, so the live roots are a tree: each but the volume's
root below the deepest live root strictly above it.  A root that comes or goes takes
over from its parent the roots under it, or leaves them to it.
-/

namespace Redoubt.Quota

open Finset

variable {path dir dir' : Path}

theorem under_iff : under path dir = true ↔ dir = [] ∨ path = dir ∨ ∃ rest,
    path = dir ++ slash :: rest := by
  simp only [under, Bool.or_eq_true, Bool.and_eq_true, List.isEmpty_iff,
    List.isPrefixOf_iff_prefix,
    beq_iff_eq]
  refine or_congr_right ?_
  constructor
  · rintro ⟨⟨rest, rfl⟩, hrest⟩
    rw [List.drop_left] at hrest
    rcases hrest with rfl | hhead
    · exact Or.inl (List.append_nil dir)
    · obtain ⟨tail, rfl⟩ := List.head?_eq_some_iff.mp hhead
      exact Or.inr ⟨tail, rfl⟩
  · rintro (rfl | ⟨rest, rfl⟩)
    · exact ⟨List.prefix_rfl, Or.inl (List.drop_length)⟩
    · refine ⟨List.prefix_append _ _, Or.inr ?_⟩
      rw [List.drop_left]
      rfl

theorem under_nil (path : Path) : under path [] = true := under_iff.mpr (Or.inl rfl)

theorem under_trans (hpath : under path dir = true) (hdir : under dir dir' = true) :
    under path dir' = true := by
  rcases under_iff.mp hdir with rfl | rfl | ⟨rest, rfl⟩
  · exact under_nil path
  · exact hpath
  · rcases under_iff.mp hpath with hnil | rfl | ⟨rest', rfl⟩
    · exact absurd hnil (by simp)
    · exact hdir
    · exact under_iff.mpr (Or.inr (Or.inr ⟨rest ++ slash :: rest', by simp⟩))

/-- A directory strictly above has a shorter path. -/
theorem length_lt_of_under (hunder : under path dir = true) (hne : dir ≠ path) :
    dir.length < path.length := by
  rcases under_iff.mp hunder with rfl | rfl | ⟨rest, rfl⟩
  · exact List.length_pos_iff.mpr fun heq => hne heq.symm
  · exact absurd rfl hne
  · simp

theorem exists_append_of_under (hunder : under path dir = true) :
    ∃ rest, path = dir ++ rest ∧ (dir = [] ∨ rest = [] ∨ rest.head? = some slash) := by
  rcases under_iff.mp hunder with rfl | rfl | ⟨rest, rfl⟩
  · exact ⟨path, rfl, Or.inl rfl⟩
  · exact ⟨[], (List.append_nil _).symm, Or.inr (Or.inl rfl)⟩
  · exact ⟨slash :: rest, rfl, Or.inr (Or.inr rfl)⟩

/-- Of two directories above a path one is above the other. -/
theorem under_of_length_le (hdir : under path dir = true)
    (hdir' : under path dir' = true)
    (hle : dir.length ≤ dir'.length) : under dir' dir = true := by
  obtain ⟨rest, hrest, hnext⟩ := exists_append_of_under hdir
  obtain ⟨rest', hrest', _⟩ := exists_append_of_under hdir'
  obtain ⟨middle, rfl⟩ := List.prefix_of_prefix_length_le ⟨rest, hrest.symm⟩
    ⟨rest', hrest'.symm⟩ hle
  rw [hrest', List.append_assoc, List.append_cancel_left_eq] at hrest
  cases middle with
  | nil => exact under_iff.mpr (Or.inr (Or.inl (List.append_nil dir)))
  | cons head tail =>
    rcases hnext with rfl | rfl | hslash
    · exact under_nil _
    · exact absurd hrest (by simp)
    · rw [← hrest, List.cons_append, List.head?_cons, Option.some.injEq] at hslash
      exact under_iff.mpr (Or.inr (Or.inr ⟨tail, by rw [hslash]⟩))

theorem eq_of_length_eq (hdir : under path dir = true) (hdir' : under path dir' = true)
    (hlength : dir.length = dir'.length) : dir = dir' := by
  by_contra hne
  exact (length_lt_of_under (under_of_length_le hdir hdir' hlength.le) hne).ne hlength

/-! ### Parents -/

/-- The deepest of a set of paths strictly above one; the volume's root if there is
none. -/
noncomputable def parentIn (live : Finset Path) (path : Path) : Path :=
  if h : (live.filter fun dir => dir ≠ path ∧ under path dir = true).Nonempty then
    (exists_max_image _ List.length h).choose
  else []

variable {live : Finset Path}

/-- What the parent of a path is. -/
structure IsParent (live : Finset Path) (path dir : Path) : Prop where
  mem : dir ∈ live
  ne : dir ≠ path
  under : under path dir = true
  deepest : ∀ dir' ∈ live, dir' ≠ path → Quota.under path dir' = true →
    dir'.length ≤ dir.length

theorem isParent_parentIn (hnil : [] ∈ live) (hpath : path ≠ []) :
    IsParent live path (parentIn live path) := by
  have hne : (live.filter fun dir => dir ≠ path ∧ under path dir = true).Nonempty :=
    ⟨[], mem_filter.mpr ⟨hnil, fun heq => hpath heq.symm, under_nil path⟩⟩
  rw [parentIn, dif_pos hne]
  obtain ⟨hmem, hmax⟩ := (exists_max_image _ List.length hne).choose_spec
  rw [mem_filter] at hmem
  exact ⟨hmem.1, hmem.2.1, hmem.2.2, fun dir' hdir' hne' hunder =>
    hmax dir' (mem_filter.mpr ⟨hdir', hne', hunder⟩)⟩

theorem IsParent.eq (hdir : IsParent live path dir) (hdir' : IsParent live path dir') :
    dir = dir' := by
  refine eq_of_length_eq hdir.under hdir'.under (le_antisymm ?_ ?_)
  · exact hdir'.deepest dir hdir.mem hdir.ne hdir.under
  · exact hdir.deepest dir' hdir'.mem hdir'.ne hdir'.under

theorem IsParent.length_lt (hdir : IsParent live path dir) : dir.length < path.length :=
  length_lt_of_under hdir.under hdir.ne

theorem IsParent.eq_parentIn (hnil : [] ∈ live) (hdir : IsParent live path dir) :
    parentIn live path = dir := by
  refine (isParent_parentIn hnil ?_).eq hdir
  intro heq
  have hlt := hdir.length_lt
  rw [heq] at hlt
  exact Nat.not_lt_zero _ hlt

/-- The tree of a set of live roots. -/
noncomputable def tree (live : Finset Path) (hnil : [] ∈ live) (quota held : Path → ℕ) :
    Carving Path where
  nodes := live
  top := []
  top_mem := hnil
  parent := parentIn live
  parent_mem _ _ hne := (isParent_parentIn hnil hne).mem
  rank := List.length
  rank_lt _ _ hne := (isParent_parentIn hnil hne).length_lt
  quota := quota
  held := held

/-! ### A root that comes or goes -/

section Insert

variable {m : Path} (hnil : [] ∈ live) (hm : m ∉ live)
include hnil hm

theorem ne_nil_of_notMem : m ≠ [] := fun heq => hm (heq ▸ hnil)

/-- The new root's own parent. -/
theorem parentIn_insert_self : parentIn (insert m live) m = parentIn live m := by
  have hparent := isParent_parentIn hnil (ne_nil_of_notMem hnil hm)
  refine IsParent.eq_parentIn (mem_insert_of_mem hnil)
    ⟨mem_insert_of_mem hparent.mem, hparent.ne,
    hparent.under, fun dir hdir hne => ?_⟩
  exact hparent.deepest dir ((mem_insert.mp hdir).resolve_left hne) hne

/-- The new root is the parent of what lies under it and had its parent. -/
theorem parentIn_insert (hpath : path ∈ live) (hne : path ≠ []) :
    parentIn (insert m live) path =
      if under path m = true ∧ parentIn live path = parentIn live m then m
      else parentIn live path := by
  have hparent := isParent_parentIn hnil hne
  have hparentNew := isParent_parentIn hnil (ne_nil_of_notMem hnil hm)
  have hmpath : m ≠ path := fun heq => hm (heq ▸ hpath)
  split
  · rename_i hbelow
    refine IsParent.eq_parentIn (mem_insert_of_mem hnil) ⟨mem_insert_self _ _, hmpath,
      hbelow.1, ?_⟩
    intro dir hdir hdirne hunder
    rcases mem_insert.mp hdir with rfl | hdir
    · exact le_rfl
    · -- an older root above the path is no deeper than the parent it shares with the
      -- new one
      refine (hparent.deepest dir hdir hdirne hunder).trans ?_
      rw [hbelow.2]
      exact hparentNew.length_lt.le
  · rename_i hother
    refine IsParent.eq_parentIn (mem_insert_of_mem hnil)
      ⟨mem_insert_of_mem hparent.mem, hparent.ne,
      hparent.under, ?_⟩
    intro dir hdir hdirne hunder
    rcases mem_insert.mp hdir with rfl | hdir
    · by_contra hdeeper
      rw [not_le] at hdeeper
      refine hother ⟨hunder, eq_of_length_eq hparent.under
        (under_trans hunder hparentNew.under) (le_antisymm ?_ ?_)⟩
      · refine hparentNew.deepest _ hparent.mem ?_
          (under_of_length_le hparent.under hunder hdeeper.le)
        exact fun heq => hdeeper.ne (congrArg List.length heq)
      · refine hparent.deepest _ hparentNew.mem ?_ (under_trans hunder hparentNew.under)
        exact fun heq =>
          hparentNew.length_lt.not_ge (heq ▸ (length_lt_of_under hunder hdirne).le)
    · exact hparent.deepest dir hdir hdirne hunder

variable {quota held quota' held' : Path → ℕ}

/-- The roots that get a new parent. -/
noncomputable def lowered (live : Finset Path) (m : Path) : Finset Path :=
  live.filter fun path => path ≠ [] ∧ parentIn live path = parentIn live m ∧
    under path m = true

theorem mem_children_insert {j k : Path} :
    j ∈ (tree (insert m live) (mem_insert_of_mem hnil) quota' held').children k ↔
      j = m ∧ parentIn live m = k ∨ j ∈ live ∧ j ≠ [] ∧
          (if under j m = true ∧ parentIn live j = parentIn live m then m
            else parentIn live j) = k := by
  rw [Carving.mem_children]
  change j ∈ insert m live ∧ j ≠ [] ∧ parentIn (insert m live) j = k ↔ _
  constructor
  · rintro ⟨hmem, hne, hparent⟩
    by_cases hjm : j = m
    · subst hjm
      rw [parentIn_insert_self hnil hm] at hparent
      exact Or.inl ⟨rfl, hparent⟩
    · have hlive := (mem_insert.mp hmem).resolve_left hjm
      rw [parentIn_insert hnil hm hlive hne] at hparent
      exact Or.inr ⟨hlive, hne, hparent⟩
  · rintro (⟨rfl, hparent⟩ | ⟨hlive, hne, hparent⟩)
    · rw [parentIn_insert_self hnil hm]
      exact ⟨mem_insert_self _ _, ne_nil_of_notMem hnil hm, hparent⟩
    · rw [parentIn_insert hnil hm hlive hne]
      exact ⟨mem_insert_of_mem hlive, hne, hparent⟩

omit hm in
theorem lowered_subset :
    lowered live m ⊆ (tree live hnil quota held).children (parentIn live m) := by
  intro j hj
  rw [lowered, mem_filter] at hj
  exact Carving.mem_children.mpr ⟨hj.1, hj.2.1, hj.2.2.1⟩

theorem children_insert_self :
    (tree (insert m live) (mem_insert_of_mem hnil) quota' held').children m =
    lowered live m := by
  ext j
  have hself := (isParent_parentIn hnil (ne_nil_of_notMem hnil hm)).ne
  rw [mem_children_insert hnil hm, lowered, mem_filter]
  constructor
  · rintro (⟨_, heq⟩ | ⟨hlive, hne, hparent⟩)
    · exact absurd heq hself
    · split at hparent
      · rename_i hbelow
        exact ⟨hlive, hne, hbelow.2, hbelow.1⟩
      · exact absurd (hparent ▸ (isParent_parentIn hnil hne).mem) hm
  · rintro ⟨hlive, hne, hparent, hunder⟩
    exact Or.inr ⟨hlive, hne, if_pos ⟨hunder, hparent⟩⟩

theorem children_insert_parent :
    (tree (insert m live) (mem_insert_of_mem hnil) quota' held').children
      (parentIn live m) =
      insert m ((tree live hnil quota held).children (parentIn live m) \ lowered
        live m) := by
  ext j
  have hself := (isParent_parentIn hnil (ne_nil_of_notMem hnil hm)).ne
  rw [mem_children_insert hnil hm, mem_insert, mem_sdiff, Carving.mem_children,
    lowered, mem_filter]
  change _ ↔ j = m ∨ (j ∈ live ∧ j ≠ [] ∧ parentIn live j = parentIn live m) ∧ _
  constructor
  · rintro (⟨rfl, _⟩ | ⟨hlive, hne, hparent⟩)
    · exact Or.inl rfl
    · split at hparent
      · exact absurd hparent.symm hself
      · rename_i hother
        exact Or.inr ⟨⟨hlive, hne, hparent⟩, fun hlow => hother ⟨hlow.2.2.2, hparent⟩⟩
  · rintro (rfl | ⟨⟨hlive, hne, hparent⟩, hnotlow⟩)
    · exact Or.inl ⟨rfl, rfl⟩
    · refine Or.inr ⟨hlive, hne, ?_⟩
      rw [if_neg fun hbelow => hnotlow ⟨hlive, hne, hparent, hbelow.1⟩, hparent]

theorem children_insert_of_ne {k : Path} (hkm : k ≠ m) (hkp : k ≠ parentIn live m) :
    (tree (insert m live) (mem_insert_of_mem hnil) quota' held').children k =
      (tree live hnil quota held).children k := by
  ext j
  rw [mem_children_insert hnil hm, Carving.mem_children]
  change _ ↔ j ∈ live ∧ j ≠ [] ∧ parentIn live j = k
  constructor
  · rintro (⟨_, heq⟩ | ⟨hlive, hne, hparent⟩)
    · exact absurd heq.symm hkp
    · split at hparent
      · exact absurd hparent.symm hkm
      · exact ⟨hlive, hne, hparent⟩
  · rintro ⟨hlive, hne, hparent⟩
    refine Or.inr ⟨hlive, hne, ?_⟩
    rw [if_neg fun hbelow => hkp (hparent.symm.trans hbelow.2), hparent]

/-- Without it its parent has its children for its own again. -/
theorem children_parent_eq : (tree live hnil quota held).children (parentIn live m) =
      ((tree (insert m live) (mem_insert_of_mem hnil) quota' held').children
        (parentIn live m)).erase m ∪
        (tree (insert m live) (mem_insert_of_mem hnil) quota' held').children m := by
  have hnotin : m ∉ (tree live hnil quota held).children (parentIn live m) \
      lowered live m :=
    fun hmem => hm (Carving.mem_children.mp (mem_sdiff.mp hmem).1).1
  have hparent : (tree (insert m live) (mem_insert_of_mem hnil) quota' held').children
      (parentIn live m) =
        insert m
          ((tree live hnil quota held).children (parentIn live m) \ lowered live m) :=
    children_insert_parent hnil hm
  rw [children_insert_self hnil hm, hparent, erase_insert hnotin,
    sdiff_union_of_subset (lowered_subset hnil)]

end Insert

/-! ### The roots nearest below a directory -/

/-- A path below `dir` with no live root between them. -/
structure IsNearest (live : Finset Path) (dir path : Path) : Prop where
  ne : dir ≠ path
  under : under path dir = true
  between : ∀ q ∈ live, q ≠ path → q ≠ dir → Quota.under path q = true →
    ¬ Quota.under q dir = true

theorem IsNearest.ne_nil (hpath : IsNearest live dir path) : path ≠ [] := by
  rintro rfl
  exact absurd (length_lt_of_under hpath.under hpath.ne) (Nat.not_lt_zero _)

/-- Below a live root they are its children. -/
theorem isNearest_iff_of_mem (hnil : [] ∈ live) (hdir : dir ∈ live) :
    IsNearest live dir path ↔ path ≠ [] ∧ parentIn live path = dir := by
  constructor
  · intro hpath
    refine ⟨hpath.ne_nil, IsParent.eq_parentIn hnil ⟨hdir, hpath.ne, hpath.under, ?_⟩⟩
    intro q hq hne hunder
    by_contra hdeeper
    rw [not_le] at hdeeper
    refine hpath.between q hq hne ?_ hunder
      (under_of_length_le hpath.under hunder hdeeper.le)
    exact fun heq => hdeeper.ne (congrArg List.length heq.symm)
  · rintro ⟨hne, rfl⟩
    have hparent := isParent_parentIn hnil hne
    refine ⟨hparent.ne, hparent.under, fun q hq hqne hqdir hunder hbetween => ?_⟩
    exact (length_lt_of_under hbetween hqdir.symm).not_ge
      (hparent.deepest q hq hqne hunder)

/-- Below a directory that is not live they are those it would get from its parent. -/
theorem isNearest_iff_of_notMem (hnil : [] ∈ live) (hdir : dir ∉ live)
    (hpath : path ∈ live) :
    IsNearest live dir path ↔ path ∈ lowered live dir := by
  have hparentDir := isParent_parentIn hnil (ne_nil_of_notMem hnil hdir)
  rw [lowered, mem_filter]
  constructor
  · intro hnearest
    have hparent := isParent_parentIn hnil hnearest.ne_nil
    refine ⟨hpath, hnearest.ne_nil, ?_, hnearest.under⟩
    have hne : parentIn live path ≠ dir := fun heq => hdir (heq ▸ hparent.mem)
    have habove : under dir (parentIn live path) = true := by
      rcases le_total (parentIn live path).length dir.length with hle | hle
      · exact under_of_length_le hparent.under hnearest.under hle
      · exact absurd (under_of_length_le hnearest.under hparent.under hle)
          (hnearest.between _ hparent.mem hparent.ne hne hparent.under)
    refine (IsParent.eq_parentIn hnil ⟨hparent.mem, hne, habove,
      fun q hq hqne hunder => ?_⟩).symm
    refine hparent.deepest q hq (fun heq => ?_) (under_trans hnearest.under hunder)
    exact (length_lt_of_under hunder hqne).not_gt
      (heq ▸ length_lt_of_under hnearest.under hnearest.ne)
  · rintro ⟨-, hne, hparent, hunder⟩
    have hparentPath := isParent_parentIn hnil hne
    refine ⟨fun heq => hdir (heq ▸ hpath), hunder,
      fun q hq hqne hqdir hqunder hbetween => ?_⟩
    have hle := hparentPath.deepest q hq hqne hqunder
    rw [hparent] at hle
    exact absurd (length_lt_of_under hbetween hqdir.symm)
      (hle.trans hparentDir.length_lt.le).not_gt

end Redoubt.Quota
