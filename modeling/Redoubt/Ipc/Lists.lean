import Redoubt.Ipc.Words
import Redoubt.Library.Linked

/-!
# What the list operations do

A list in memory stands for the sequence of its members.  Each operation is
specified by the sequence it leaves and by the words it may touch: its list's
ends and its members' links.  Everything else is unchanged, which is how lists
that share no word are kept apart.
-/

namespace Redoubt.Ipclist

open Redoubt.Library List

namespace IpcList

variable {list : IpcList} {w w' : Words}

/-- A list that keeps a tail and is not counted, with its four words apart. -/
structure Plain (list : IpcList) : Prop where
  tail : list.tail ≠ none
  uncounted : list.counted = false
  links : list.prevWord ≠ list.nextWord
  head_ne_tail : list.tail ≠ some list.head
  head_ne_prev : list.head ≠ list.prevWord
  head_ne_next : list.head ≠ list.nextWord
  tail_ne_prev : list.tail ≠ some list.prevWord
  tail_ne_next : list.tail ≠ some list.nextWord

theorem groups_plain (e : ℕ) : (groups e).Plain := by
  constructor <;> simp [groups]

theorem sendGroups_plain (e : ℕ) : (sendGroups e).Plain := by
  constructor <;> simp [sendGroups]

theorem chain_plain (node : ℕ) (send : Bool) : (chain node send).Plain := by
  cases send <;> constructor <;> simp [chain]

/-- The words a list with these members may touch. -/
def Touches (list : IpcList) (nodes : List ℕ) (page : Page) (word : Word) : Prop :=
  (page = list.owner ∧ (word = list.head ∨ list.tail = some word)) ∨ ∃ r ∈ nodes,
    page = .thread r ∧
      (word = list.prevWord ∨ word = list.nextWord)

/-- A memory that differs only in words the list may touch. -/
def Within (list : IpcList) (nodes : List ℕ) (w w' : Words) : Prop :=
  ∀ page word, ¬ list.Touches nodes page word → w' page word = w page word

/-- The list in memory stands for this sequence of members. -/
structure IsList (w : Words) (list : IpcList) (nodes : List ℕ) : Prop where
  linked : Linked (list.next w) (list.prev w) 0 nodes 0
  first : list.first w = nodes.headD 0
  last : list.last w = nodes.getLastD 0
  distinct : nodes.Nodup
  positive : 0 ∉ nodes

/-- Only the words a list may touch matter to it. -/
theorem IsList.congr {nodes : List ℕ} (hlist : IsList w list nodes)
    (hsame : ∀ page word, list.Touches nodes page word →
      w' page word = w page word) : IsList w' list nodes := { hlist with
  linked := hlist.linked.congr
    (fun r hr => hsame _ _ (.inr ⟨r, hr, rfl, .inr rfl⟩))
    (fun r hr => hsame _ _ (.inr ⟨r, hr, rfl, .inl rfl⟩))
  first := (hsame _ _ (.inl ⟨rfl, .inl rfl⟩)).trans hlist.first
  last := by
    refine Eq.trans ?_ hlist.last
    simp only [IpcList.last]
    cases htail : list.tail with
    | none => rfl
    | some tail => exact hsame _ _ (.inl ⟨rfl, .inr htail⟩) }

/-! ## Single writes -/

section Writes

variable {r x value : ℕ} {page : Page} {word : Word}

theorem last_write (hword : list.tail ≠ some word) :
    list.last (write w page word value) = list.last w := by
  cases htail : list.tail with
  | none => simp [last, htail]
  | some tail =>
    simp only [last, htail]
    exact write_of_word_ne w _ _ _ fun heq => hword (htail.trans (congrArg some heq))

/-- A previous link, or the tail, is all that `set_prev_of` writes. -/
theorem setPrevOf_of_word_ne (hprev : word ≠ list.prevWord)
    (hword : list.tail ≠ some word) :
    list.setPrevOf w r value page word = w page word := by
  unfold setPrevOf
  split
  · exact write_of_word_ne w _ _ _ hprev
  · cases htail : list.tail with
    | none => rfl
    | some tail =>
      exact write_of_word_ne w _ _ _ fun heq =>
        hword (htail.trans (congrArg some heq.symm))

theorem setNextOf_of_word_ne (hnext : word ≠ list.nextWord) (hword : word ≠ list.head) :
    list.setNextOf w r value page word = w page word := by
  unfold setNextOf
  split
  · exact write_of_word_ne w _ _ _ hword
  · exact write_of_word_ne w _ _ _ hnext

@[simp]
theorem prev_writePrev :
    list.prev (write w (.thread r) list.prevWord value) x = if x = r then value
      else list.prev w x := by
  simp [prev, write_apply]

@[simp]
theorem next_writeNext :
    list.next (write w (.thread r) list.nextWord value) x = if x = r then value
      else list.next w x := by
  simp [next, write_apply]

variable (hplain : list.Plain)
include hplain

@[simp]
theorem next_writePrev :
    list.next (write w page list.prevWord value) x = list.next w x :=
  write_of_word_ne w _ _ _ hplain.links.symm

@[simp]
theorem first_writePrev :
    list.first (write w page list.prevWord value) = list.first w :=
  write_of_word_ne w _ _ _ hplain.head_ne_prev

@[simp]
theorem last_writePrev : list.last (write w page list.prevWord value) = list.last w :=
  last_write hplain.tail_ne_prev

@[simp]
theorem prev_writeNext :
    list.prev (write w page list.nextWord value) x = list.prev w x :=
  write_of_word_ne w _ _ _ hplain.links

@[simp]
theorem first_writeNext :
    list.first (write w page list.nextWord value) = list.first w :=
  write_of_word_ne w _ _ _ hplain.head_ne_next

@[simp]
theorem last_writeNext : list.last (write w page list.nextWord value) = list.last w :=
  last_write hplain.tail_ne_next

@[simp]
theorem next_setNextOf :
    list.next (list.setNextOf w r value) x = if r ≠ 0 ∧ x = r then value
      else list.next w x := by
  unfold setNextOf
  by_cases hr : r = 0
  · rw [if_pos hr, if_neg (by simp [hr])]
    exact write_of_word_ne w _ _ _ hplain.head_ne_next.symm
  · rw [if_neg hr]
    simp [hr]

@[simp]
theorem prev_setNextOf : list.prev (list.setNextOf w r value) x = list.prev w x :=
  setNextOf_of_word_ne hplain.links hplain.head_ne_prev.symm

@[simp]
theorem first_setNextOf :
    list.first (list.setNextOf w r value) = if r = 0 then value else list.first w := by
  unfold setNextOf
  by_cases hr : r = 0
  · rw [if_pos hr, if_pos hr, first, write_same]
  · rw [if_neg hr, if_neg hr, first_writeNext hplain]

@[simp]
theorem last_setNextOf : list.last (list.setNextOf w r value) = list.last w := by
  unfold setNextOf
  split
  · exact last_write hplain.head_ne_tail
  · exact last_writeNext hplain

@[simp]
theorem next_setPrevOf : list.next (list.setPrevOf w r value) x = list.next w x :=
  setPrevOf_of_word_ne hplain.links.symm hplain.tail_ne_next

@[simp]
theorem prev_setPrevOf :
    list.prev (list.setPrevOf w r value) x = if r ≠ 0 ∧ x = r then value
      else list.prev w x := by
  unfold setPrevOf
  by_cases hr : r = 0
  · rw [if_neg (by simp [hr]), if_neg (by simp [hr])]
    cases htail : list.tail with
    | none => rfl
    | some tail =>
      exact write_of_word_ne w _ _ _ fun heq =>
        hplain.tail_ne_prev (htail.trans (congrArg some heq.symm))
  · rw [if_pos hr]
    simp [hr]

@[simp]
theorem first_setPrevOf : list.first (list.setPrevOf w r value) = list.first w :=
  setPrevOf_of_word_ne hplain.head_ne_prev hplain.head_ne_tail

@[simp]
theorem last_setPrevOf :
    list.last (list.setPrevOf w r value) = if r = 0 then value else list.last w := by
  unfold setPrevOf
  by_cases hr : r = 0
  · rw [if_neg (by simp [hr]), if_pos hr]
    cases htail : list.tail with
    | none => exact absurd htail hplain.tail
    | some tail =>
      simp only [last, htail, Option.map_some, Option.getD_some, write_same]
  · rw [if_pos hr, if_neg hr, last_writePrev hplain]

end Writes

/-! ## Ends of a sequence, with 0 for none -/

theorem getLast?_eq_some_iff {nodes : List ℕ} (hpositive : 0 ∉ nodes) (x : ℕ) :
    nodes.getLast? = some x ↔ nodes.getLastD 0 ≠ 0 ∧ x = nodes.getLastD 0 := by
  cases nodes using List.reverseRecOn with
  | nil => simp
  | append_singleton front last =>
    have hlast : last ≠ 0 := fun h => hpositive (by simp [h])
    simp [hlast, eq_comm]

theorem head?_eq_some_iff {nodes : List ℕ} (hpositive : 0 ∉ nodes) (x : ℕ) :
    nodes.head? = some x ↔ nodes.headD 0 ≠ 0 ∧ x = nodes.headD 0 := by
  cases nodes with
  | nil => simp
  | cons head rest =>
    have hhead : head ≠ 0 := fun h => hpositive (by simp [h])
    simp [hhead, eq_comm]

theorem headD_eq_zero_iff {nodes : List ℕ} (hpositive : 0 ∉ nodes) :
    nodes.headD 0 = 0 ↔ nodes = [] := by
  cases nodes with
  | nil => simp
  | cons head rest =>
    have hhead : head ≠ 0 := fun h => hpositive (by simp [h])
    simp [hhead]

theorem getLastD_eq_zero_iff {nodes : List ℕ} (hpositive : 0 ∉ nodes) :
    nodes.getLastD 0 = 0 ↔ nodes = [] := by
  cases nodes using List.reverseRecOn with
  | nil => simp
  | append_singleton front last =>
    have hlast : last ≠ 0 := fun h => hpositive (by simp [h])
    simp [hlast]

/-! ## Touched words -/

section Frame

variable {nodes : List ℕ} {w₁ w₂ w₃ : Words} {r value : ℕ}

theorem Within.refl (list : IpcList) (nodes : List ℕ) (w : Words) :
    list.Within nodes w w :=
  fun _ _ _ => rfl

theorem Within.trans (hfirst : list.Within nodes w₁ w₂)
    (hsecond : list.Within nodes w₂ w₃) : list.Within nodes w₁ w₃ :=
  fun page word h => (hsecond page word h).trans (hfirst page word h)

theorem Within.mono {more : List ℕ} (hwithin : list.Within nodes w₁ w₂)
    (hsubset : ∀ x ∈ nodes, x ∈ more) : list.Within more w₁ w₂ := by
  intro page word htouches
  apply hwithin
  rintro (howner | ⟨x, hx, hword⟩)
  · exact htouches (.inl howner)
  · exact htouches (.inr ⟨x, hsubset x hx, hword⟩)

theorem within_write {page : Page} {word : Word}
    (htouched : list.Touches nodes page word) :
    list.Within nodes w (write w page word value) := by
  intro page' word' htouches
  rw [write_apply, if_neg]
  rintro ⟨rfl, rfl⟩
  exact htouches htouched

theorem within_writePrev (hr : r ∈ nodes) :
    list.Within nodes w (write w (.thread r) list.prevWord value) :=
  within_write (.inr ⟨r, hr, rfl, .inl rfl⟩)

theorem within_writeNext (hr : r ∈ nodes) :
    list.Within nodes w (write w (.thread r) list.nextWord value) :=
  within_write (.inr ⟨r, hr, rfl, .inr rfl⟩)

theorem within_setNextOf (hr : r ≠ 0 → r ∈ nodes) :
    list.Within nodes w (list.setNextOf w r value) := by
  unfold setNextOf
  split
  · exact within_write (.inl ⟨rfl, .inl rfl⟩)
  · rename_i hzero
    exact within_writeNext (hr hzero)

theorem within_setPrevOf (hr : r ≠ 0 → r ∈ nodes) :
    list.Within nodes w (list.setPrevOf w r value) := by
  unfold setPrevOf
  split
  · rename_i hzero
    exact within_writePrev (hr hzero)
  · cases htail : list.tail with
    | none => exact Within.refl list nodes w
    | some tail => exact within_write (.inl ⟨rfl, .inr htail⟩)

end Frame

theorem getLastD_mem {nodes : List ℕ} (h : nodes.getLastD 0 ≠ 0) :
    nodes.getLastD 0 ∈ nodes := by
  cases nodes using List.reverseRecOn with
  | nil => simp at h
  | append_singleton front last => simp

theorem headD_mem {nodes : List ℕ} (h : nodes.headD 0 ≠ 0) : nodes.headD 0 ∈ nodes := by
  cases nodes with
  | nil => simp at h
  | cons head rest => simp

/-! ## Insertion -/

/-- `w'` puts `middle` between two parts of a sequence. -/
structure Spliced (list : IpcList) (w w' : Words)
    (front middle back : List ℕ) : Prop where
  next : ∀ x ∈ front ++ back, list.next w' x =
    if front.getLastD 0 ≠ 0 ∧ x = front.getLastD 0 then middle.headD (back.headD 0)
      else list.next w x
  prev : ∀ x ∈ front ++ back, list.prev w' x =
    if back.headD 0 ≠ 0 ∧ x = back.headD 0 then middle.getLastD (front.getLastD 0)
      else list.prev w x
  first : list.first w' = if front.getLastD 0 = 0 then middle.headD (back.headD 0)
    else list.first w
  last : list.last w' = if back.headD 0 = 0 then middle.getLastD (front.getLastD 0)
    else list.last w
  middle : Linked (list.next w') (list.prev w') (front.getLastD 0) middle (back.headD 0)

section Edits

variable {front back : List ℕ} {r : ℕ} (hplain : list.Plain)

/-- A sequence with a part of it replaced. -/
theorem IsList.splice (old middle : List ℕ)
    (hlist : IsList w list (front ++ (old ++ back)))
    (hsplice : list.Spliced w w' front middle back)
    (hdistinct : (front ++ (middle ++ back)).Nodup)
    (hpositive : 0 ∉ middle) : IsList w' list (front ++ (middle ++ back)) := by
  have hpositiveFront : 0 ∉ front := fun h => hlist.positive (by simp [h])
  have hpositiveBack : 0 ∉ back := fun h => hlist.positive (by simp [h])
  obtain ⟨hfront, hrest⟩ := Linked.append_iff.mp hlist.linked
  constructor
  · refine hfront.splice (Linked.append_iff.mp hrest).2 ?_ (fun x hx => ?_)
      (fun x hx => ?_) hsplice.middle
    · exact hdistinct.sublist ((sublist_append_right middle back).append_left front)
    · simp only [hsplice.next x hx, getLast?_eq_some_iff hpositiveFront]
    · simp only [hsplice.prev x hx, head?_eq_some_iff hpositiveBack]
  · rw [hsplice.first]
    simp only [getLastD_eq_zero_iff hpositiveFront]
    cases front with
    | nil => exact (Linked.headD_append middle back 0).symm
    | cons head rest => simpa using hlist.first
  · rw [hsplice.last]
    simp only [headD_eq_zero_iff hpositiveBack]
    cases back with
    | nil => simp
    | cons head rest =>
      rw [hlist.last, ← append_assoc]
      simp [getLast?_cons]
  · exact hdistinct
  · simp only [mem_append, not_or]
    exact ⟨hpositiveFront, hpositive, hpositiveBack⟩

/-- What follows a sequence's first part. -/
theorem IsList.next_of_last (hlist : IsList w list (front ++ back)) :
    (if front.getLastD 0 = 0 then list.first w
      else list.next w (front.getLastD 0)) = back.headD 0 := by
  cases front using List.reverseRecOn with
  | nil => simpa using hlist.first
  | append_singleton init last =>
    have hlast : last ≠ 0 := fun h => hlist.positive (by simp [h])
    have hlinked := hlist.linked
    rw [append_assoc] at hlinked
    simpa [hlast] using hlinked.neighbours.2

/-- A thread off the list is neither of the members beside a place in it. -/
theorem not_beside {new : ℕ} (hnew : new ∉ front ++ back) :
    ¬ (front.getLastD 0 ≠ 0 ∧ new = front.getLastD 0) ∧
      ¬ (back.headD 0 ≠ 0 ∧ new = back.headD 0) := by
  constructor
  · rintro ⟨hzero, rfl⟩
    exact hnew (mem_append_left _ (getLastD_mem hzero))
  · rintro ⟨hzero, rfl⟩
    exact hnew (mem_append_right _ (headD_mem hzero))

include hplain

/-- `insert_after` puts a new member after the first part of the sequence. -/
theorem IsList.insertAfter (hlist : IsList w list (front ++ back))
    (hr : r ≠ 0) (hnew : r ∉ front ++ back) :
    IsList (list.insertAfter w (front.getLastD 0) r) list (front ++ r :: back) := by
  refine hlist.splice [] [r] ?_ ?_ (by simpa using hr.symm)
  · have hbeside := not_beside hnew
    unfold IpcList.insertAfter
    simp only [hlist.next_of_last, hplain.uncounted, Bool.false_eq_true]
    constructor
    case next | prev =>
      intro x hx
      have hne : x ≠ r := fun h => hnew (h ▸ hx)
      simp [hplain, hne]
    case middle =>
      refine ⟨?_, ?_, trivial⟩
      · simp only [hplain, prev_setPrevOf, prev_setNextOf, prev_writeNext,
          prev_writePrev, hbeside.2, if_false, if_true]
      · simp only [hplain, next_setPrevOf, next_setNextOf, next_writeNext, hbeside.1,
          if_false, if_true, headD_nil]
    all_goals simp [hplain]
  · rw [singleton_append, nodup_middle, nodup_cons]
    exact ⟨hnew, hlist.distinct⟩

/-- `insert_after` touches the new member's links and the list's words. -/
theorem IsList.insertAfter_within (hlist : IsList w list (front ++ back)) :
    list.Within (r :: (front ++ back)) w (list.insertAfter w (front.getLastD 0) r) := by
  have hnextOf := hlist.next_of_last
  unfold IpcList.insertAfter
  simp only [hnextOf, hplain.uncounted]
  refine Within.trans ?_ (within_setPrevOf fun h => ?_)
  · refine Within.trans ?_ (within_setNextOf fun h => ?_)
    · exact Within.trans (within_writePrev (by simp)) (within_writeNext (by simp))
    · exact mem_cons_of_mem _ (mem_append_left _ (getLastD_mem h))
  · exact mem_cons_of_mem _ (mem_append_right _ (headD_mem h))

/-- `push_back` puts a new member last. -/
theorem IsList.pushBack {nodes : List ℕ} (hlist : IsList w list nodes)
    (hr : r ≠ 0) (hnew : r ∉ nodes) :
    IsList (list.pushBack w r) list (nodes ++ [r]) ∧
      list.Within (r :: nodes) w (list.pushBack w r) := by
  have hall : IsList w list (nodes ++ []) := by simpa using hlist
  rw [IpcList.pushBack, hlist.last]
  exact ⟨hall.insertAfter hplain hr (by simpa using hnew),
    by simpa using hall.insertAfter_within hplain⟩

/-! ## Removal -/

/-- `remove` takes a member out and clears its links. -/
theorem IsList.remove (hlist : IsList w list (front ++ r :: back)) :
    IsList (list.remove w r) list (front ++ back) := by
  obtain ⟨hprev, hnext⟩ := hlist.linked.neighbours
  obtain ⟨hold, hdistinct⟩ := nodup_cons.mp (nodup_middle.mp hlist.distinct)
  refine hlist.splice [r] [] ?_ hdistinct not_mem_nil
  unfold IpcList.remove
  simp only [hprev, hnext, hplain.uncounted]
  constructor
  case next | prev =>
    intro x hx
    have hne : x ≠ r := fun h => hold (h ▸ hx)
    simp [hplain, hne]
  case middle => trivial
  all_goals simp [hplain]

theorem IsList.remove_within (hlist : IsList w list (front ++ r :: back)) :
    list.Within (front ++ r :: back) w (list.remove w r) := by
  obtain ⟨hprev, hnext⟩ := hlist.linked.neighbours
  unfold IpcList.remove
  simp only [hprev, hnext, hplain.uncounted]
  refine Within.trans ?_ (within_writeNext (by simp))
  refine Within.trans ?_ (within_writePrev (by simp))
  refine Within.trans ?_ (within_setPrevOf fun h => ?_)
  · exact within_setNextOf fun h => mem_append_left _ (getLastD_mem h)
  · exact mem_append_right _ (mem_cons_of_mem _ (headD_mem h))

/-- A removed member has no links left. -/
theorem remove_cleared (w : Words) (r : ℕ) :
    list.prev (list.remove w r) r = 0 ∧ list.next (list.remove w r) r = 0 := by
  unfold IpcList.remove
  simp only [hplain.uncounted, Bool.false_eq_true, if_false,
    prev_writeNext hplain, prev_writePrev, next_writeNext, if_true, and_self]

/-! ## Replacement -/

/-- `replace` puts a new member in a member's place. -/
theorem IsList.replace {new : ℕ} (hlist : IsList w list (front ++ r :: back))
    (hpositive : new ≠ 0) (hnew : new ∉ front ++ r :: back) :
    IsList (list.replace w r new) list (front ++ new :: back) := by
  obtain ⟨hprev, hnext⟩ := hlist.linked.neighbours
  obtain ⟨hold, hdistinct⟩ := nodup_cons.mp (nodup_middle.mp hlist.distinct)
  have hneNew : new ≠ r := fun h => hnew (by simp [h])
  have hnewRest : new ∉ front ++ back := fun h => hnew (by
    rcases mem_append.mp h with h | h <;> simp [h])
  refine hlist.splice [r] [new] ?_ ?_ (by simpa using hpositive.symm)
  · have hbeside := not_beside hnewRest
    unfold IpcList.replace
    simp only [hprev, hnext]
    constructor
    case next | prev =>
      intro x hx
      have hne : x ≠ r := fun h => hold (h ▸ hx)
      have hne' : x ≠ new := fun h => hnewRest (h ▸ hx)
      simp [hplain, hne, hne']
    case middle =>
      refine ⟨?_, ?_, trivial⟩
      · simp only [hplain, prev_setPrevOf, prev_setNextOf, prev_writeNext,
          prev_writePrev, hneNew, hbeside.2, if_false, if_true]
      · simp only [hplain, next_setPrevOf, next_setNextOf, next_writeNext,
          next_writePrev, hneNew, hbeside.1, if_false, if_true,
          headD_nil]
    all_goals simp [hplain]
  · rw [singleton_append, nodup_middle, nodup_cons]
    exact ⟨hnewRest, hdistinct⟩

omit hplain in
theorem IsList.replace_within {new : ℕ} (hlist : IsList w list (front ++ r :: back)) :
    list.Within (new :: (front ++ r :: back)) w (list.replace w r new) := by
  obtain ⟨hprev, hnext⟩ := hlist.linked.neighbours
  unfold IpcList.replace
  simp only [hprev, hnext]
  refine Within.trans ?_ (within_writeNext (by simp))
  refine Within.trans ?_ (within_writePrev (by simp))
  refine Within.trans ?_ (within_setPrevOf fun h => ?_)
  · refine Within.trans ?_ (within_setNextOf fun h => ?_)
    · exact Within.trans (within_writePrev (by simp)) (within_writeNext (by simp))
    · exact mem_cons_of_mem _ (mem_append_left _ (getLastD_mem h))
  · exact mem_cons_of_mem _ (mem_append_right _ (mem_cons_of_mem _ (headD_mem h)))

theorem replace_cleared (w : Words) (r new : ℕ) :
    list.prev (list.replace w r new) r = 0 ∧
      list.next (list.replace w r new) r = 0 := by
  unfold IpcList.replace
  simp only [prev_writeNext hplain, prev_writePrev, next_writeNext, if_true, and_self]

/-! ## Moving back -/

omit hplain in
/-- The walk from a member passes the members whose keys are not above `k` and
stops at the last of them. -/
theorem IsList.walkBack {key : Words → ℕ → ℕ} {k fuel first : ℕ} {passed above : List ℕ}
    (hlist : IsList w list (front ++ first :: (passed ++ above)))
    (hpassed : ∀ x ∈ passed, key w x ≤ k)
    (habove : ∀ x, above.head? = some x → k < key w x)
    (hfuel : passed.length < fuel) :
    list.walkBack w key k fuel first = (first :: passed).getLastD 0 := by
  induction passed generalizing front first fuel with
  | nil =>
    obtain ⟨fuel, rfl⟩ := Nat.exists_eq_add_of_lt hfuel
    have hnext := hlist.linked.neighbours.2
    rw [IpcList.walkBack, if_pos]
    · rfl
    · rw [hnext]
      cases above with
      | nil => exact .inl rfl
      | cons head rest => exact .inr (habove head rfl)
  | cons second passed ih =>
    obtain ⟨fuel, rfl⟩ := Nat.exists_eq_add_of_lt hfuel
    have hnext : list.next w first = second := hlist.linked.neighbours.2
    have hsecond : second ≠ 0 := fun h => hlist.positive (by simp [h])
    have hkey := hpassed second (by simp)
    have hmoved :
        IsList w list ((front ++ [first]) ++ second :: (passed ++ above)) := by
      simpa using hlist
    rw [IpcList.walkBack, if_neg, hnext]
    · rw [ih hmoved (fun x hx => hpassed x (mem_cons_of_mem _ hx))
        (by simp only [length_cons]; omega)]
      simp
    · rw [hnext]
      exact not_or.mpr ⟨hsecond, not_lt.mpr hkey⟩

/-- `moved_back` moves a member past those whose keys are not above its own. -/
theorem IsList.movedBack {key : Words → ℕ → ℕ} {fuel : ℕ} {passed above : List ℕ}
    (hlist : IsList w list (front ++ r :: (passed ++ above)))
    (hkey : ∀ w', list.Within (front ++ r :: (passed ++ above)) w w' → ∀ x,
      key w' x = key w x)
    (hpassed : ∀ x ∈ passed, key w x ≤ key w r)
    (habove : ∀ x, above.head? = some x → key w r < key w x)
    (hfuel : passed.length ≤ fuel) :
    IsList (list.movedBack w fuel r key) list (front ++ passed ++ r :: above) ∧
      list.Within (front ++ r :: (passed ++ above)) w
        (list.movedBack w fuel r key) := by
  have hnext := hlist.linked.neighbours.2
  unfold IpcList.movedBack
  simp only [hnext]
  cases passed with
  | nil =>
    have hstay : above.headD 0 = 0 ∨ key w (above.headD 0) > key w r := by
      cases above with
      | nil => exact .inl rfl
      | cons head rest => exact .inr (habove head rfl)
    simp only [nil_append, hstay, append_nil]
    exact ⟨hlist, Within.refl list _ w⟩
  | cons first passed =>
    have hfirst : first ≠ 0 := fun h => hlist.positive (by simp [h])
    have hmove : ¬ (first = 0 ∨ key w first > key w r) :=
      not_or.mpr ⟨hfirst, not_lt.mpr (hpassed first (by simp))⟩
    simp only [cons_append, headD_cons, hmove]
    have hremoved := hlist.remove hplain
    have hremovedWithin := hlist.remove_within hplain
    have hkeys := hkey _ hremovedWithin
    have hwalk : list.walkBack (list.remove w r) key (key w r) fuel first =
        (front ++ first :: passed).getLastD 0 := by
      have hrest :
          IsList (list.remove w r) list (front ++ first :: (passed ++ above)) := by
        simpa using hremoved
      rw [IsList.walkBack hrest ?_ ?_ hfuel]
      · simp [getLast?_cons]
      · intro x hx
        rw [hkeys]
        exact hpassed x (mem_cons_of_mem _ hx)
      · intro x hx
        rw [hkeys]
        exact habove x hx
    have hlist' : IsList (list.remove w r) list
        ((front ++ first :: passed) ++ above) := by simpa using hremoved
    have hr : r ≠ 0 := fun h => hlist.positive (by simp [h])
    have hdistinct := hlist.distinct
    rw [nodup_middle, nodup_cons] at hdistinct
    rw [hwalk]
    have hinserted := hlist'.insertAfter hplain hr (by simpa using hdistinct.1)
    refine ⟨hinserted, hremovedWithin.trans ?_⟩
    refine (hlist'.insertAfter_within (r := r) hplain).mono ?_
    intro x hx
    simp only [mem_cons, mem_append] at hx ⊢
    tauto

end Edits

end IpcList

end Redoubt.Ipclist
