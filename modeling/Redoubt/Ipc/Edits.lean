import Redoubt.Ipc.Shape

/-!
# The group operations as edits of the shape

Each step that `enqueue`, `served` and `dequeue` take, on a memory that
represents a shape.
-/

namespace Redoubt.Ipclist

open IpcList List Shape

/-! ## Lists with no link outside them -/

namespace IpcList

section Exact

variable {list : IpcList} {w : Words} {nodes front back : List ℕ} {r : ℕ}

/-- A member's own links tell whether it is on a list. -/
theorem Exact.contains_iff (hlist : Exact w list nodes) (hr : r ≠ 0) :
    list.contains w r = true ↔ r ∈ nodes := by
  simp only [contains, bne_iff_ne, ne_eq, hr, not_false_eq_true,
    Bool.and_eq_true, Bool.or_eq_true, beq_iff_eq, true_and]
  constructor
  · rintro (hprev | hfirst)
    · by_contra hmem
      exact hprev (hlist.unlinked r hmem).1
    · rw [hlist.first] at hfirst
      exact hfirst ▸ headD_mem (hfirst.symm ▸ hr)
  · intro hmem
    obtain ⟨front, back, rfl⟩ := append_of_mem hmem
    have hprev : list.prev w r = front.getLastD 0 := hlist.linked.neighbours.1
    rw [hprev]
    cases front with
    | nil => exact .inr hlist.first
    | cons head rest =>
      left
      rw [getLastD_eq_zero_iff]
      · exact cons_ne_nil head rest
      · exact fun h => hlist.positive (mem_append_left _ h)

theorem IsList.ne_zero (hlist : IsList w list nodes) (hr : r ∈ nodes) : r ≠ 0 :=
  fun hzero => hlist.positive (hzero ▸ hr)

/-- Where a member is, and the list without it. -/
theorem IsList.split (hlist : IsList w list nodes) (hr : r ∈ nodes) :
    ∃ front back, nodes = front ++ r :: back ∧ nodes.erase r = front ++ back := by
  obtain ⟨front, back, rfl⟩ := append_of_mem hr
  have hdistinct := hlist.distinct
  rw [nodup_middle, nodup_cons, mem_append, not_or] at hdistinct
  refine ⟨front, back, rfl, ?_⟩
  rw [erase_append_right _ hdistinct.1.1, erase_cons_head]

variable (hplain : list.Plain) (howner : ∀ t, list.owner ≠ .thread t)

include howner

/-- An edit keeps the links outside what it touches at 0. -/
theorem Exact.keeps {w' : Words} {touched : List ℕ} {t : ℕ}
    (hlist : Exact w list nodes) (hwithin : list.Within touched w w')
    (htouched : t ∉ touched) (ht : t ∉ nodes) :
    list.prev w' t = 0 ∧ list.next w' t = 0 := by
  obtain ⟨hprev, hnext⟩ := hlist.unlinked t ht
  exact ⟨(hwithin.keeps_page (howner t) htouched _).trans hprev,
    (hwithin.keeps_page (howner t) htouched _).trans hnext⟩

include hplain

theorem Exact.pushBack (hlist : Exact w list nodes) (hr : r ≠ 0) (hnew : r ∉ nodes) :
    Exact (list.pushBack w r) list (nodes ++ [r]) ∧
      list.Within (r :: nodes) w (list.pushBack w r) := by
  obtain ⟨hpushed, hwithin⟩ := hlist.toIsList.pushBack hplain hr hnew
  refine ⟨⟨hpushed, fun t ht => ?_⟩, hwithin⟩
  rw [mem_append, mem_singleton, not_or] at ht
  exact hlist.keeps howner hwithin (by simp [ht]) ht.1

theorem Exact.remove (hlist : Exact w list (front ++ r :: back)) :
    Exact (list.remove w r) list (front ++ back) ∧
      list.Within (front ++ r :: back) w (list.remove w r) := by
  have hwithin := hlist.toIsList.remove_within hplain
  refine ⟨⟨hlist.toIsList.remove hplain, fun t ht => ?_⟩, hwithin⟩
  by_cases hsame : t = r
  · rw [hsame]
    exact remove_cleared hplain w r
  · have hother : t ∉ front ++ r :: back := by
      simpa [hsame] using ht
    exact hlist.keeps howner hwithin hother hother

theorem Exact.replace {new : ℕ} (hlist : Exact w list (front ++ r :: back))
    (hpositive : new ≠ 0) (hnew : new ∉ front ++ r :: back) :
    Exact (list.replace w r new) list (front ++ new :: back) ∧
      list.Within (new :: (front ++ r :: back)) w (list.replace w r new) := by
  have hwithin : list.Within (new :: (front ++ r :: back)) w (list.replace w r new) :=
    hlist.toIsList.replace_within
  refine ⟨⟨hlist.toIsList.replace hplain hpositive hnew, fun t ht => ?_⟩, hwithin⟩
  by_cases hsame : t = r
  · rw [hsame]
    exact replace_cleared hplain w r new
  · have hother : t ∉ new :: (front ++ r :: back) := by
      simp only [mem_append, mem_cons] at ht ⊢
      tauto
    exact hlist.keeps howner hwithin hother fun hmem => hother (mem_cons_of_mem _ hmem)

theorem Exact.movedBack {key : Words → ℕ → ℕ} {fuel : ℕ} {passed above : List ℕ}
    (hlist : Exact w list (front ++ r :: (passed ++ above)))
    (hkey : ∀ w', list.Within (front ++ r :: (passed ++ above)) w w' → ∀ x,
      key w' x = key w x)
    (hpassed : ∀ x ∈ passed, key w x ≤ key w r)
    (habove : ∀ x, above.head? = some x → key w r < key w x)
    (hfuel : passed.length ≤ fuel) :
    Exact (list.movedBack w fuel r key) list (front ++ passed ++ r :: above) ∧
      list.Within (front ++ r :: (passed ++ above)) w
        (list.movedBack w fuel r key) := by
  obtain ⟨hmoved, hwithin⟩ :=
    hlist.toIsList.movedBack hplain hkey hpassed habove hfuel
  refine ⟨⟨hmoved, fun t ht => ?_⟩, hwithin⟩
  have hother : t ∉ front ++ r :: (passed ++ above) := by
    simp only [mem_append, mem_cons] at ht ⊢
    tauto
  exact hlist.keeps howner hwithin hother hother

end Exact

theorem turnList_plain (e : ℕ) (sends : Bool) : (turnList e sends).Plain := by
  cases sends
  · exact groups_plain e
  · exact sendGroups_plain e

theorem turnList_owner (e : ℕ) (sends : Bool) (t : ℕ) :
    (turnList e sends).owner ≠ .thread t := by
  cases sends <;> exact Page.noConfusion

end IpcList

section Reads

variable {w : Words} {e : ℕ} {shape : Shape} (h : Represents w e shape)

include h

theorem Represents.firstOf (node : ℕ) (send : Bool) :
    firstOf w node send = (shape.chain node send).headD 0 :=
  (h.chains node send).first

theorem Represents.chain_isEmpty (node : ℕ) (send : Bool) :
    (IpcList.chain node send).isEmpty w = (shape.chain node send).isEmpty := by
  have hpositive := (h.chains node send).positive
  rw [IpcList.isEmpty, (h.chains node send).first, Bool.eq_iff_iff, beq_iff_eq,
    headD_eq_zero_iff hpositive, List.isEmpty_iff]

theorem Represents.sends_contains {node : ℕ} (hnode : node ≠ 0) :
    (sendGroups e).contains w node = true ↔ node ∈ shape.sending :=
  h.sends.contains_iff hnode

end Reads

/-! ## The two group lists -/

/-- A node that moves from `old` to `new`. -/
def rename (old new node : ℕ) : ℕ :=
  if node = old then new else node

theorem map_rename_of_not_mem {nodes : List ℕ} {old : ℕ} (hold : old ∉ nodes)
    (new : ℕ) : nodes.map (rename old new) = nodes := by
  rw [map_congr_left (g := id), map_id]
  intro n hn
  exact if_neg fun heq : n = old => hold (heq ▸ hn)

theorem map_rename_middle {front back : List ℕ} {old : ℕ}
    (hdistinct : (front ++ old :: back).Nodup) (new : ℕ) :
    (front ++ old :: back).map (rename old new) = front ++ new :: back := by
  rw [nodup_middle, nodup_cons, mem_append, not_or] at hdistinct
  rw [map_append, map_cons, map_rename_of_not_mem hdistinct.1.1,
    map_rename_of_not_mem hdistinct.1.2, rename, if_pos rfl]

section Groups

variable {w : Words} {e : ℕ} {shape : Shape} {front back : List ℕ}
variable {node new : ℕ} (h : Represents w e shape)

include h

theorem Represents.pushTurns (sends : Bool) (hnode : node ≠ 0)
    (hnew : node ∉ shape.turns sends) :
    Represents ((turnList e sends).pushBack w node) e
      (shape.setTurns sends (shape.turns sends ++ [node])) := by
  obtain ⟨hlist, hwithin⟩ :=
    (h.turns sends).pushBack (turnList_plain e sends)
      (turnList_owner e sends) hnode hnew
  exact h.editTurns sends hlist hwithin

theorem Represents.removeTurns (sends : Bool) (hnode : node ∈ shape.turns sends) :
    Represents ((turnList e sends).remove w node) e
      (shape.setTurns sends ((shape.turns sends).erase node)) := by
  obtain ⟨front, back, hnodes, herase⟩ := (h.turns sends).split hnode
  obtain ⟨hlist, hwithin⟩ :=
    (hnodes ▸ h.turns sends).remove (turnList_plain e sends) (turnList_owner e sends)
  rw [herase]
  exact h.editTurns sends hlist hwithin

theorem Represents.replaceTurns (sends : Bool) (hnode : node ∈ shape.turns sends)
    (hpositive : new ≠ 0) (hnew : new ∉ shape.turns sends) :
    Represents ((turnList e sends).replace w node new) e
      (shape.setTurns sends ((shape.turns sends).map (rename node new))) := by
  obtain ⟨front, back, hnodes, -⟩ := (h.turns sends).split hnode
  obtain ⟨hlist, hwithin⟩ := (hnodes ▸ h.turns sends).replace (turnList_plain e sends)
    (turnList_owner e sends) hpositive (hnodes ▸ hnew)
  have hmap := map_rename_middle (hnodes ▸ (h.turns sends).distinct) new
  rw [hnodes, hmap]
  exact h.editTurns sends hlist hwithin

/-- A member of a list of nodes goes last. -/
theorem Represents.requeueTurns (sends : Bool) (hnode : node ∈ shape.turns sends) :
    Represents (requeue (turnList e sends) w node) e
      (shape.setTurns sends ((shape.turns sends).erase node ++ [node])) := by
  have hpositive := (h.turns sends).ne_zero hnode
  have hnot := (h.turns sends).distinct.not_mem_erase (a := node)
  rw [requeue, if_pos (((h.turns sends).contains_iff hpositive).mpr hnode)]
  cases sends
  · exact (h.removeTurns false hnode).pushTurns false hpositive hnot
  · exact (h.removeTurns true hnode).pushTurns true hpositive hnot

theorem Represents.requeueSends_of_not_mem (hnode : node ≠ 0)
    (hsending : node ∉ shape.sending) :
    requeue (sendGroups e) w node = w := by
  rw [requeue, if_neg]
  exact fun hcontains => hsending ((h.sends_contains hnode).mp hcontains)

omit h in
/-- No edit of a list of nodes changes what the keys are made of. -/
theorem turns_within {sends : Bool} {touched : List ℕ} {w' : Words}
    (hwithin : (turnList e sends).Within touched w w') (t : ℕ) :
    ∀ word ∈ [Word.gSends, .gCalls, .tSeq, .gTaken],
      w' (.thread t) word = w (.thread t) word :=
  fun word hword => hwithin.keeps (turns_unused (by revert word; decide)) _

omit h in
theorem key_within {touched : List ℕ} {w' : Words}
    (hwithin : (turnList e false).Within touched w w') (x : ℕ) :
    key w' x = key w x := by
  simp [key, oldest, firstOf, seq, turns_within hwithin]

omit h in
theorem sendKey_within {touched : List ℕ} {w' : Words}
    (hwithin : (turnList e true).Within touched w w') (x : ℕ) :
    sendKey w' x = sendKey w x := by
  simp [sendKey, firstOf, seq, turns_within hwithin]

theorem Represents.movedBackTurns {key : Words → ℕ → ℕ} {fuel : ℕ}
    {passed above : List ℕ} (sends : Bool)
    (hkey : ∀ touched w', (turnList e sends).Within touched w w' → ∀ x,
      key w' x = key w x)
    (hnodes : shape.turns sends = front ++ node :: (passed ++ above))
    (hpassed : ∀ x ∈ passed, key w x ≤ key w node)
    (habove : ∀ x, above.head? = some x → key w node < key w x)
    (hfuel : passed.length ≤ fuel) :
    Represents ((turnList e sends).movedBack w fuel node key) e
      (shape.setTurns sends (front ++ passed ++ node :: above)) := by
  obtain ⟨hlist, hwithin⟩ := (hnodes ▸ h.turns sends).movedBack (turnList_plain e sends)
    (turnList_owner e sends) (hkey _) hpassed habove hfuel
  exact h.editTurns sends hlist hwithin

end Groups

/-! ## Chains -/

section Chains

variable {w : Words} {e : ℕ} {shape : Shape} {front back : List ℕ}
variable {node t : ℕ} {send : Bool} (h : Represents w e shape)

include h

/-- A thread on no chain joins the end of one whose node it names. -/
theorem Represents.pushMember (ht : t ≠ 0)
    (hnew : ∀ node' send', t ∉ shape.chain node' send')
    (hnamed : w (.thread t) .tGroup = node)
    (hapart : ∀ m ∈ shape.chain node send, ∀ node' send',
      m ∈ shape.chain node' send' → node' = node ∧ send' = send) :
    Represents ((chain node send).pushBack w t) e
      (shape.setChain node send (shape.chain node send ++ [t])) := by
  obtain ⟨hlist, hwithin⟩ :=
    (h.chains node send).pushBack (chain_plain node send) ht (hnew node send)
  apply h.editChain hwithin hlist
  · intro m hm
    rcases mem_cons.mp hm with rfl | hmember
    · exact fun node' send' hmem => absurd hmem (hnew node' send')
    · exact hapart m hmember
  · intro m hm
    rcases mem_append.mp hm with hmember | hself
    · exact h.named node send m hmember
    · exact mem_singleton.mp hself ▸ hnamed

theorem Represents.removeMember (hchain : shape.chain node send = front ++ t :: back)
    (hapart : ∀ m ∈ shape.chain node send, ∀ node' send',
      m ∈ shape.chain node' send' → node' = node ∧ send' = send) :
    Represents ((chain node send).remove w t) e
      (shape.setChain node send (front ++ back)) := by
  have hlist := hchain ▸ h.chains node send
  apply h.editChain (hlist.remove_within (chain_plain node send))
    (hlist.remove (chain_plain node send))
  · exact hchain ▸ hapart
  · intro m hm
    apply h.named node send m
    simp only [hchain, mem_append] at hm ⊢
    tauto

end Chains

/-! ## Words of a node -/

theorem foldl_write_zero (words : List Word) (w : Words) (page page' : Page)
    (word : Word) :
    (words.foldl (fun w word => write w page word 0) w) page' word =
      if page' = page ∧ word ∈ words then 0 else w page' word := by
  induction words generalizing w with
  | nil => simp
  | cons head rest ih =>
    rw [foldl_cons, ih, write_apply]
    by_cases hpage : page' = page <;> by_cases hrest : word ∈ rest <;>
      simp [hpage, hrest]

theorem clearNode_apply (w : Words) (node : ℕ) (page : Page) (word : Word) :
    clearNode w node page word =
      if page = .thread node ∧ word ∈ nodeWords then 0 else w page word :=
  foldl_write_zero nodeWords w (.thread node) page word

/-- Each word is copied from the old node as it was before the copy. -/
theorem copyNode_apply (w : Words) {old new : ℕ} (page : Page) (word : Word) :
    copyNode w old new page word =
      if page = .thread new ∧ word ∈ movedWords then w (.thread old) word
      else w page word := by
  have hfold : ∀ (words : List Word) (w : Words), (words.foldl
        (fun w word => write w (.thread new) word (w (.thread old) word)) w)
        page word =
      if page = .thread new ∧ word ∈ words then w (.thread old) word
      else w page word := by
    intro words
    induction words with
    | nil => simp
    | cons head rest ih =>
      intro w
      rw [foldl_cons, ih, write_apply, write_apply]
      by_cases hpage : page = .thread new <;> by_cases hrest : word ∈ rest <;>
        by_cases hhead : word = head <;> simp [hpage, hhead]
  exact hfold movedWords w

/-- Naming a node on a chain writes the group of each of its members. -/
theorem nameGroup_apply {list : IpcList} {w : Words} {node fuel : ℕ}
    (front : List ℕ) {members : List ℕ} (hlist : IsList w list (front ++ members))
    (hunused : Unused list .tGroup) (hfuel : members.length ≤ fuel) (page : Page)
    (word : Word) :
    nameGroup list node fuel (members.headD 0) w page word =
      if (∃ m ∈ members, page = .thread m) ∧ word = .tGroup then node
      else w page word := by
  induction members generalizing front fuel w with
  | nil => cases fuel <;> simp [nameGroup]
  | cons head rest ih =>
    obtain ⟨fuel, rfl⟩ : ∃ n, fuel = n + 1 :=
      ⟨fuel - 1, by simp only [length_cons] at hfuel; omega⟩
    have hhead : head ≠ 0 := fun hzero => hlist.positive (by simp [hzero])
    have hnamed := hlist.write_unused hunused (.thread head) node
    have hnext : list.next (write w (.thread head) .tGroup node) head =
        rest.headD 0 := hnamed.linked.neighbours.2
    rw [headD_cons, nameGroup, if_neg hhead]
    simp only [hnext]
    have hmoved : IsList (write w (.thread head) .tGroup node) list
        ((front ++ [head]) ++ rest) := by simpa using hnamed
    rw [ih (front ++ [head]) hmoved (by simp only [length_cons] at hfuel; omega),
      write_apply]
    by_cases hword : word = .tGroup
    · by_cases hpage : page = .thread head <;> simp [hword, hpage]
    · simp [hword]

section Nodes

variable {w : Words} {e : ℕ} {shape : Shape} {node old new : ℕ}

/-- A thread that is on no group list and has no chain has only its count and
its take to clear. -/
theorem Represents.clearNode (h : Represents w e shape)
    (hnodes : node ∉ shape.nodes) (hsending : node ∉ shape.sending)
    (hchains : ∀ send, shape.chain node send = []) :
    Represents (clearNode w node) e
      { shape with
        count := Function.update shape.count node 0
        taken := Function.update shape.taken node 0 } := by
  have hlinks := h.groups.unlinked node hnodes
  have hsends := h.sends.unlinked node hsending
  have hends : ∀ send, (IpcList.chain node send).first w = 0 ∧
      (IpcList.chain node send).last w = 0 := by
    intro send
    have hchain := h.chains node send
    rw [hchains send] at hchain
    exact ⟨hchain.first, hchain.last⟩
  have hclear : Ipclist.clearNode w node =
      write (write w (.thread node) .gCount 0) (.thread node) .gTaken 0 := by
    ext page word
    rw [clearNode_apply, write_apply, write_apply]
    by_cases hpage : page = .thread node
    · subst hpage
      have hsend := hends true
      have hcall := hends false
      simp only [IpcList.prev, IpcList.next, IpcList.first, IpcList.last,
        IpcList.groups, sendGroups, IpcList.chain] at hlinks hsends hsend hcall
      cases word <;> simp_all [nodeWords]
    · simp [hpage]
  rw [hclear]
  exact (h.writeCount node 0).writeTaken node 0

namespace Shape

/-- The chains, count and take of `old` become those of `new`. -/
def rehome (shape : Shape) (old new : ℕ) : Shape :=
  { shape with
    chain := fun node send =>
      if node = old then [] else shape.chain (rename new old node) send
    count := fun node =>
      if node = old then 0 else shape.count (rename new old node)
    taken := fun node =>
      if node = old then 0 else shape.taken (rename new old node) }

end Shape

/-- Where each word is after the node's words moved. -/
theorem movedNode_apply (w : Words) (page : Page) (word : Word) :
    Ipclist.clearNode (copyNode w old new) old page word =
      if page = .thread old ∧ word ∈ nodeWords then 0
      else if page = .thread new ∧ word ∈ movedWords then w (.thread old) word
      else w page word := by
  rw [clearNode_apply, copyNode_apply w]

theorem Represents.movedLists (h : Represents w e shape) (hne : old ≠ new)
    (hnodes : old ∉ shape.nodes) (hsending : old ∉ shape.sending) :
    Holds (Ipclist.clearNode (copyNode w old new) old) e shape.nodes
      shape.sending (shape.rehome old new).chain where
  groups := by
    refine ⟨h.groups.toIsList.congr ?_, fun t ht => ?_⟩
    · rintro page word (⟨rfl, -⟩ | ⟨r, hr, rfl, hword | hword⟩)
      · simp [movedNode_apply w, IpcList.groups]
      all_goals
        have hold : r ≠ old := fun heq => hnodes (heq ▸ hr)
        simp [movedNode_apply w, hword, IpcList.groups, movedWords, hold]
    · have hlinks := h.groups.unlinked t ht
      simp only [IpcList.prev, IpcList.next, IpcList.groups] at hlinks ⊢
      simp [movedNode_apply w, movedWords, hlinks]
  sends := by
    refine ⟨h.sends.toIsList.congr ?_, fun t ht => ?_⟩
    · rintro page word (⟨rfl, -⟩ | ⟨r, hr, rfl, hword | hword⟩)
      · simp [movedNode_apply w, sendGroups]
      all_goals
        have hold : r ≠ old := fun heq => hsending (heq ▸ hr)
        simp [movedNode_apply w, hword, sendGroups, movedWords, hold]
    · have hlinks := h.sends.unlinked t ht
      simp only [IpcList.prev, IpcList.next, sendGroups] at hlinks ⊢
      simp [movedNode_apply w, movedWords, hlinks]
  chains node send := by
    have hlinks : ∀ r, (IpcList.chain node send).next
            (Ipclist.clearNode (copyNode w old new) old) r =
          (IpcList.chain node send).next w r ∧
        (IpcList.chain node send).prev (Ipclist.clearNode (copyNode w old new) old) r =
          (IpcList.chain node send).prev w r := by
      simp [IpcList.next, IpcList.prev, IpcList.chain, movedNode_apply w,
        nodeWords, movedWords]
    have hends : node ≠ old → (IpcList.chain node send).first
            (Ipclist.clearNode (copyNode w old new) old) =
          (IpcList.chain (rename new old node) send).first w ∧
        (IpcList.chain node send).last (Ipclist.clearNode (copyNode w old new) old) =
          (IpcList.chain (rename new old node) send).last w := by
      cases send <;> by_cases hnew : node = new <;>
        simp_all [IpcList.first, IpcList.last, IpcList.chain,
          movedNode_apply w, movedWords, rename]
    by_cases hold : node = old
    · subst hold
      have hempty : (shape.rehome node new).chain node send = [] := by
        simp [rehome]
      rw [hempty]
      refine ⟨trivial, ?_, ?_, nodup_nil, not_mem_nil⟩ <;>
        cases send <;>
        simp [IpcList.first, IpcList.last, IpcList.chain, movedNode_apply w, nodeWords]
    · have hchain : (shape.rehome old new).chain node send =
          shape.chain (rename new old node) send := by
        simp [rehome, hold]
      have hlist := h.chains (rename new old node) send
      obtain ⟨hfirst, hlast⟩ := hends hold
      rw [hchain]
      refine ⟨?_, hfirst.trans hlist.first, hlast.trans hlist.last, hlist.distinct,
        hlist.positive⟩
      exact hlist.linked.congr (fun r _ => (hlinks r).1) (fun r _ => (hlinks r).2)

theorem Holds.nameGroup {list : IpcList} {nodes sending : List ℕ}
    {chain : ℕ → Bool → List ℕ} (h : Holds w e nodes sending chain) (fuel m : ℕ) :
    Holds (nameGroup list node fuel m w) e nodes sending chain := by
  induction fuel generalizing m w with
  | zero => exact h
  | succ fuel ih =>
    rw [Ipclist.nameGroup]
    split
    · exact h
    · exact ih (h.write (by decide) _ _) _

/-- The moved node's words, with the members of both chains naming it. -/
theorem Represents.renamed_apply (h : Represents w e shape) (hne : old ≠ new)
    (hnodes : old ∉ shape.nodes) (hsending : old ∉ shape.sending)
    (hcount : ∀ send, (shape.chain old send).length ≤ shape.count old) :
    Holds (renamed w old new) e shape.nodes shape.sending (shape.rehome old new).chain ∧
      ∀ page word, renamed w old new page word =
        if (∃ send, ∃ m ∈ shape.chain old send, page = .thread m) ∧
        word = .tGroup then new
        else Ipclist.clearNode (copyNode w old new) old page word := by
  set moved := Ipclist.clearNode (copyNode w old new) old with hmoved
  have hlists : Holds moved e _ _ _ := h.movedLists hne hnodes hsending
  have hchain : ∀ send, (shape.rehome old new).chain new send =
      shape.chain old send := fun send => by simp [rehome, rename, hne.symm]
  have hcountMoved : count moved new = shape.count old := by
    rw [count, movedNode_apply w]
    simp [hne.symm, movedWords, h.counted]
  have hsends := hlists.chains new true
  rw [hchain] at hsends
  set named := nameGroup (chain new true) new (count moved new)
    ((chain new true).first moved) moved with hnamed
  have hnamedLists : Holds named e _ _ _ := hlists.nameGroup _ _
  have hcalls := hnamedLists.chains new false
  rw [hchain] at hcalls
  have hnamedWord : ∀ page word, named page word =
      if (∃ m ∈ shape.chain old true, page = .thread m) ∧ word = .tGroup then new
      else moved page word := by
    rw [hnamed, hsends.first]
    exact nameGroup_apply [] hsends (chain_unused (by decide))
      (hcountMoved ▸ hcount true)
  have hcountNamed : count named new = shape.count old := by
    rw [count, hnamedWord, ← hcountMoved]
    simp [count]
  have hrenamed : renamed w old new = nameGroup (chain new false) new (count named new)
        ((chain new false).first named) named := rfl
  refine ⟨hnamedLists.nameGroup _ _, fun page word => ?_⟩
  rw [hrenamed, hcalls.first, nameGroup_apply [] hcalls (chain_unused (by decide))
      (hcountNamed ▸ hcount false), hnamedWord]
  by_cases hword : word = .tGroup
  · by_cases hcall : ∃ m ∈ shape.chain old false, page = .thread m <;>
      simp [hword, hcall]
  · simp [hword]

theorem Represents.renamed (h : Represents w e shape) (hne : old ≠ new)
    (hnodes : old ∉ shape.nodes) (hsending : old ∉ shape.sending)
    (hcount : ∀ send, (shape.chain old send).length ≤ shape.count old)
    (hapart : ∀ send, ∀ m ∈ shape.chain old send, ∀ node' send',
      m ∈ shape.chain node' send' → node' = old ∧ send' = send) :
    Represents (renamed w old new) e (shape.rehome old new) := by
  obtain ⟨hlists, hrenamed⟩ := h.renamed_apply hne hnodes hsending hcount
  have hword : ∀ page, ∀ word ≠ .tGroup, Ipclist.renamed w old new page word =
        if page = .thread old ∧ word ∈ nodeWords then 0
        else if page = .thread new ∧ word ∈ movedWords then w (.thread old) word
        else w page word := by
    intro page word hgroup
    rw [hrenamed, if_neg fun h => hgroup h.2, movedNode_apply w]
  refine ⟨hlists, fun node => ?_, fun node => ?_, fun t => ?_,
    fun node send m hm => ?_, ?_⟩
  · rw [hword _ _ (by decide)]
    by_cases hold : node = old
    · simp [hold, rehome, nodeWords]
    · by_cases hnew : node = new <;>
        simp [rehome, rename, hold, hnew, movedWords, h.counted, hne.symm]
  · rw [hword _ _ (by decide)]
    by_cases hold : node = old
    · simp [hold, rehome, nodeWords]
    · by_cases hnew : node = new <;>
        simp [rehome, rename, hold, hnew, movedWords, h.taken, hne.symm]
  · rw [hword _ _ (by decide)]
    simp [nodeWords, movedWords, h.arrived, rehome]
  · by_cases hold : node = old
    · simp [rehome, hold] at hm
    have hmember : m ∈ shape.chain (rename new old node) send := by
      simpa [rehome, hold] using hm
    rw [hrenamed, movedNode_apply w]
    by_cases hnode : node = new
    · rw [rename, if_pos hnode] at hmember
      rw [if_pos ⟨⟨send, m, hmember, rfl⟩, rfl⟩, hnode]
    · -- a member of another group keeps its node
      rw [rename, if_neg hnode] at hmember
      have hnot : ∀ send', m ∉ shape.chain old send' :=
        fun send' hmem => hold (hapart send' m hmem node send hmember).1
      simp [hnot, nodeWords, movedWords, h.named node send m hmember]
  · rw [hword _ _ (by decide)]
    simpa [rehome] using h.waiting

namespace Shape

/-- The node of a group moves from `old` to `new`. -/
def moved (shape : Shape) (old new : ℕ) : Shape :=
  { shape with
    nodes := shape.nodes.map (rename old new)
    sending := shape.sending.map (rename old new) }.rehome old new

end Shape

theorem Represents.moveNode (h : Represents w e shape)
    (hold : old ∈ shape.nodes) (hnew : new ∉ shape.nodes) (hpositive : new ≠ 0)
    (hlisted : ∀ node ∈ shape.sending, node ∈ shape.nodes)
    (hcount : ∀ send, (shape.chain old send).length ≤ shape.count old)
    (hapart : ∀ send, ∀ m ∈ shape.chain old send, ∀ node' send',
      m ∈ shape.chain node' send' → node' = old ∧ send' = send) :
    Represents (moveNode w e old new) e (shape.moved old new) := by
  have hne : old ≠ new := fun heq => hnew (heq ▸ hold)
  have hgone : ∀ nodes : List ℕ, old ∉ nodes.map (rename old new) := by
    intro nodes hmem
    obtain ⟨n, -, hn⟩ := mem_map.mp hmem
    rw [rename] at hn
    split at hn
    · exact hne hn.symm
    · contradiction
  have hreplaced : Represents ((groups e).replace w old new) e
      { shape with nodes := shape.nodes.map (rename old new) } :=
        h.replaceTurns false hold hpositive hnew
  have hsends :
      Represents (if (sendGroups e).contains ((groups e).replace w old new) old then
        (sendGroups e).replace ((groups e).replace w old new) old new
      else (groups e).replace w old new) e
      { shape with
        nodes := shape.nodes.map (rename old new)
        sending := shape.sending.map (rename old new) } := by
    by_cases hmem : old ∈ shape.sending
    · rw [if_pos ((hreplaced.sends_contains (h.groups.ne_zero hold)).mpr hmem)]
      exact hreplaced.replaceTurns true hmem hpositive fun hmem =>
        hnew (hlisted new hmem)
    · rw [if_neg fun hcontains =>
        hmem ((hreplaced.sends_contains (h.groups.ne_zero hold)).mp hcontains),
        map_rename_of_not_mem hmem]
      exact hreplaced
  exact hsends.renamed hne (hgone _) (hgone _) hcount hapart

end Nodes

end Redoubt.Ipclist
