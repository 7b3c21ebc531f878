import Redoubt.Ipc.Lists
import Redoubt.Ipc.Groups

/-!
# The group lists as sequences

A `Shape` says what an endpoint's group lists hold: the nodes in the order of
their turns, the nodes on the send list, and each node's chains, count and last
take.  A memory represents a shape when every list in it stands for its
sequence.  Each step of the group operations is one edit of the shape.
-/

namespace Redoubt.Ipclist

open IpcList Function

/-- What an endpoint's group lists hold. -/
structure Shape where
  nodes : List ℕ
  sending : List ℕ
  chain : ℕ → Bool → List ℕ
  count : ℕ → ℕ
  taken : ℕ → ℕ
  seq : ℕ → ℕ
  waiting : ℕ

/-- A list whose links are 0 outside it. -/
structure IpcList.Exact (w : Words) (list : IpcList) (nodes : List ℕ) : Prop
    extends IsList w list nodes where
  unlinked : ∀ t ∉ nodes, list.prev w t = 0 ∧ list.next w t = 0

/-- Every list in the memory stands for its sequence. -/
structure Holds (w : Words) (e : ℕ) (nodes sending : List ℕ)
    (chain : ℕ → Bool → List ℕ) : Prop where
  groups : Exact w (IpcList.groups e) nodes
  sends : Exact w (sendGroups e) sending
  chains : ∀ node send, IsList w (IpcList.chain node send) (chain node send)

/-- The memory holds the shape's lists, and its words: every node has its
group's count and take, and every member names its node. -/
structure Represents (w : Words) (e : ℕ) (shape : Shape) : Prop
    extends Holds w e shape.nodes shape.sending shape.chain where
  counted : ∀ node, w (.thread node) .gCount = shape.count node
  taken : ∀ node, w (.thread node) .gTaken = shape.taken node
  arrived : ∀ t, w (.thread t) .tSeq = shape.seq t
  named : ∀ node send, ∀ m ∈ shape.chain node send, w (.thread m) .tGroup = node
  waiting : w (.endpoint e) .eWaiting = shape.waiting

/-! ## Words a list does not use -/

/-- A word that the list keeps no link or end in. -/
def Unused (list : IpcList) (word : Word) : Prop :=
  word ≠ list.head ∧ list.tail ≠ some word ∧ word ≠ list.prevWord ∧ word ≠ list.nextWord

instance (list : IpcList) (word : Word) : Decidable (Unused list word) :=
  inferInstanceAs (Decidable (_ ∧ _ ∧ _ ∧ _))

variable {list : IpcList}

theorem Unused.not_touches {word : Word}
    (hunused : Unused list word) (nodes : List ℕ) (page : Page) :
    ¬ list.Touches nodes page word := by
  rintro (⟨-, hword | hword⟩ | ⟨r, -, -, hword | hword⟩)
  · exact hunused.1 hword
  · exact hunused.2.1 hword
  · exact hunused.2.2.1 hword
  · exact hunused.2.2.2 hword

theorem unused_of {word tail : Word} (htail : list.tail = some tail)
    (hword : word ∉ [list.head, tail, list.prevWord, list.nextWord]) :
    Unused list word := by
  simp only [List.mem_cons, List.not_mem_nil, or_false, not_or] at hword
  refine ⟨hword.1, fun heq => ?_, hword.2.2.1, hword.2.2.2⟩
  exact hword.2.1 (Option.some.inj (heq.symm.trans htail))

variable {e : ℕ}

theorem groups_unused {word : Word}
    (hword : word ∉ [.eGroups, .eGroupsTail, .gPrev, .gNext]) :
    Unused (groups e) word :=
  unused_of rfl hword

theorem sends_unused {word : Word}
    (hword : word ∉ [.eSends, .eSendsTail, .gSprev, .gSnext]) :
    Unused (sendGroups e) word :=
  unused_of rfl hword

/-- The two lists of nodes: of all of them, and of those with a send. -/
def turnList (e : ℕ) (sends : Bool) : IpcList := cond sends (sendGroups e) (groups e)

theorem turns_unused {sends : Bool} {word : Word}
    (hword : word ∉ [.eGroups, .eGroupsTail, .gPrev, .gNext, .eSends, .eSendsTail,
      .gSprev, .gSnext]) :
    Unused (turnList e sends) word := by
  cases sends
  · exact groups_unused fun h => hword (by clear hword; revert word; decide)
  · exact sends_unused fun h => hword (by clear hword; revert word; decide)

theorem chain_unused {node : ℕ} {send : Bool} {word : Word}
    (hword : word ∉ [.gSends, .gSendsTail, .gCalls, .gCallsTail, .tPrev, .tNext]) :
    Unused (chain node send) word := by
  cases send
  · have hcalls : word ∉ [.gCalls, .gCallsTail, .tPrev, .tNext] :=
      fun h => hword (by clear hword; revert word; decide)
    exact unused_of rfl hcalls
  · have hsends : word ∉ [.gSends, .gSendsTail, .tPrev, .tNext] :=
      fun h => hword (by clear hword; revert word; decide)
    exact unused_of rfl hsends

/-! ## Lists that share no word -/

/-- No word that the second list may touch is one of the first's. -/
def Apart (list : IpcList) (nodes : List ℕ) (other : IpcList)
    (others : List ℕ) : Prop :=
  ∀ page word, other.Touches others page word → ¬ list.Touches nodes page word

variable {w w' : Words}

theorem IpcList.IsList.frame {other : IpcList} {nodes others : List ℕ}
    (hother : IsList w other others)
    (hwithin : list.Within nodes w w') (hapart : Apart list nodes other others) :
    IsList w' other others :=
  hother.congr fun page word htouches =>
    hwithin page word (hapart page word htouches)

theorem Apart.symm {other : IpcList} {nodes others : List ℕ}
    (hapart : Apart list nodes other others) : Apart other others list nodes :=
  fun page word htouches h => hapart page word h htouches

/-- The second list keeps to words that the first does not use. -/
theorem apart_of_unused {other : IpcList} {nodes others : List ℕ} {words : List Word}
    (hother : ∀ word ∉ words, Unused other word)
    (hlist : ∀ word ∈ words, Unused list word) :
    Apart list nodes other others := by
  intro page word htouches
  by_cases hword : word ∈ words
  · exact (hlist word hword).not_touches nodes page
  · exact absurd htouches ((hother word hword).not_touches others page)

theorem apart_groups_sends (e : ℕ) (nodes others : List ℕ) :
    Apart (groups e) nodes (sendGroups e) others :=
  apart_of_unused (fun _ => sends_unused) fun word hword =>
    groups_unused (by revert word; decide)

theorem apart_turns_chain (e : ℕ) (sends : Bool) (node : ℕ) (send : Bool)
    (nodes others : List ℕ) :
    Apart (turnList e sends) nodes (chain node send) others :=
  apart_of_unused (fun _ => chain_unused) fun word hword =>
    turns_unused (by revert word; decide)

/-- Two chains are apart if they are two chains and share no member. -/
theorem apart_chain_chain {node node' : ℕ} {send send' : Bool}
    {nodes others : List ℕ} (hdifferent : node ≠ node' ∨ send ≠ send')
    (hdisjoint : ∀ m ∈ nodes, m ∉ others) :
    Apart (chain node send) nodes (chain node' send') others := by
  rintro page word (⟨rfl, hword⟩ | ⟨r, hr, rfl, hword⟩)
  · rintro (⟨hpage, hword'⟩ | ⟨m, -, -, hword'⟩)
    · have hnode : node' = node := by simpa [chain] using hpage
      subst hnode
      cases send <;> cases send' <;> simp_all [chain] <;>
        rcases hword with rfl | rfl <;> simp_all
    · cases send' <;> simp_all [chain] <;>
        rcases hword with rfl | rfl <;> simp_all
  · rintro (⟨hpage, hword'⟩ | ⟨m, hm, hpage, -⟩)
    · cases send <;> simp_all [chain] <;>
        rcases hword with rfl | rfl <;> simp_all
    · have hmr : r = m := by simpa using hpage
      exact hdisjoint m hm (hmr ▸ hr)

/-! ## What an edit keeps -/

variable {touched : List ℕ}

theorem IpcList.Within.keeps (hwithin : list.Within touched w w') {word : Word}
    (hunused : Unused list word) (page : Page) : w' page word = w page word :=
  hwithin page word (hunused.not_touches touched page)

/-- A thread that the edit does not touch and that does not hold the list keeps
its page. -/
theorem IpcList.Within.keeps_page
    (hwithin : list.Within touched w w') {t : ℕ} (howner : list.owner ≠ .thread t)
    (ht : t ∉ touched) (word : Word) : w' (.thread t) word = w (.thread t) word := by
  apply hwithin
  rintro (⟨hpage, -⟩ | ⟨r, hr, hpage, -⟩)
  · exact howner hpage.symm
  · exact ht (Page.thread.inj hpage ▸ hr)

theorem IpcList.pushBack_unused {word : Word} (w : Words) (r : ℕ)
    (hunused : Unused list word) (huncounted : list.counted = false)
    (page : Page) : list.pushBack w r page word = w page word := by
  obtain ⟨hhead, htail, hprev, hnext⟩ := hunused
  simp only [pushBack, insertAfter, huncounted, Bool.false_eq_true, if_false]
  rw [setPrevOf_of_word_ne hprev htail, setNextOf_of_word_ne hnext hhead,
    write_of_word_ne _ _ _ _ hnext, write_of_word_ne _ _ _ _ hprev]

theorem IpcList.IsList.write_unused {nodes : List ℕ}
    (hlist : IsList w list nodes) {word : Word} (hunused : Unused list word)
    (page : Page) (value : ℕ) : IsList (write w page word value) list nodes := by
  apply hlist.congr
  intro page' word' htouches
  apply write_of_word_ne
  rintro rfl
  exact hunused.not_touches nodes page' htouches

theorem IpcList.Exact.write_unused {nodes : List ℕ}
    (hlist : Exact w list nodes) {word : Word} (hunused : Unused list word)
    (page : Page) (value : ℕ) : Exact (write w page word value) list nodes where
  toIsList := hlist.toIsList.write_unused hunused page value
  unlinked t ht := by
    obtain ⟨hprev, hnext⟩ := hlist.unlinked t ht
    refine ⟨Eq.trans ?_ hprev, Eq.trans ?_ hnext⟩
    · exact write_of_word_ne _ _ _ _ hunused.2.2.1.symm
    · exact write_of_word_ne _ _ _ _ hunused.2.2.2.symm

/-- A list that is edited within words apart from this one's. -/
theorem IpcList.Exact.frame {other : IpcList} {nodes : List ℕ}
    (hother : Exact w other nodes) (hwithin : list.Within touched w w')
    (hapart : ∀ others, Apart list touched other others) :
    Exact w' other nodes where
  toIsList := hother.toIsList.frame hwithin (hapart nodes)
  unlinked t ht := by
    obtain ⟨hprev, hnext⟩ := hother.unlinked t ht
    have hsame := fun word hword => hwithin _ _
      (hapart [t] (.thread t) word (.inr ⟨t, List.mem_singleton_self t, rfl, hword⟩))
    exact ⟨(hsame _ (.inl rfl)).trans hprev, (hsame _ (.inr rfl)).trans hnext⟩

/-! ## Edits of one list -/

namespace Shape

def setChain (shape : Shape) (node : ℕ) (send : Bool) (members : List ℕ) : Shape :=
  { shape with
    chain := fun node' send' =>
      if node' = node ∧ send' = send then members else shape.chain node' send' }

def turns (shape : Shape) (sends : Bool) : List ℕ :=
  cond sends shape.sending shape.nodes

def setTurns (shape : Shape) (sends : Bool) (nodes : List ℕ) : Shape :=
  { shape with
    nodes := cond sends shape.nodes nodes
    sending := cond sends nodes shape.sending }

end Shape

section Edits

variable {w w' : Words} {e : ℕ} {shape : Shape} {touched : List ℕ}

theorem Represents.turns (h : Represents w e shape) (sends : Bool) :
    Exact w (turnList e sends) (shape.turns sends) := by
  cases sends
  · exact h.groups
  · exact h.sends

theorem Represents.editTurns {nodes : List ℕ} (h : Represents w e shape) (sends : Bool)
    (hlist : Exact w' (turnList e sends) nodes)
    (hwithin : (turnList e sends).Within touched w w') :
    Represents w' e (shape.setTurns sends nodes) where
  groups := by
    cases sends
    · exact hlist
    · exact h.groups.frame hwithin fun _ => (apart_groups_sends e _ _).symm
  sends := by
    cases sends
    · exact h.sends.frame hwithin (apart_groups_sends e _)
    · exact hlist
  chains node send :=
    (h.chains node send).frame hwithin (apart_turns_chain e sends node send _ _)
  counted node := (hwithin.keeps (turns_unused (by decide)) _).trans (h.counted node)
  taken node := (hwithin.keeps (turns_unused (by decide)) _).trans (h.taken node)
  arrived t := (hwithin.keeps (turns_unused (by decide)) _).trans (h.arrived t)
  named node send m hm := (hwithin.keeps (turns_unused (by decide)) _).trans
    (h.named node send m hm)
  waiting := (hwithin.keeps (turns_unused (by decide)) _).trans h.waiting

/-- A chain is edited; its new members are on no other chain and already name
its node. -/
theorem Represents.editChain {node : ℕ} {send : Bool} {members : List ℕ}
    (h : Represents w e shape)
    (hwithin : (chain node send).Within touched w w')
    (hlist : IsList w' (chain node send) members)
    (htouched : ∀ m ∈ touched, ∀ node' send', m ∈ shape.chain node' send' →
      node' = node ∧ send' = send)
    (hnamed : ∀ m ∈ members, w (.thread m) .tGroup = node) :
    Represents w' e (shape.setChain node send members) where
  groups := h.groups.frame hwithin fun _ =>
    (apart_turns_chain e false node send _ _).symm
  sends := h.sends.frame hwithin fun _ => (apart_turns_chain e true node send _ _).symm
  chains node' send' := by
    simp only [Shape.setChain]
    split
    · next hsame =>
        obtain ⟨rfl, rfl⟩ := hsame
        exact hlist
    · next hdifferent =>
        apply (h.chains node' send').frame hwithin
        apply apart_chain_chain
        · rcases not_and_or.mp hdifferent with hnode | hsend
          · exact .inl fun h => hnode h.symm
          · exact .inr fun h => hsend h.symm
        · exact fun m hm hmember => hdifferent (htouched m hm node' send' hmember)
  counted node :=
    (hwithin.keeps (chain_unused (by decide)) _).trans (h.counted node)
  taken node :=
    (hwithin.keeps (chain_unused (by decide)) _).trans (h.taken node)
  arrived t := (hwithin.keeps (chain_unused (by decide)) _).trans (h.arrived t)
  named node' send' m hm := by
    rw [hwithin.keeps (chain_unused (by decide))]
    simp only [Shape.setChain] at hm
    split at hm
    · next hsame => exact (hnamed m hm).trans hsame.1.symm
    · exact h.named node' send' m hm
  waiting := (hwithin.keeps (chain_unused (by decide)) _).trans h.waiting

/-! ## Words outside the lists -/

/-- The words that no list keeps a link or an end in. -/
def plainWords : List Word :=
  [.gCount, .gTaken, .tSeq, .tGroup, .eWaiting]

theorem Holds.write {nodes sending : List ℕ} {chain : ℕ → Bool → List ℕ}
    {word : Word} (h : Holds w e nodes sending chain)
    (hword : word ∈ plainWords) (page : Page) (value : ℕ) :
    Holds (write w page word value) e nodes sending chain where
  groups := h.groups.write_unused (groups_unused (by revert word; decide)) page value
  sends := h.sends.write_unused (sends_unused (by revert word; decide)) page value
  chains node send := (h.chains node send).write_unused
    (chain_unused (by revert word; decide)) page value

theorem write_ne {page page' : Page} {word word' : Word} {value x : ℕ}
    (hne : word' ≠ word)
    (hx : w page' word' = x) : write w page word value page' word' = x :=
  (write_of_word_ne _ _ _ _ hne).trans hx

variable (h : Represents w e shape)

include h

theorem Represents.writeCount (node value : ℕ) :
    Represents (write w (.thread node) .gCount value) e
      { shape with count := update shape.count node value } where
  toHolds := h.toHolds.write (by decide) _ _
  counted node' := by simp [write_apply, update_apply, h.counted]
  taken node := write_ne (by decide) (h.taken node)
  arrived t := write_ne (by decide) (h.arrived t)
  named node send m hm := write_ne (by decide) (h.named node send m hm)
  waiting := write_ne (by decide) h.waiting

theorem Represents.writeTaken (node value : ℕ) :
    Represents (write w (.thread node) .gTaken value) e
      { shape with taken := update shape.taken node value } where
  toHolds := h.toHolds.write (by decide) _ _
  counted node := write_ne (by decide) (h.counted node)
  taken node' := by simp [write_apply, update_apply, h.taken]
  arrived t := write_ne (by decide) (h.arrived t)
  named node send m hm := write_ne (by decide) (h.named node send m hm)
  waiting := write_ne (by decide) h.waiting

theorem Represents.writeSeq (t value : ℕ) :
    Represents (write w (.thread t) .tSeq value) e
      { shape with seq := update shape.seq t value } where
  toHolds := h.toHolds.write (by decide) _ _
  counted node := write_ne (by decide) (h.counted node)
  taken node := write_ne (by decide) (h.taken node)
  arrived t' := by simp [write_apply, update_apply, h.arrived]
  named node send m hm := write_ne (by decide) (h.named node send m hm)
  waiting := write_ne (by decide) h.waiting

/-- A thread on no chain may name any node. -/
theorem Represents.writeGroup {t : ℕ} (value : ℕ)
    (ht : ∀ node send, t ∉ shape.chain node send) :
    Represents (write w (.thread t) .tGroup value) e shape where
  toHolds := h.toHolds.write (by decide) _ _
  counted node := write_ne (by decide) (h.counted node)
  taken node := write_ne (by decide) (h.taken node)
  arrived t := write_ne (by decide) (h.arrived t)
  named node send m hm := by
    have hmember : m ≠ t := fun heq => ht node send (heq ▸ hm)
    rw [write_of_page_ne _ _ _ _ fun heq => hmember (Page.thread.inj heq)]
    exact h.named node send m hm
  waiting := write_ne (by decide) h.waiting

theorem Represents.counts (by_ : ℤ) : Represents (Ipclist.counts w (.endpoint e) by_) e
      { shape with waiting := (Int.ofNat shape.waiting + by_).toNat } where
  toHolds := h.toHolds.write (by decide) _ _
  counted node := write_ne (by decide) (h.counted node)
  taken node := write_ne (by decide) (h.taken node)
  arrived t := write_ne (by decide) (h.arrived t)
  named node send m hm := write_ne (by decide) (h.named node send m hm)
  waiting := by
    simp [Ipclist.counts, h.waiting]

theorem Represents.countUp : Represents (Ipclist.counts w (.endpoint e) 1) e
      { shape with waiting := shape.waiting + 1 } := by
  have hwaiting : (Int.ofNat shape.waiting + 1).toNat = shape.waiting + 1 := rfl
  exact h.counts 1

theorem Represents.countDown : Represents (Ipclist.counts w (.endpoint e) (-1)) e
      { shape with waiting := shape.waiting - 1 } := by
  have hwaiting : (Int.ofNat shape.waiting + -1).toNat = shape.waiting - 1 := by
    simp only [Int.ofNat_eq_natCast]
    omega
  rw [← hwaiting]
  exact h.counts (-1)

omit h

end Edits

end Redoubt.Ipclist
