import Redoubt.Ipc.Turns

/-!
# A message leaves its endpoint

`dequeue` on a memory that represents a valid shape leaves one that represents a
valid shape without the thread: every other message is where it was, in the same
group, under the same take.
-/

namespace Redoubt.Ipclist

open IpcList Function List Shape

/-! ## Settling the two lists -/

section Settle

variable {w : Words} {e node counter : ℕ} {shape : Shape} {front back : List ℕ}

theorem mem_around {l : List ℕ} {n : ℕ} (hl : l = front ++ node :: back)
    (hdistinct : l.Nodup)
    (hn : n ∈ front ++ back) : n ∈ l ∧ n ≠ node := by
  rw [hl, nodup_middle, nodup_cons] at hdistinct
  refine ⟨?_, ?_⟩
  · simp only [hl, mem_append] at hn ⊢
    tauto
  · rintro rfl
    exact hdistinct.1 hn

/-- Around a member whose key changed a sorted list is still sorted. -/
theorem pairwise_around {key key' : ℕ → ℕ}
    (hsorted : (front ++ node :: back).Pairwise fun n n' => key n < key n')
    (hkey : ∀ n ∈ front ++ back, key' n = key n) :
    (front ++ back).Pairwise (fun n n' => key' n < key' n') ∧ ∀ n ∈ front,
    key' n < key node := by
  refine ⟨?_, fun n hn => ?_⟩
  · apply (hsorted.sublist ((sublist_cons_self node back).append_left front)).imp_of_mem
    intro n n' hn hn' hlt
    rwa [hkey n hn, hkey n' hn']
  · rw [hkey n (mem_append_left _ hn)]
    exact (pairwise_append.mp hsorted).2.2 n hn node mem_cons_self

/-- The group list is in order again once the one group whose key rose moved
back. -/
theorem Represents.resettleGroup (h : Represents w e shape)
    (hsound : shape.Sound counter) (hhome : shape.Homed)
    (hnodes : shape.nodes = front ++ node :: back)
    (hsorted : (front ++ back).Pairwise fun n n' => shape.key n < shape.key n')
    (hfront : ∀ n ∈ front, shape.key n < shape.key node) :
    ∃ nodes, Represents ((groups e).movedBack w (Ipclist.waiting w e) node key) e
        { shape with nodes := nodes } ∧
      nodes.Perm shape.nodes ∧
      nodes.Pairwise fun n n' => shape.key n < shape.key n' := by
  have hnode : node ∈ shape.nodes := by simp [hnodes]
  have hother : ∀ n ∈ front ++ back, n ∈ shape.nodes ∧ n ≠ node :=
    fun _ => mem_around hnodes h.groups.distinct
  have hkey : ∀ n ∈ shape.nodes, key w n = shape.key n :=
    fun n hn => h.key_eq hsound hhome hn
  have hdifferent : ∀ n ∈ back, shape.key n ≠ shape.key node := by
    intro n hn
    obtain ⟨hin, hne⟩ := hother n (mem_append_right _ hn)
    exact hsound.key_ne hhome hne hin hnode
  obtain ⟨passed, above, rfl, hpassed, habove, hresult⟩ :=
    exists_passed hsorted hfront hdifferent
  have hlength : passed.length ≤ Ipclist.waiting w e := by
    have hle := hsound.length_nodes_le hhome
    rw [hnodes] at hle
    rw [Ipclist.waiting, h.waiting]
    simp only [length_append, length_cons] at hle
    omega
  refine ⟨_, h.movedBackTurns false (fun _ _ => key_within) hnodes ?_ ?_ hlength, ?_,
    hresult⟩
  · intro n hn
    rw [hkey n (hother n (by simp [hn])).1, hkey node hnode]
    exact hpassed n hn
  · intro n hn
    have hin := mem_of_mem_head? hn
    rw [hkey n (hother n (by simp [hin])).1, hkey node hnode]
    exact habove n hn
  · rw [hnodes, append_assoc]
    exact (perm_middle).append_left front

/-- The send list is in order again once the group whose oldest send left moved
back, or left with its last send. -/
theorem Represents.settleSends (h : Represents w e shape)
    (hsound : shape.Sound counter) (hhome : shape.Homed)
    (hsending : shape.sending = front ++ node :: back)
    (hlisted : ∀ n ∈ front ++ back, shape.chain n true ≠ [])
    (hsorted : (front ++ back).Pairwise
      fun n n' => shape.sendKey n < shape.sendKey n')
    (hfront : shape.chain node true ≠ [] → ∀ n ∈ front,
      shape.sendKey n < shape.sendKey node) :
    ∃ sending, Represents (settleSends w e node) e { shape with sending := sending } ∧
      (∀ n, n ∈ sending ↔ n ∈ front ++ back ∨ (n = node ∧ shape.chain node true ≠ [])) ∧
      sending.Pairwise fun n n' => shape.sendKey n < shape.sendKey n' := by
  have hother : ∀ n ∈ front ++ back, n ∈ shape.sending ∧ n ≠ node :=
    fun _ => mem_around hsending h.sends.distinct
  rw [Ipclist.settleSends, h.chain_isEmpty]
  by_cases hempty : shape.chain node true = []
  · refine ⟨front ++ back, ?_, by simp [hempty], hsorted⟩
    have hmem : node ∈ shape.sending := by simp [hsending]
    have hremoved : Represents ((sendGroups e).remove w node) e
        { shape with sending := shape.sending.erase node } := h.removeTurns true hmem
    have hfront : node ∉ front := fun hin => (hother node (mem_append_left _ hin)).2 rfl
    rw [hsending, erase_append_right _ hfront] at hremoved
    simpa [hempty] using hremoved
  · rw [if_neg (by simpa using hempty)]
    have hdifferent : ∀ n ∈ back, shape.sendKey n ≠ shape.sendKey node := by
      intro n hn
      have hne := (hother n (mem_append_right _ hn)).2
      exact hsound.due_ne hne (headD_mem_of_ne_nil (hlisted n (by simp [hn])))
        (headD_mem_of_ne_nil hempty)
    obtain ⟨passed, above, rfl, hpassed, habove, hresult⟩ :=
      exists_passed hsorted (hfront hempty) hdifferent
    have hlength : passed.length ≤ Ipclist.waiting w e := by
      have hle := hsound.length_sending_le hhome h.sends.distinct ?_
      · rw [hsending] at hle
        rw [Ipclist.waiting, h.waiting]
        simp only [length_append, length_cons] at hle
        omega
      · intro n hn
        have hne : shape.chain n true ≠ [] := by
          rw [hsending] at hn
          rcases mem_append.mp hn with hn | hn
          · exact hlisted n (by simp [hn])
          · rcases mem_cons.mp hn with rfl | hn
            · exact hempty
            · exact hlisted n (mem_append_right _ hn)
        exact hsound.mem_nodes (headD_mem_of_ne_nil hne)
    refine ⟨front ++ passed ++ node :: above,
      h.movedBackTurns true (fun _ _ => sendKey_within) hsending ?_ ?_ hlength, ?_,
      hresult⟩
    · intro n hn
      rw [h.sendKey_eq, h.sendKey_eq]
      exact hpassed n hn
    · intro n hn
      rw [h.sendKey_eq, h.sendKey_eq]
      exact habove n hn
    · intro n
      simp only [mem_append, mem_cons]
      tauto

end Settle

/-! ## The group that a thread leaves -/

namespace Shape

/-- The shape after `t` left a chain of `node`, with the group's node on `home`
and the group list in order.  The send list is not settled yet. -/
structure Leaving (shape left : Shape) (node home t : ℕ) (send : Bool)
    (counter : ℕ) : Prop where
  sound : left.Sound counter
  homed : left.Homed
  sorted : left.nodes.Pairwise fun n n' => left.key n < left.key n'
  sending : left.sending = shape.sending.map (rename node home)
  fresh : home = node ∨ home ∉ shape.nodes
  nodes : ∀ n, n ∈ left.nodes ↔ n = home ∨ (n ∈ shape.nodes ∧ n ≠ node)
  seq : left.seq = shape.seq
  chain : ∀ n ∈ left.nodes, ∀ s,
    left.chain n s = (shape.unchain node t send).chain (rename home node n) s
  taken : ∀ n ∈ left.nodes, left.taken n = shape.taken (rename home node n)

section Stay

variable {shape : Shape} {node t counter : ℕ} {send : Bool}

theorem rename_same (n : ℕ) : rename node node n = n := by
  rw [rename]
  split
  · next heq => exact heq.symm
  · rfl

/-- A group whose oldest message stays keeps its node. -/
theorem Valid.leaving_stay (h : shape.Valid counter)
    (ht : t ∈ shape.chain node send) (hne : t ≠ node) :
    shape.Leaving (shape.unchain node t send) node node t send counter := { h with
  sound := h.toSound.unchain ht h.nodes_nodup
  homed :=
    { home := by
        intro n hn
        obtain ⟨s, hself⟩ := h.home n hn
        refine ⟨s, (h.toSound.mem_unchain ht).mpr ⟨hself, ?_⟩⟩
        -- a node is on its own chain, and `t` is on another's
        rintro rfl
        exact hne (h.apart node send n ht n s hself).1
      oldest := fun n s m hm =>
        h.oldest n s m ((h.toSound.mem_unchain ht).mp hm).1 }
  sending := by
    rw [map_congr_left (g := id) fun n _ => rename_same n, map_id]
    rfl
  fresh := .inl rfl
  nodes n := by
    have hnode := h.mem_nodes ht
    by_cases hsame : n = node
    · simpa [hsame] using hnode
    · simp [hsame]
  seq := rfl
  chain n _ s := by rw [rename_same]
  taken n _ := by
    rw [rename_same]
    rfl }

end Stay

end Shape

section Move

variable {w : Words} {e t counter : ℕ} {shape : Shape} {send : Bool}

/-- A group with a message has an oldest one. -/
theorem Shape.exists_oldest (shape : Shape) {node m : ℕ} {send : Bool}
    (hm : m ∈ shape.chain node send) :
    ∃ new send', new ∈ shape.chain node send' ∧
      ∀ s, ∀ m' ∈ shape.chain node s, shape.seq new ≤ shape.seq m' := by
  obtain ⟨new, ⟨send', hnew⟩, hleast⟩ := (measure shape.seq).wf.has_min
    { m | ∃ s, m ∈ shape.chain node s } ⟨m, send, hm⟩
  refine ⟨new, send', hnew, fun s m' hm' => ?_⟩
  exact not_lt.mp (hleast m' ⟨s, hm'⟩)

namespace Shape

variable {new : ℕ} {send' : Bool} (hvalid : shape.Valid counter)
    (ht : t ∈ shape.chain t send)
    (hnew : new ∈ (shape.unchain t t send).chain t send')

include hvalid ht hnew

/-- The new home of a group held no node. -/
theorem Valid.home_fresh : new ∉ shape.nodes := by
  obtain ⟨hold, hne⟩ := (hvalid.toSound.mem_unchain ht).mp hnew
  intro hmem
  obtain ⟨s, hself⟩ := hvalid.home new hmem
  exact hne (hvalid.apart t send' new hold new s hself).1

theorem Valid.moved_key {n : ℕ} (hn : n ∈ shape.nodes) (hne : n ≠ t) :
    ((shape.unchain t t send).moved t new).key n = shape.key n := by
  have hnew' : n ≠ new := fun heq => hvalid.home_fresh ht hnew (heq ▸ hn)
  simp [key, moved, rehome, hne, rename_of_ne hnew']

/-- The turn of a group that lost its oldest message falls due no earlier. -/
theorem Valid.key_le_moved :
    shape.key t ≤ ((shape.unchain t t send).moved t new).key new := by
  obtain ⟨hold, hne⟩ := (hvalid.toSound.mem_unchain ht).mp hnew
  have hle := hvalid.oldest t send' new hold
  have htaken : ((shape.unchain t t send).moved t new).taken new = shape.taken t := by
    simp [moved, rehome, hne, rename_self]
  have hseq : ((shape.unchain t t send).moved t new).seq new = shape.seq new := rfl
  simp only [key]
  omega

variable (hleast : ∀ s, ∀ m ∈ (shape.unchain t t send).chain t s,
      shape.seq new ≤ shape.seq m)

include hleast

theorem Valid.moved_homed : ((shape.unchain t t send).moved t new).Homed := by
  have hnode : t ∈ (shape.unchain t t send).nodes := hvalid.mem_nodes ht
  apply Homed.moved hnode (hvalid.home_fresh ht hnew) hnew hleast
  · intro n hn hsame
    obtain ⟨s, hself⟩ := hvalid.home n hn
    exact ⟨s, (hvalid.toSound.mem_unchain ht).mpr ⟨hself, hsame⟩⟩
  · intro n hsame s m hm
    exact hvalid.oldest n s m ((hvalid.toSound.mem_unchain ht).mp hm).1

omit hleast in
theorem Valid.moved_sound : ((shape.unchain t t send).moved t new).Sound counter :=
  (hvalid.toSound.unchain ht hvalid.nodes_nodup).moved (hvalid.mem_nodes ht)
    (hvalid.home_fresh ht hnew)

theorem Valid.leaving_moved {nodes : List ℕ}
    (hperm : nodes.Perm ((shape.unchain t t send).moved t new).nodes)
    (hsorted : nodes.Pairwise fun n n' =>
      ((shape.unchain t t send).moved t new).key n <
        ((shape.unchain t t send).moved t new).key n') :
    shape.Leaving { (shape.unchain t t send).moved t new with nodes := nodes } t new
      t send counter where
  sound := (hvalid.moved_sound ht hnew).reorder hperm _
  homed := (hvalid.moved_homed ht hnew hleast).reorder hperm _
  sorted := hsorted
  sending := rfl
  fresh := .inr (hvalid.home_fresh ht hnew)
  nodes _ := hperm.mem_iff.trans
    (mem_moved_nodes (hvalid.mem_nodes ht) (hvalid.home_fresh ht hnew))
  seq := rfl
  chain n hn _ := moved_chain fun heq : n = t =>
    old_not_mem_moved (hvalid.mem_nodes ht) (hvalid.home_fresh ht hnew)
      (heq ▸ hperm.mem_iff.mp hn)
  taken n hn := if_neg fun heq : n = t =>
    old_not_mem_moved (hvalid.mem_nodes ht) (hvalid.home_fresh ht hnew)
      (heq ▸ hperm.mem_iff.mp hn)

end Shape

/-- A group whose oldest message left moves its node to the oldest it has
left, and its turn falls due later. -/
theorem Represents.leaving_move (h : Represents w e (shape.unchain t t send))
    (hvalid : shape.Valid counter) (ht : t ∈ shape.chain t send)
    (hleft : (shape.unchain t t send).count t ≠ 0) :
    ∃ left, shape.Leaving left t (Ipclist.oldest w t) t send counter ∧ Represents
        ((groups e).movedBack (Ipclist.moveNode w e t (Ipclist.oldest w t))
          (Ipclist.waiting (Ipclist.moveNode w e t (Ipclist.oldest w t)) e)
          (Ipclist.oldest w t) key) e left := by
  have hsound := hvalid.toSound.unchain ht hvalid.nodes_nodup
  have hnode := hvalid.mem_nodes ht
  obtain ⟨m, s, hm⟩ : ∃ m s, m ∈ (shape.unchain t t send).chain t s := by
    have hcounts := hsound.counts t
    by_contra hnone
    have hempty : ∀ s, (shape.unchain t t send).chain t s = [] := by
      intro s
      apply eq_nil_iff_forall_not_mem.mpr
      exact fun m hm => hnone ⟨m, s, hm⟩
    rw [hempty, hempty] at hcounts
    exact hleft hcounts
  obtain ⟨new, send', hnew, hleast⟩ := (shape.unchain t t send).exists_oldest hm
  rw [h.oldest hsound hnew hleast]
  have hfresh := hvalid.home_fresh ht hnew
  have hmoved : Represents (Ipclist.moveNode w e t new) e
      ((shape.unchain t t send).moved t new) := by
    apply h.moveNode hnode hfresh ((h.chains t send').ne_zero hnew)
    · exact fun n hn => hvalid.sending_mem hn
    · intro s
      have hcounts := hsound.counts t
      cases s <;> omega
    · exact fun s => hsound.apart t s
  obtain ⟨front, back, hnodes⟩ := append_of_mem hnode
  have hsorted := hvalid.sorted
  have hdistinct := hvalid.nodes_nodup
  rw [hnodes] at hsorted hdistinct
  have hmovedNodes : ((shape.unchain t t send).moved t new).nodes =
      front ++ new :: back := by
    have hmap : ((shape.unchain t t send).moved t new).nodes =
        shape.nodes.map (rename t new) := rfl
    rw [hmap, hnodes, map_rename_middle hdistinct]
  have hkey : ∀ n ∈ front ++ back, ((shape.unchain t t send).moved t new).key n =
      shape.key n := by
    intro n hn
    obtain ⟨hin, hne⟩ := mem_around hnodes hvalid.nodes_nodup hn
    exact hvalid.moved_key ht hnew hin hne
  obtain ⟨hothers, hfront⟩ := pairwise_around hsorted hkey
  have hbefore : ∀ n ∈ front, ((shape.unchain t t send).moved t new).key n <
      ((shape.unchain t t send).moved t new).key new := by
    intro n hn
    exact lt_of_lt_of_le (hfront n hn) (hvalid.key_le_moved ht hnew)
  obtain ⟨nodes, hresult, hperm, horder⟩ := hmoved.resettleGroup
    (hvalid.moved_sound ht hnew) (hvalid.moved_homed ht hnew hleast)
    hmovedNodes hothers hbefore
  exact ⟨_, hvalid.leaving_moved ht hnew hleast hperm horder, hresult⟩

end Move

/-! ## The departure -/

namespace Shape

/-- A shape without `t`: every other message is in the same group, under the
same take, whichever thread holds the group's node. -/
structure Departed (shape after : Shape) (t : ℕ) : Prop where
  seq : after.seq = shape.seq
  queued : ∀ m, after.Queued m ↔ shape.Queued m ∧ m ≠ t
  groups : ∃ old : ℕ → ℕ,
    (∀ n ∈ after.nodes, ∀ s, ∀ m ∈ after.chain n s, m ∈ shape.chain (old n) s) ∧
    (∀ n ∈ after.nodes, after.taken n = shape.taken (old n)) ∧
    ∀ n ∈ after.nodes, ∀ n' ∈ after.nodes, old n = old n' → n = n'

section Sends

variable {shape left : Shape} {node home t counter n : ℕ} {send : Bool}

theorem unchain_chain_of_ne (hne : n ≠ node) (s : Bool) :
    (shape.unchain node t send).chain n s = shape.chain n s :=
  if_neg fun h => hne h.1

theorem unchain_sendKey_of_ne (hne : n ≠ node) :
    (shape.unchain node t send).sendKey n = shape.sendKey n := by
  rw [sendKey, unchain_chain_of_ne hne]
  rfl

/-- The head of the sends stays unless it is the thread that leaves. -/
theorem unchain_head (hkeep : ¬ (send ∧ (shape.chain node true).headD 0 = t)) :
    ((shape.unchain node t send).chain node true).head? =
    (shape.chain node true).head? := by
  cases send with
  | false => simp [unchain, setChain]
  | true =>
    have hchain : (shape.unchain node t true).chain node true =
        (shape.chain node true).erase t := if_pos ⟨rfl, rfl⟩
    rw [hchain]
    cases hsends : shape.chain node true with
    | nil => rfl
    | cons head rest =>
      have hne : head ≠ t := by simpa [hsends] using hkeep
      rw [erase_cons_tail (by simpa using hne)]
      rfl

/-- The next send of a group falls due no earlier than the one that left. -/
theorem Valid.sendKey_le_unchain (h : shape.Valid counter)
    (ht : t ∈ shape.chain node send)
    (hne : (shape.unchain node t send).chain node true ≠ []) :
    shape.sendKey node ≤ (shape.unchain node t send).sendKey node := by
  have hmem := (h.toSound.mem_unchain ht).mp (headD_mem_of_ne_nil hne)
  have hle := h.toSound.head_le hmem.1
  simp only [sendKey, unchain_seq, unchain_taken]
  omega

variable (hvalid : shape.Valid counter)
    (hleaving : shape.Leaving left node home t send counter)

include hleaving

theorem Leaving.sendKey (hn : n ∈ left.nodes) :
    left.sendKey n = (shape.unchain node t send).sendKey (rename home node n) := by
  rw [Shape.sendKey, hleaving.chain n hn, hleaving.taken n hn, hleaving.seq]
  rfl

/-- A node of another group is where it was. -/
theorem Leaving.other (hn : n ∈ shape.nodes) (hne : n ≠ node) :
    n ∈ left.nodes ∧ rename home node n = n := by
  refine ⟨(hleaving.nodes n).mpr (.inr ⟨hn, hne⟩), if_neg ?_⟩
  rintro rfl
  exact hleaving.fresh.elim hne fun hfresh => hfresh hn

theorem Leaving.home_mem : home ∈ left.nodes :=
  (hleaving.nodes home).mpr (.inl rfl)

theorem Leaving.departed (hvalid : shape.Valid counter)
    (ht : t ∈ shape.chain node send) : shape.Departed left t := { hleaving with
  queued m := by
    rw [← hvalid.toSound.unchain_queued ht]
    constructor
    · rintro ⟨n, s, hmem⟩
      have hn := hleaving.sound.mem_nodes hmem
      rw [hleaving.chain n hn] at hmem
      exact ⟨_, s, hmem⟩
    · rintro ⟨n, s, hmem⟩
      by_cases hsame : n = node
      · refine ⟨home, s, ?_⟩
        rw [hleaving.chain home hleaving.home_mem, rename_self]
        exact hsame ▸ hmem
      · have hn := hvalid.mem_nodes ((hvalid.toSound.mem_unchain ht).mp hmem).1
        obtain ⟨hleft, hrename⟩ := hleaving.other hn hsame
        refine ⟨n, s, ?_⟩
        rwa [hleaving.chain n hleft, hrename]
  groups := by
    refine ⟨rename home node, fun n hn s m hm => ?_, hleaving.taken, ?_⟩
    · rw [hleaving.chain n hn] at hm
      exact ((hvalid.toSound.mem_unchain ht).mp hm).1
    · intro n hn n' hn' heq
      have hsame : ∀ x ∈ left.nodes, x = node → x = home := by
        rintro x hx rfl
        exact ((hleaving.nodes x).mp hx).resolve_right fun h => h.2 rfl
      simp only [rename] at heq
      split at heq <;> split at heq
      · next h h' => exact h.trans h'.symm
      · next h h' => exact absurd (hsame n' hn' heq.symm) h'
      · next h h' => exact absurd (hsame n hn heq) h
      · exact heq }

include hvalid

/-- A group whose oldest send stays keeps its place on the send list. -/
theorem Leaving.valid_keep (hkeep : ¬ (send ∧ (shape.chain node true).headD 0 = t)) :
    left.Valid counter := { hleaving with
  toSound := hleaving.sound
  toHomed := hleaving.homed
  listed n := by
    have hhead := unchain_head hkeep
    have hends : (shape.unchain node t send).chain node true = [] ↔
        shape.chain node true = [] := by
      rw [← head?_eq_none_iff, hhead, head?_eq_none_iff]
    rw [hleaving.sending, mem_map]
    constructor
    · rintro ⟨n₀, hn₀, rfl⟩
      have hsends := (hvalid.listed n₀).mp hn₀
      by_cases hsame : n₀ = node
      · subst hsame
        rw [rename_self, hleaving.chain home hleaving.home_mem, rename_self]
        exact fun hempty => hsends (hends.mp hempty)
      · obtain ⟨hleft, hrename⟩ :=
          hleaving.other (hvalid.sending_mem hn₀) hsame
        rw [rename_of_ne hsame, hleaving.chain n₀ hleft, hrename,
          unchain_chain_of_ne hsame]
        exact hsends
    · intro hsends
      have hn := hleaving.sound.mem_nodes (headD_mem_of_ne_nil hsends)
      rw [hleaving.chain n hn] at hsends
      rcases (hleaving.nodes n).mp hn with rfl | ⟨hold, hne⟩
      · rw [rename_self] at hsends
        refine ⟨node, (hvalid.listed node).mpr ?_, rename_self⟩
        exact fun hempty => hsends (hends.mpr hempty)
      · rw [(hleaving.other hold hne).2, unchain_chain_of_ne hne] at hsends
        exact ⟨n, (hvalid.listed n).mpr hsends, rename_of_ne hne⟩
  sendSorted := by
    have hkey : ∀ n ∈ shape.sending, left.sendKey (rename node home n) =
        shape.sendKey n := by
      intro n hn
      by_cases hsame : n = node
      · subst hsame
        have hhead := unchain_head hkeep
        rw [rename_self, hleaving.sendKey hleaving.home_mem, rename_self]
        simp only [Shape.sendKey, unchain_seq, unchain_taken,
          headD_eq_head?_getD, hhead]
      · obtain ⟨hleft, hrename⟩ := hleaving.other (hvalid.sending_mem hn) hsame
        rw [rename_of_ne hsame, hleaving.sendKey hleft, hrename,
          unchain_sendKey_of_ne hsame]
    rw [hleaving.sending, pairwise_map]
    apply hvalid.sendSorted.imp_of_mem
    intro n n' hn hn' hlt
    rwa [hkey n hn, hkey n' hn'] }

end Sends

end Shape

section Dequeue

variable {w : Words} {e node home t counter : ℕ} {send : Bool}
variable {shape left : Shape}

/-- A group whose oldest send left settles on the send list. -/
theorem Represents.leaving_settle (h : Represents w e left)
    (hvalid : shape.Valid counter)
    (hleaving : shape.Leaving left node home t send counter)
    (ht : t ∈ shape.chain node send) (hsend : send = true) :
    ∃ after, Represents (Ipclist.settleSends w e home) e after ∧
      after.Valid counter ∧ shape.Departed after t := by
  have hnode : node ∈ shape.sending := by
    rw [hvalid.listed]
    exact ne_nil_of_mem (hsend ▸ ht)
  obtain ⟨front, back, hsending⟩ := append_of_mem hnode
  have hsorted := hvalid.sendSorted
  have hdistinct := hvalid.sending_nodup
  rw [hsending] at hsorted hdistinct
  have hleft : left.sending = front ++ home :: back := by
    rw [hleaving.sending, hsending, map_rename_middle hdistinct]
  have hother : ∀ n ∈ front ++ back, n ∈ shape.sending ∧ n ≠ node :=
    fun _ => mem_around hsending hvalid.sending_nodup
  have hkey : ∀ n ∈ front ++ back, left.sendKey n = shape.sendKey n := by
    intro n hn
    obtain ⟨hin, hne⟩ := hother n hn
    obtain ⟨hmem, hrename⟩ := hleaving.other (hvalid.sending_mem hin) hne
    rw [hleaving.sendKey hmem, hrename, unchain_sendKey_of_ne hne]
  have hlisted : ∀ n ∈ front ++ back, left.chain n true ≠ [] := by
    intro n hn
    obtain ⟨hin, hne⟩ := hother n hn
    obtain ⟨hmem, hrename⟩ := hleaving.other (hvalid.sending_mem hin) hne
    rw [hleaving.chain n hmem, hrename, unchain_chain_of_ne hne]
    exact (hvalid.listed n).mp hin
  obtain ⟨hothers, hfront⟩ := pairwise_around hsorted hkey
  have hbefore : left.chain home true ≠ [] → ∀ n ∈ front,
      left.sendKey n < left.sendKey home := by
    intro hsends n hn
    rw [hleaving.chain home hleaving.home_mem, rename_self] at hsends
    rw [hleaving.sendKey hleaving.home_mem, rename_self]
    exact lt_of_lt_of_le (hfront n hn) (hvalid.sendKey_le_unchain ht hsends)
  obtain ⟨sending, hresult, hmem, horder⟩ := h.settleSends hleaving.sound
    hleaving.homed hleft hlisted hothers hbefore
  have hdeparted := hleaving.departed hvalid ht
  refine ⟨_, hresult, ?_, ⟨hdeparted.seq, hdeparted.queued, hdeparted.groups⟩⟩
  exact
    { toSound := hleaving.sound.reorder (.refl _) _
      toHomed := hleaving.homed.reorder (.refl _) _
      sorted := hleaving.sorted
      listed := by
        intro n
        rw [hmem]
        constructor
        · rintro (hin | ⟨rfl, hsends⟩)
          · exact hlisted n hin
          · exact hsends
        · intro hsends
          have hn := hleaving.sound.mem_nodes (headD_mem_of_ne_nil hsends)
          rcases (hleaving.nodes n).mp hn with rfl | ⟨hold, hne⟩
          · exact .inr ⟨rfl, hsends⟩
          · left
            simp only [hleaving.chain n hn, (hleaving.other hold hne).2,
              unchain_chain_of_ne hne] at hsends
            have hin := (hvalid.listed n).mpr hsends
            simp only [hsending, mem_append, mem_cons, hne, false_or] at hin
            exact mem_append.mpr hin
      sendSorted := horder }

namespace Shape

/-- The shape of a group whose last message left. -/
def drop (shape : Shape) (node t : ℕ) (send : Bool) : Shape :=
  { shape.unchain node t send with
    nodes := shape.nodes.erase node
    sending := shape.sending.erase node
    taken := Function.update shape.taken node 0 }

variable (hvalid : shape.Valid counter) (ht : t ∈ shape.chain node send)
    (hlast : (shape.unchain node t send).count node = 0)

include hvalid ht hlast

theorem Valid.drop_chain (s : Bool) : (shape.drop node t send).chain node s = [] := by
  have hcounts := (hvalid.toSound.unchain ht hvalid.nodes_nodup).counts node
  apply eq_nil_of_length_eq_zero
  cases s <;> simp only [drop] <;> omega

omit ht hlast in
theorem Valid.mem_drop_nodes {n : ℕ} :
    n ∈ (shape.drop node t send).nodes ↔ n ≠ node ∧ n ∈ shape.nodes :=
  hvalid.nodes_nodup.mem_erase_iff

theorem Valid.drop_sound : (shape.drop node t send).Sound counter := by
  have hsound := hvalid.toSound.unchain ht hvalid.nodes_nodup
  exact
    { idle := by
        intro n hn
        by_cases hsame : n = node
        · subst hsame
          exact ⟨hvalid.drop_chain ht hlast, hlast, update_self ..⟩
        · have hnodes : n ∉ shape.nodes := fun hmem =>
            hn (hvalid.mem_drop_nodes.mpr ⟨hsame, hmem⟩)
          obtain ⟨hchains, hcount, htaken⟩ := hsound.idle n hnodes
          exact ⟨hchains, hcount, (update_of_ne hsame _ _).trans htaken⟩
      apart := hsound.apart
      ordered := hsound.ordered
      counts := hsound.counts
      waiting := by
        have hperm := (perm_cons_erase (hvalid.mem_nodes ht)).map
          (shape.unchain node t send).count
        have hsum := hsound.waiting.trans hperm.sum_eq
        rw [map_cons, sum_cons, hlast, Nat.zero_add] at hsum
        exact hsum
      stamped := hsound.stamped
      unique := hsound.unique
      takes := by
        intro n
        simp only [drop, update_apply]
        split
        · exact Nat.zero_le _
        · exact hvalid.takes n
      takenUnique := by
        intro n n'
        simp only [drop, update_apply]
        split
        · exact fun _ hne => absurd rfl hne
        · split
          · exact fun heq hne => absurd heq hne
          · exact hvalid.takenUnique n n'
      takenApart := by
        intro n m hm
        simp only [drop, update_apply]
        split
        · exact Nat.ne_of_lt (hsound.stamped m hm).1
        · exact hsound.takenApart n m hm }

theorem Valid.drop : (shape.drop node t send).Valid counter where
  toSound := hvalid.drop_sound ht hlast
  home n hn := by
    obtain ⟨hne, hnodes⟩ := hvalid.mem_drop_nodes.mp hn
    obtain ⟨s, hself⟩ := hvalid.home n hnodes
    refine ⟨s, (hvalid.toSound.mem_unchain ht).mpr ⟨hself, ?_⟩⟩
    rintro rfl
    exact hne (hvalid.apart node send n ht n s hself).1
  oldest n s m hm := hvalid.oldest n s m ((hvalid.toSound.mem_unchain ht).mp hm).1
  sorted := by
    apply (hvalid.sorted.sublist erase_sublist).imp_of_mem
    intro n n' hn hn' hlt
    have hne := hvalid.nodes_nodup.mem_erase_iff.mp hn
    have hne' := hvalid.nodes_nodup.mem_erase_iff.mp hn'
    simpa [key, Shape.drop, hne.1, hne'.1] using hlt
  listed n := by
    have hsending : (shape.drop node t send).sending = shape.sending.erase node := rfl
    rw [hsending, hvalid.sending_nodup.mem_erase_iff]
    by_cases hsame : n = node
    · simp [hsame, hvalid.drop_chain ht hlast]
    · have hchain : (shape.drop node t send).chain n true = shape.chain n true :=
        unchain_chain_of_ne hsame true
      simp [hsame, hchain, hvalid.listed]
  sendSorted := by
    apply (hvalid.sendSorted.sublist erase_sublist).imp_of_mem
    intro n n' hn hn' hlt
    have hne := (hvalid.sending_nodup.mem_erase_iff.mp hn).1
    have hne' := (hvalid.sending_nodup.mem_erase_iff.mp hn').1
    have hkey : ∀ x ≠ node, (shape.drop node t send).sendKey x = shape.sendKey x := by
      intro x hx
      have hchain : (shape.drop node t send).chain x true = shape.chain x true :=
        unchain_chain_of_ne hx true
      rw [sendKey, hchain]
      simp [Shape.drop, sendKey, hx]
    rwa [hkey n hne, hkey n' hne']

omit hlast in
theorem Valid.drop_departed : shape.Departed (shape.drop node t send) t where
  seq := rfl
  queued _ := hvalid.toSound.unchain_queued ht
  groups := by
    refine ⟨id, fun n _ s m hm => ((hvalid.toSound.mem_unchain ht).mp hm).1, ?_,
      fun n _ n' _ heq => heq⟩
    intro n hn
    exact update_of_ne (hvalid.mem_drop_nodes.mp hn).1 _ _

end Shape

/-- The thread is off its chain and its endpoint's count; the group's own count
is not written yet. -/
theorem Represents.unlinkMember (h : Represents w e shape)
    (hvalid : shape.Valid counter) (ht : t ∈ shape.chain node send) :
    Represents (unlinkMember w e node t send) e
      { shape.unchain node t send with count := shape.count } := by
  obtain ⟨front, back, hchain, herase⟩ := (h.chains node send).split ht
  have hremoved := h.removeMember hchain (hvalid.apart node send)
  rw [← herase] at hremoved
  have hoff : ∀ node' send',
      t ∉ (shape.setChain node send ((shape.chain node send).erase t)).chain
        node' send' :=
    fun node' send' hmem => ((hvalid.toSound.mem_unchain ht).mp hmem).2 rfl
  exact (hremoved.writeGroup 0 hoff).countDown

theorem Represents.dropGroup (h : Represents w e
      { shape.unchain node t send with count := shape.count })
    (hvalid : shape.Valid counter) (ht : t ∈ shape.chain node send)
    (hlast : (shape.unchain node t send).count node = 0) :
    Represents (dropGroup w e node) e (shape.drop node t send) := by
  have hnode := hvalid.mem_nodes ht
  have hremoved : Represents ((groups e).remove w node) e
      { shape.unchain node t send with
        nodes := shape.nodes.erase node, count := shape.count } :=
    h.removeTurns false hnode
  have hsent :
      Represents (if (sendGroups e).contains ((groups e).remove w node) node then
        (sendGroups e).remove ((groups e).remove w node) node
      else (groups e).remove w node) e
      { shape.unchain node t send with
        nodes := shape.nodes.erase node
        sending := shape.sending.erase node
        count := shape.count } := by
    have hpositive := h.groups.ne_zero hnode
    by_cases hmem : node ∈ shape.sending
    · rw [if_pos ((hremoved.sends_contains hpositive).mpr hmem)]
      exact hremoved.removeTurns true hmem
    · rw [if_neg fun hcontains =>
        hmem ((hremoved.sends_contains hpositive).mp hcontains),
        erase_of_not_mem hmem]
      exact hremoved
  have hcleared := hsent.clearNode hvalid.nodes_nodup.not_mem_erase
    hvalid.sending_nodup.not_mem_erase (hvalid.drop_chain ht hlast)
  have hcount : (shape.unchain node t send).count = update shape.count node 0 := by
    have hzero : shape.count node - 1 = 0 := by
      simpa [unchain] using hlast
    rw [← hzero]
    rfl
  have hdrop : shape.drop node t send =
      { shape.drop node t send with count := update shape.count node 0 } := by
    rw [← hcount]
    rfl
  rw [hdrop]
  exact hcleared

/-- The group's node is at home before its sends settle. -/
theorem Represents.goHome (h : Represents w e (shape.unchain node t send))
    (hvalid : shape.Valid counter) (ht : t ∈ shape.chain node send)
    (hleft : (shape.unchain node t send).count node ≠ 0) :
    ∃ left, shape.Leaving left node (newHome w node t) t send counter ∧
      Represents (goHome w e node t (newHome w node t)) e left := by
  rw [newHome, Ipclist.goHome]
  by_cases hsame : t = node
  · subst hsame
    rw [if_pos rfl, if_pos rfl]
    exact h.leaving_move hvalid ht hleft
  · rw [if_neg hsame, if_neg hsame]
    exact ⟨_, hvalid.leaving_stay ht hsame, h⟩

/-- `dequeue` of a queued thread leaves a valid shape without it. -/
theorem Represents.dequeue (h : Represents w e shape)
    (hvalid : shape.Valid counter) (ht : t ∈ shape.chain node send) :
    ∃ after, Represents (dequeue w e t send) e after ∧ after.Valid counter ∧
      shape.Departed after t := by
  have hgroup : groupOf w t = node := h.named node send t ht
  have hunlinked := h.unlinkMember hvalid ht
  have hleft : count (Ipclist.unlinkMember w e node t send) node - 1 =
      (shape.unchain node t send).count node := by
    rw [count, hunlinked.counted]
    simp [unchain]
  have hfirst : (send && (chain node send).first w == t) = true ↔
      send = true ∧ (shape.chain node true).headD 0 = t := by
    cases send
    · simp
    · rw [(h.chains node true).first]
      simp
  simp only [Ipclist.dequeue, hgroup, hleft]
  by_cases hlast : (shape.unchain node t send).count node = 0
  · rw [if_pos hlast]
    exact ⟨_, hunlinked.dropGroup hvalid ht hlast, hvalid.drop ht hlast,
      hvalid.drop_departed ht⟩
  rw [if_neg hlast]
  have hcounted :
      Represents (write (Ipclist.unlinkMember w e node t send) (.thread node) .gCount
        ((shape.unchain node t send).count node)) e
      (shape.unchain node t send) := by
    have hwritten := hunlinked.writeCount node ((shape.unchain node t send).count node)
    have hcount : update shape.count node ((shape.unchain node t send).count node) =
          (shape.unchain node t send).count := by simp [unchain]
    rw [hcount] at hwritten
    exact hwritten
  obtain ⟨left, hleaving, hrepresents⟩ := hcounted.goHome hvalid ht hlast
  split
  · next hsettle =>
      exact hrepresents.leaving_settle hvalid hleaving ht (hfirst.mp hsettle).1
  · next hkeep =>
      refine ⟨left, hrepresents, ?_, hleaving.departed hvalid ht⟩
      exact hleaving.valid_keep hvalid fun h => hkeep (hfirst.mpr h)

end Dequeue

end Redoubt.Ipclist
