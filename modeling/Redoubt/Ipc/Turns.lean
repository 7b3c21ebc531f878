import Redoubt.Ipc.Order

/-!
# Turns and departures

A group that has its turn goes last on both lists.  A message that leaves takes
its thread off its chain; a group whose node was on that message moves to its
new oldest one, and a group with no message left goes.
-/

namespace Redoubt.Ipclist

open Function List

/-! ## Turns -/

namespace Shape

def turn (shape : Shape) (node now : ℕ) : Shape :=
  { shape with
    nodes := shape.nodes.erase node ++ [node]
    sending :=
      if node ∈ shape.sending then shape.sending.erase node ++ [node]
      else shape.sending
    taken := Function.update shape.taken node now }

end Shape

section Turn

variable {w : Words} {e node t now counter : ℕ} {shape : Shape}

namespace Shape

theorem mem_turn_nodes {n : ℕ} (hnode : node ∈ shape.nodes) :
    n ∈ (shape.turn node now).nodes ↔ n ∈ shape.nodes := by
  simp only [turn, mem_append, mem_singleton]
  constructor
  · rintro (hmem | rfl)
    · exact mem_of_mem_erase hmem
    · exact hnode
  · intro hmem
    by_cases hsame : n = node
    · exact .inr hsame
    · exact .inl ((mem_erase_of_ne hsame).mpr hmem)

theorem mem_turn_sending {n : ℕ} :
    n ∈ (shape.turn node now).sending ↔ n ∈ shape.sending := by
  simp only [turn]
  split
  · next hmem =>
      by_cases hsame : n = node
      · simp [hsame, hmem]
      · simp [hsame]
  · rfl

/-- A list in the order of its keys stays so when one member's key rises above
all and it goes last. -/
theorem pairwise_erase_last {nodes : List ℕ} {key key' : ℕ → ℕ}
    (hsorted : nodes.Pairwise fun n n' => key n < key n')
    (hother : ∀ n ≠ node, key' n = key n)
    (hlast : ∀ n ∈ nodes, key n < key' node) :
    (nodes.erase node ++ [node]).Pairwise fun n n' => key' n < key' n' := by
  have hdistinct : nodes.Nodup := by
    apply hsorted.imp
    rintro n _ hlt rfl
    exact lt_irrefl _ hlt
  have hne : ∀ n ∈ nodes.erase node, n ≠ node := by
    rintro n hn rfl
    exact hdistinct.not_mem_erase hn
  rw [pairwise_append]
  refine ⟨?_, pairwise_singleton _ _, ?_⟩
  · apply (hsorted.sublist erase_sublist).imp_of_mem
    intro n n' hn hn' hlt
    rwa [hother n (hne n hn), hother n' (hne n' hn')]
  · intro n hn n' hn'
    rw [mem_singleton.mp hn', hother n (hne n hn)]
    exact hlast n (mem_of_mem_erase hn)

variable (hvalid : shape.Valid counter) (hnode : node ∈ shape.nodes)
    (hnow : counter < now)

include hvalid hnode hnow

theorem Valid.turn_sound : (shape.turn node now).Sound now := { hvalid with
  idle n hn := by
    rw [mem_turn_nodes hnode] at hn
    have hne : n ≠ node := fun heq => hn (heq ▸ hnode)
    obtain ⟨hchains, hcount, htaken⟩ := hvalid.idle n hn
    exact ⟨hchains, hcount, (update_of_ne hne _ _).trans htaken⟩
  waiting := by
    have hperm : (shape.nodes.erase node ++ [node]).Perm shape.nodes :=
      (perm_append_singleton _ _).trans (perm_cons_erase hnode).symm
    exact hvalid.waiting.trans (hperm.map shape.count).sum_eq.symm
  stamped := ((hvalid.toSound.mono (le_of_lt hnow)).stamped ·)
  takes n := by
    by_cases hsame : n = node
    · exact le_of_eq (hsame ▸ update_self ..)
    · have htaken := hvalid.takes n
      simp only [turn, update_of_ne hsame]
      omega
  takenUnique n n' := by
    have hbound := hvalid.takes
    simp only [turn, update_apply]
    split <;> split
    · next hsame hsame' => exact fun _ _ => hsame.trans hsame'.symm
    · have hle := hbound n'
      omega
    · have hle := hbound n
      omega
    · exact hvalid.takenUnique n n'
  takenApart n m hm := by
    by_cases hsame : n = node
    · have hle := (hvalid.stamped m hm).2
      simp only [turn, hsame, update_self]
      omega
    · simp only [turn, update_of_ne hsame]
      exact hvalid.takenApart n m hm }

theorem Valid.turn : (shape.turn node now).Valid now := { hvalid with
  toSound := hvalid.turn_sound hnode hnow
  home n hn := hvalid.home n ((mem_turn_nodes hnode).mp hn)
  sorted := by
    apply pairwise_erase_last hvalid.sorted
    · intro n hne
      simp [key, Shape.turn, update_of_ne hne]
    · intro n hn
      have hle := hvalid.key_le hvalid.toHomed hn
      simp only [key, Shape.turn, update_self] at hle ⊢
      omega
  listed n := mem_turn_sending.trans (hvalid.listed n)
  sendSorted := by
    have hother : ∀ n ≠ node, (shape.turn node now).sendKey n = shape.sendKey n := by
      intro n hne
      simp [sendKey, Shape.turn, update_of_ne hne]
    by_cases hmem : node ∈ shape.sending
    · have hsending : (shape.turn node now).sending =
          shape.sending.erase node ++ [node] := if_pos hmem
      rw [hsending]
      apply pairwise_erase_last hvalid.sendSorted hother
      intro n hn
      have hle := hvalid.sendKey_le ((hvalid.listed n).mp hn)
      simp only [sendKey, Shape.turn, update_self] at hle ⊢
      omega
    · have hsending : (shape.turn node now).sending = shape.sending := if_neg hmem
      rw [hsending]
      apply hvalid.sendSorted.imp_of_mem
      intro n n' hn hn' hlt
      rwa [hother n fun heq => hmem (heq ▸ hn), hother n' fun heq => hmem (heq ▸ hn')] }

end Shape

theorem Represents.served {send : Bool} (h : Represents w e shape)
    (hvalid : shape.Valid counter) (ht : t ∈ shape.chain node send) :
    Represents (served w e t now) e (shape.turn node now) := by
  have hnode := hvalid.mem_nodes ht
  have hgroup : groupOf w t = node := h.named node send t ht
  have hturned : Represents (requeue (IpcList.groups e) _ node) e _ :=
    (h.writeTaken node now).requeueTurns false hnode
  simp only [Ipclist.served, hgroup]
  by_cases hmem : node ∈ shape.sending
  · have hsent := hturned.requeueTurns true hmem
    simpa [Shape.turn, hmem, turnList, Shape.setTurns, Shape.turns] using hsent
  · rw [Represents.requeueSends_of_not_mem hturned (h.groups.ne_zero hnode) hmem]
    simpa [Shape.turn, hmem, Shape.setTurns, Shape.turns] using hturned

end Turn

/-! ## Departures -/

namespace Shape

def unchain (shape : Shape) (node t : ℕ) (send : Bool) : Shape :=
  { shape with
    chain := (shape.setChain node send ((shape.chain node send).erase t)).chain
    count := Function.update shape.count node (shape.count node - 1)
    waiting := shape.waiting - 1 }

section Unchain

variable {shape : Shape} {node t counter : ℕ} {send : Bool}

@[simp]
theorem unchain_nodes : (shape.unchain node t send).nodes = shape.nodes := rfl

@[simp]
theorem unchain_seq : (shape.unchain node t send).seq = shape.seq := rfl

@[simp]
theorem unchain_taken : (shape.unchain node t send).taken = shape.taken := rfl

theorem Sound.chain_nodup (h : shape.Sound counter) (node : ℕ) (send : Bool) :
    (shape.chain node send).Nodup := by
  apply (h.ordered node send).imp
  rintro m _ hlt rfl
  exact lt_irrefl _ hlt

variable (h : shape.Sound counter) (ht : t ∈ shape.chain node send)

include h ht

theorem Sound.mem_unchain {m node' : ℕ} {send' : Bool} :
    m ∈ (shape.unchain node t send).chain node' send' ↔
      m ∈ shape.chain node' send' ∧ m ≠ t := by
  simp only [unchain, setChain]
  split
  · next hsame =>
      obtain ⟨rfl, rfl⟩ := hsame
      rw [(h.chain_nodup node' send').mem_erase_iff, and_comm]
  · next hother =>
      constructor
      · intro hmem
        refine ⟨hmem, ?_⟩
        rintro rfl
        exact hother (h.apart node send m ht node' send' hmem)
      · exact And.left

theorem Sound.unchain_queued {m : ℕ} :
    (shape.unchain node t send).Queued m ↔ shape.Queued m ∧ m ≠ t := by
  simp only [Queued, h.mem_unchain ht]
  constructor
  · rintro ⟨node', send', hmem, hne⟩
    exact ⟨⟨node', send', hmem⟩, hne⟩
  · rintro ⟨⟨node', send', hmem⟩, hne⟩
    exact ⟨node', send', hmem, hne⟩

theorem Sound.count_pos : 0 < shape.count node := by
  rw [h.counts]
  have hlength := length_pos_of_mem ht
  cases send <;> omega

theorem Sound.unchain (hdistinct : shape.nodes.Nodup) :
    (shape.unchain node t send).Sound counter := { h with
  idle n hn := by
    have hne : n ≠ node := by
      rintro rfl
      exact hn (h.mem_nodes ht)
    obtain ⟨hchains, hcount, htaken⟩ := h.idle n hn
    refine ⟨fun send' => ?_, ?_, htaken⟩
    · simp [Shape.unchain, setChain, hne, hchains]
    · exact (update_of_ne hne _ _).trans hcount
  apart n s m hm n' s' hm' :=
    h.apart n s m ((h.mem_unchain ht).mp hm).1 n' s' ((h.mem_unchain ht).mp hm').1
  ordered n s := by
    simp only [Shape.unchain, setChain]
    split
    · exact (h.ordered node send).sublist erase_sublist
    · exact h.ordered n s
  counts n := by
    have hcounts := h.counts n
    by_cases hsame : n = node
    · subst hsame
      have hlength := length_pos_of_mem ht
      cases send <;>
        simp [Shape.unchain, setChain, length_erase_of_mem ht] <;> omega
    · simp [Shape.unchain, setChain, hsame, hcounts]
  waiting := by
    have hsum :
        ((shape.nodes.map (update shape.count node (shape.count node - 1))).sum) +
        shape.count node = (shape.nodes.map shape.count).sum + (shape.count node - 1) :=
      sum_map_update hdistinct (h.mem_nodes ht)
    have hpositive := h.count_pos ht
    have hwaiting := h.waiting
    simp only [Shape.unchain]
    omega
  stamped m hm := h.stamped m ((h.unchain_queued ht).mp hm).1
  unique m m' hm hm' := h.unique m m' ((h.unchain_queued ht).mp hm).1
    ((h.unchain_queued ht).mp hm').1
  takenApart n m hm := h.takenApart n m ((h.unchain_queued ht).mp hm).1 }

end Unchain

section Moved

variable {shape : Shape} {old new counter : ℕ}

theorem rename_self : rename old new old = new :=
  if_pos rfl

theorem rename_of_ne {node : ℕ} (hne : node ≠ old) : rename old new node = node :=
  if_neg hne

theorem moved_chain {node : ℕ} {send : Bool} (hnode : node ≠ old) :
    (shape.moved old new).chain node send = shape.chain (rename new old node) send :=
  if_neg hnode

theorem moved_chain_old (send : Bool) : (shape.moved old new).chain old send = [] :=
  if_pos rfl

theorem mem_moved_chain {m node : ℕ} {send : Bool} :
    m ∈ (shape.moved old new).chain node send ↔
      node ≠ old ∧ m ∈ shape.chain (rename new old node) send := by
  by_cases hnode : node = old
  · subst hnode
    simp [moved_chain_old]
  · simp [moved_chain hnode, hnode]

theorem moved_queued {m : ℕ} (hm : (shape.moved old new).Queued m) :
    shape.Queued m := by
  obtain ⟨node, send, hmem⟩ := hm
  exact ⟨_, send, (mem_moved_chain.mp hmem).2⟩

/-- Each node of the moved shape stands for one node of the shape. -/
theorem rename_injective {node node' : ℕ} (hnode : node ≠ old)
    (hnode' : node' ≠ old) (heq : rename new old node = rename new old node') :
    node = node' := by
  simp only [rename] at heq
  split at heq <;> split at heq
  · next h h' => exact h.trans h'.symm
  · exact absurd heq.symm hnode'
  · exact absurd heq hnode
  · exact heq

variable (hold : old ∈ shape.nodes) (hnew : new ∉ shape.nodes)

include hold hnew

theorem mem_moved_nodes {node : ℕ} : node ∈ (shape.moved old new).nodes ↔
      node = new ∨ (node ∈ shape.nodes ∧ node ≠ old) := by
  have hnodes : (shape.moved old new).nodes = shape.nodes.map (rename old new) := rfl
  rw [hnodes, mem_map]
  constructor
  · rintro ⟨n, hn, rfl⟩
    by_cases hsame : n = old
    · exact .inl (if_pos hsame)
    · rw [rename_of_ne hsame]
      exact .inr ⟨hn, hsame⟩
  · rintro (rfl | ⟨hn, hne⟩)
    · exact ⟨old, hold, rename_self⟩
    · exact ⟨node, hn, rename_of_ne hne⟩

theorem old_not_mem_moved : old ∉ (shape.moved old new).nodes := by
  rw [mem_moved_nodes hold hnew]
  rintro (rfl | ⟨-, hne⟩)
  · exact hnew hold
  · exact hne rfl

theorem Sound.moved (h : shape.Sound counter) :
    (shape.moved old new).Sound counter where
  idle node hnode := by
    rw [mem_moved_nodes hold hnew, not_or, not_and_or, not_not] at hnode
    by_cases hsame : node = old
    · subst hsame
      exact ⟨moved_chain_old, if_pos rfl, if_pos rfl⟩
    · obtain ⟨hchains, hcount, htaken⟩ :=
        h.idle node (hnode.2.resolve_right hsame)
      have hrename : rename new old node = node := rename_of_ne hnode.1
      refine ⟨fun send => ?_, (if_neg hsame).trans ?_, (if_neg hsame).trans ?_⟩
      · rw [moved_chain hsame, hrename, hchains]
      · rw [hrename, hcount]
      · rw [hrename, htaken]
  apart node send m hm node' send' hm' := by
    obtain ⟨hnode, hm⟩ := mem_moved_chain.mp hm
    obtain ⟨hnode', hm'⟩ := mem_moved_chain.mp hm'
    obtain ⟨heq, hsend⟩ := h.apart _ send m hm _ send' hm'
    exact ⟨rename_injective hnode' hnode heq, hsend⟩
  ordered node send := by
    by_cases hsame : node = old
    · rw [hsame, moved_chain_old]
      exact Pairwise.nil
    · rw [moved_chain hsame]
      exact h.ordered _ send
  counts node := by
    by_cases hsame : node = old
    · subst hsame
      rw [moved_chain_old, moved_chain_old]
      exact if_pos rfl
    · rw [moved_chain hsame, moved_chain hsame, ← h.counts]
      exact if_neg hsame
  waiting := by
    have hmap : (shape.nodes.map (rename old new)).map (shape.moved old new).count =
        shape.nodes.map shape.count := by
      rw [map_map]
      apply map_congr_left
      intro n hn
      have hne : n ≠ new := fun heq => hnew (heq ▸ hn)
      have hdifferent : new ≠ old := fun heq => hnew (heq ▸ hold)
      by_cases hsame : n = old
      · simp [Shape.moved, rehome, rename, hsame, hdifferent]
      · simp [Shape.moved, rehome, rename, hsame, hne]
    exact h.waiting.trans (congrArg List.sum hmap).symm
  stamped m hm := h.stamped m (moved_queued hm)
  unique m m' hm hm' := h.unique m m' (moved_queued hm) (moved_queued hm')
  takes node := by
    by_cases hsame : node = old
    · exact (if_pos hsame).trans_le (Nat.zero_le _)
    · exact (if_neg hsame).trans_le (h.takes _)
  takenUnique node node' := by
    by_cases hsame : node = old
    · exact fun _ hne => absurd (if_pos hsame) hne
    by_cases hsame' : node' = old
    · exact fun heq hne => absurd (heq.trans (if_pos hsame')) hne
    have htaken : (shape.moved old new).taken node = _ := if_neg hsame
    have htaken' : (shape.moved old new).taken node' = _ := if_neg hsame'
    rw [htaken, htaken']
    intro heq hne
    exact rename_injective hsame hsame' (h.takenUnique _ _ heq hne)
  takenApart node m hm := by
    have hqueued := moved_queued hm
    by_cases hsame : node = old
    · have hzero : (shape.moved old new).taken node = 0 := if_pos hsame
      rw [hzero]
      exact Nat.ne_of_lt (h.stamped m hqueued).1
    · have htaken : (shape.moved old new).taken node = _ := if_neg hsame
      rw [htaken]
      exact h.takenApart _ m hqueued

/-- The moved node is on the oldest message of its group. -/
theorem Homed.moved {send : Bool} (hnewMember : new ∈ shape.chain old send)
    (hleast : ∀ send', ∀ m ∈ shape.chain old send', shape.seq new ≤ shape.seq m)
    (hhome : ∀ node ∈ shape.nodes, node ≠ old → ∃ send, node ∈ shape.chain node send)
    (holdest : ∀ node ≠ old, ∀ send, ∀ m ∈ shape.chain node send,
      shape.seq node ≤ shape.seq m) :
    (shape.moved old new).Homed where
  home node hnode := by
    have hne : new ≠ old := fun heq => hnew (heq ▸ hold)
    rcases (mem_moved_nodes hold hnew).mp hnode with rfl | ⟨hmem, hsame⟩
    · refine ⟨send, mem_moved_chain.mpr ⟨hne, ?_⟩⟩
      rwa [rename_self]
    · obtain ⟨send, hself⟩ := hhome node hmem hsame
      refine ⟨send, mem_moved_chain.mpr ⟨hsame, ?_⟩⟩
      rwa [rename_of_ne fun heq : node = new => hnew (heq ▸ hmem)]
  oldest node send m hm := by
    obtain ⟨hsame, hm⟩ := mem_moved_chain.mp hm
    by_cases hnode : node = new
    · subst hnode
      rw [rename_self] at hm
      exact hleast send m hm
    · rw [rename_of_ne hnode] at hm
      exact holdest node hsame send m hm

end Moved

/-! ### Moving a member back among sorted ones -/

/-- In a list sorted by distinct keys, a member whose key rose goes past those
that are now below it. -/
theorem exists_passed {key : ℕ → ℕ} {r : ℕ} {front back : List ℕ}
    (hsorted : (front ++ back).Pairwise fun n n' => key n < key n')
    (hfront : ∀ n ∈ front, key n < key r) (hne : ∀ n ∈ back, key n ≠ key r) :
    ∃ passed above, back = passed ++ above ∧ (∀ n ∈ passed, key n ≤ key r) ∧
      (∀ n, above.head? = some n → key r < key n) ∧
      (front ++ passed ++ r :: above).Pairwise fun n n' => key n < key n' := by
  induction back generalizing front with
  | nil =>
    refine ⟨[], [], rfl, by simp, by simp, ?_⟩
    rw [append_nil] at hsorted
    rw [append_nil, pairwise_append]
    refine ⟨hsorted, pairwise_singleton _ _, ?_⟩
    intro n hn n' hn'
    rw [mem_singleton.mp hn']
    exact hfront n hn
  | cons head rest ih =>
    by_cases habove : key r < key head
    · refine ⟨[], head :: rest, rfl, by simp, by simpa using habove, ?_⟩
      rw [append_nil]
      obtain ⟨hleft, hright, hacross⟩ := pairwise_append.mp hsorted
      have hhead := (pairwise_cons.mp hright).1
      apply pairwise_append.mpr
      refine ⟨hleft, pairwise_cons.mpr ⟨?_, hright⟩, ?_⟩
      · intro n hn
        rcases mem_cons.mp hn with rfl | hrest
        · exact habove
        · exact lt_trans habove (hhead n hrest)
      · intro n hn n' hn'
        rcases mem_cons.mp hn' with rfl | hrest
        · exact hfront n hn
        · exact hacross n hn n' hrest
    · have hle : key head ≤ key r := not_lt.mp habove
      have hlt : key head < key r :=
        lt_of_le_of_ne hle (hne head mem_cons_self)
      have hmoved : ((front ++ [head]) ++ rest).Pairwise fun n n' =>
          key n < key n' := by
        simpa using hsorted
      obtain ⟨passed, above, rfl, hpassed, hhead, hresult⟩ :=
        ih hmoved (by
            intro n hn
            rcases mem_append.mp hn with hold | hself
            · exact hfront n hold
            · exact mem_singleton.mp hself ▸ hlt)
          (fun n hn => hne n (mem_cons_of_mem _ hn))
      refine ⟨head :: passed, above, rfl, ?_, hhead, by simpa using hresult⟩
      intro n hn
      rcases mem_cons.mp hn with rfl | hrest
      · exact hle
      · exact hpassed n hrest

section Reorder

variable {shape : Shape} {counter : ℕ} {nodes sending : List ℕ}

theorem Sound.reorder (h : shape.Sound counter) (hperm : nodes.Perm shape.nodes)
    (sending : List ℕ) :
    { shape with nodes := nodes, sending := sending }.Sound counter :=
  { h with
    idle := fun node hnode => h.idle node fun hmem => hnode (hperm.mem_iff.mpr hmem)
    waiting := h.waiting.trans (hperm.map shape.count).sum_eq.symm }

theorem Homed.reorder (h : shape.Homed) (hperm : nodes.Perm shape.nodes)
    (sending : List ℕ) :
    { shape with nodes := nodes, sending := sending }.Homed :=
  { h with home := fun node hnode => h.home node (hperm.mem_iff.mp hnode) }

/-- Every group has a message, so the count of members bounds the group list. -/
theorem Sound.length_nodes_le (h : shape.Sound counter) (hhome : shape.Homed) :
    shape.nodes.length ≤ shape.waiting := by
  have hbound : ∀ nodes : List ℕ, (∀ n ∈ nodes, n ∈ shape.nodes) →
      nodes.length ≤ (nodes.map shape.count).sum := by
    intro nodes
    induction nodes with
    | nil => simp
    | cons head rest ih =>
      intro hmem
      obtain ⟨send, hself⟩ := hhome.home head (hmem head mem_cons_self)
      have hpositive := h.count_pos hself
      have hrest := ih fun n hn => hmem n (mem_cons_of_mem _ hn)
      simp only [length_cons, map_cons, sum_cons]
      omega
  rw [h.waiting]
  exact hbound shape.nodes fun n hn => hn

theorem Sound.length_sending_le (h : shape.Sound counter) (hhome : shape.Homed)
    (hdistinct : shape.sending.Nodup) (hlisted : ∀ n ∈ shape.sending, n ∈ shape.nodes) :
    shape.sending.length ≤ shape.waiting := by
  have hsubperm := subperm_of_subset hdistinct hlisted
  exact le_trans hsubperm.length_le (h.length_nodes_le hhome)

end Reorder

end Shape

end Redoubt.Ipclist
