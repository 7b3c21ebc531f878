import Redoubt.Ipc.Edits

/-!
# What an endpoint's lists hold in every run

`Sound` is what holds of the chains at every step of an operation; `Homed` says
that each node is on its group's oldest message; `Valid` adds that both group
lists are in the order their turns fall due.
-/

namespace Redoubt.Ipclist

open Function List Shape

namespace Shape

variable (shape : Shape)

def Queued (m : ℕ) : Prop :=
  ∃ node send, m ∈ shape.chain node send

/-- When the group's turn falls due. -/
def key (node : ℕ) : ℕ :=
  max (shape.seq node) (shape.taken node)

/-- When the group's oldest send falls due. -/
def sendKey (node : ℕ) : ℕ :=
  max (shape.seq ((shape.chain node true).headD 0)) (shape.taken node)

/-- The chains hold distinct threads in arrival order, under distinct numbers up
to the counter, and are counted. -/
structure Sound (counter : ℕ) : Prop where
  idle : ∀ node ∉ shape.nodes, (∀ send, shape.chain node send = []) ∧
    shape.count node = 0 ∧ shape.taken node = 0
  apart : ∀ node send, ∀ m ∈ shape.chain node send, ∀ node' send',
    m ∈ shape.chain node' send' → node' = node ∧ send' = send
  ordered : ∀ node send, (shape.chain node send).Pairwise fun m m' =>
    shape.seq m < shape.seq m'
  counts : ∀ node, shape.count node =
    (shape.chain node true).length + (shape.chain node false).length
  waiting : shape.waiting = (shape.nodes.map shape.count).sum
  stamped : ∀ m, shape.Queued m → 0 < shape.seq m ∧ shape.seq m ≤ counter
  unique : ∀ m m', shape.Queued m → shape.Queued m' →
    shape.seq m = shape.seq m' → m = m'
  takes : ∀ node, shape.taken node ≤ counter
  takenUnique : ∀ node node', shape.taken node = shape.taken node' →
    shape.taken node ≠ 0 → node = node'
  takenApart : ∀ node m, shape.Queued m → shape.taken node ≠ shape.seq m

/-- Every node is on the oldest message of its group. -/
structure Homed : Prop where
  home : ∀ node ∈ shape.nodes, ∃ send, node ∈ shape.chain node send
  oldest : ∀ node send, ∀ m ∈ shape.chain node send, shape.seq node ≤ shape.seq m

/-- The group list is in the order of the groups' turns; the send list holds the
groups with a send, in the order of their oldest sends. -/
structure Valid (counter : ℕ) : Prop extends Sound shape counter, Homed shape where
  sorted : shape.nodes.Pairwise fun n n' => shape.key n < shape.key n'
  listed : ∀ node, node ∈ shape.sending ↔ shape.chain node true ≠ []
  sendSorted : shape.sending.Pairwise fun n n' => shape.sendKey n < shape.sendKey n'

end Shape

section Facts

variable {shape : Shape} {counter : ℕ}

namespace Shape

theorem Homed.queued {node : ℕ} (h : shape.Homed) (hnode : node ∈ shape.nodes) :
    shape.Queued node := by
  obtain ⟨send, hmem⟩ := h.home node hnode
  exact ⟨node, send, hmem⟩

theorem headD_mem_of_ne_nil {members : List ℕ} (hne : members ≠ []) :
    members.headD 0 ∈ members := by
  cases members with
  | nil => exact absurd rfl hne
  | cons head rest => exact mem_cons_self

variable (h : shape.Sound counter)
include h

theorem Sound.mono {later : ℕ} (hle : counter ≤ later) : shape.Sound later :=
  { h with
    stamped := fun m hm => ⟨(h.stamped m hm).1, le_trans (h.stamped m hm).2 hle⟩
    takes := fun node => le_trans (h.takes node) hle }

/-- Two groups' messages are never due at one number. -/
theorem Sound.due_ne {node node' m m' : ℕ} {send send' : Bool} (hne : node ≠ node')
    (hm : m ∈ shape.chain node send) (hm' : m' ∈ shape.chain node' send') :
    max (shape.seq m) (shape.taken node) ≠ max (shape.seq m') (shape.taken node') := by
  have hseq : shape.seq m ≠ shape.seq m' := by
    intro heq
    have hsame := h.unique m m' ⟨node, send, hm⟩ ⟨node', send', hm'⟩ heq
    exact hne (h.apart node' send' m' hm' node send (hsame ▸ hm)).1
  have htaken : shape.taken node = shape.taken node' → shape.taken node = 0 := by
    intro heq
    by_contra hzero
    exact hne (h.takenUnique node node' heq hzero)
  have hleft := h.takenApart node m' ⟨node', send', hm'⟩
  have hright := h.takenApart node' m ⟨node, send, hm⟩
  omega

theorem Sound.due_le {m : ℕ} (hm : shape.Queued m)
    (node : ℕ) : max (shape.seq m) (shape.taken node) ≤ counter :=
  Nat.max_le.mpr ⟨(h.stamped m hm).2, h.takes node⟩

theorem Sound.mem_nodes {node m : ℕ} {send : Bool}
    (hm : m ∈ shape.chain node send) : node ∈ shape.nodes := by
  by_contra hnode
  rw [(h.idle node hnode).1 send] at hm
  exact not_mem_nil hm

theorem Sound.key_le {node : ℕ} (hhome : shape.Homed)
    (hnode : node ∈ shape.nodes) : shape.key node ≤ counter :=
  h.due_le (hhome.queued hnode) node

theorem Sound.key_ne {node node' : ℕ}
    (hhome : shape.Homed) (hne : node ≠ node') (hnode : node ∈ shape.nodes)
    (hnode' : node' ∈ shape.nodes) : shape.key node ≠ shape.key node' := by
  obtain ⟨send, hmem⟩ := hhome.home node hnode
  obtain ⟨send', hmem'⟩ := hhome.home node' hnode'
  exact h.due_ne hne hmem hmem'

theorem Sound.sendKey_le {node : ℕ}
    (hsends : shape.chain node true ≠ []) : shape.sendKey node ≤ counter :=
  h.due_le ⟨node, true, headD_mem_of_ne_nil hsends⟩ node

omit h

theorem Valid.nodes_nodup (h : shape.Valid counter) : shape.nodes.Nodup := by
  apply h.sorted.imp
  rintro n _ hlt rfl
  exact lt_irrefl _ hlt

/-- A group with a send has a message. -/
theorem Valid.sending_mem {node : ℕ} (h : shape.Valid counter)
    (hnode : node ∈ shape.sending) : node ∈ shape.nodes :=
  h.mem_nodes (headD_mem_of_ne_nil ((h.listed node).mp hnode))

theorem Valid.sending_nodup (h : shape.Valid counter) : shape.sending.Nodup := by
  apply h.sendSorted.imp
  rintro n _ hlt rfl
  exact lt_irrefl _ hlt

end Shape

/-! ## The keys in memory -/

/-- The first of a chain arrived before the rest. -/
theorem Shape.Sound.head_le {node m : ℕ} {send : Bool}
    (h : shape.Sound counter) (hm : m ∈ shape.chain node send) :
    shape.seq ((shape.chain node send).headD 0) ≤ shape.seq m := by
  have hordered := h.ordered node send
  cases hchain : shape.chain node send with
  | nil =>
    rw [hchain] at hm
    exact absurd hm not_mem_nil
  | cons head rest =>
    rw [hchain] at hm hordered
    rcases mem_cons.mp hm with rfl | hrest
    · exact le_refl _
    · exact le_of_lt (rel_of_pairwise_cons hordered hrest)

/-- The older head of the two chains is the group's oldest message. -/
theorem Represents.oldest {w : Words} {e node m : ℕ} {send : Bool}
    (h : Represents w e shape) (hsound : shape.Sound counter)
    (hm : m ∈ shape.chain node send)
    (hleast : ∀ send', ∀ m' ∈ shape.chain node send', shape.seq m ≤ shape.seq m') :
    oldest w node = m := by
  have hhead : (shape.chain node send).headD 0 = m := by
    have hmem := headD_mem_of_ne_nil (ne_nil_of_mem hm)
    apply hsound.unique _ _ ⟨node, send, hmem⟩ ⟨node, send, hm⟩
    exact le_antisymm (hsound.head_le hm) (hleast send _ hmem)
  have hpositive : m ≠ 0 := (h.chains node send).ne_zero hm
  have hother : ∀ send', send' ≠ send → shape.chain node send' ≠ [] →
      shape.seq m < shape.seq ((shape.chain node send').headD 0) ∧
        (shape.chain node send').headD 0 ≠ 0 := by
    intro send' hsend hne
    have hmem := headD_mem_of_ne_nil hne
    refine ⟨lt_of_le_of_ne (hleast send' _ hmem) ?_, (h.chains node send').ne_zero hmem⟩
    intro heq
    have hsame := hsound.unique _ _ ⟨node, send, hm⟩ ⟨node, send', hmem⟩ heq
    exact hsend (hsound.apart node send m hm node send' (hsame ▸ hmem)).2
  have hseq : ∀ t, seq w t = shape.seq t := h.arrived
  rw [Ipclist.oldest]
  simp only [h.firstOf, hseq]
  cases send with
  | false =>
    rw [hhead]
    by_cases hsends : shape.chain node true = []
    · simp [hsends]
    · obtain ⟨hlt, hzero⟩ := hother true (by decide) hsends
      rw [if_neg hzero, if_neg hpositive, if_neg (lt_asymm hlt)]
  | true =>
    rw [hhead, if_neg hpositive]
    by_cases hcalls : shape.chain node false = []
    · simp [hcalls]
    · obtain ⟨hlt, hzero⟩ := hother false (by decide) hcalls
      rw [if_neg hzero, if_pos hlt]

theorem Represents.oldest_node {w : Words} {e node : ℕ}
    (h : Represents w e shape) (hsound : shape.Sound counter)
    (hhome : shape.Homed) (hnode : node ∈ shape.nodes) :
    Ipclist.oldest w node = node := by
  obtain ⟨send, hmem⟩ := hhome.home node hnode
  exact h.oldest hsound hmem (hhome.oldest node)

theorem Represents.key_eq {w : Words} {e node : ℕ} (h : Represents w e shape)
    (hsound : shape.Sound counter) (hhome : shape.Homed)
    (hnode : node ∈ shape.nodes) : key w node = shape.key node := by
  rw [key, h.oldest_node hsound hhome hnode, h.taken, seq, h.arrived]
  rfl

theorem Represents.sendKey_eq {w : Words} {e : ℕ} (h : Represents w e shape)
    (node : ℕ) : sendKey w node = shape.sendKey node := by
  rw [sendKey, h.firstOf, h.taken, seq, h.arrived]
  rfl

end Facts

/-! ## Arrivals -/

namespace Shape

/-- Thread `t` joins a chain of `node` at `number`; the node is new if it is not
on the group list. -/
def arrive (shape : Shape) (node t : ℕ) (send : Bool) (number : ℕ) : Shape where
  nodes := if node ∈ shape.nodes then shape.nodes else shape.nodes ++ [node]
  sending :=
    if send ∧ shape.chain node true = [] then shape.sending ++ [node]
    else shape.sending
  chain := (shape.setChain node send (shape.chain node send ++ [t])).chain
  count := Function.update shape.count node (shape.count node + 1)
  taken := shape.taken
  seq := Function.update shape.seq t number
  waiting := shape.waiting + 1

end Shape

section Arrive

variable {w : Words} {e node t number counter : ℕ} {send : Bool} {shape : Shape}

namespace Shape

theorem mem_arrive_chain {m node' : ℕ} {send' : Bool} :
    m ∈ (shape.arrive node t send number).chain node' send' ↔
      m ∈ shape.chain node' send' ∨ (m = t ∧ node' = node ∧ send' = send) := by
  simp only [arrive, setChain]
  split
  · next hsame => simp [hsame]
  · next hother => simp [hother]

theorem arrive_queued {m : ℕ} :
    (shape.arrive node t send number).Queued m ↔ shape.Queued m ∨ m = t := by
  simp only [Queued, mem_arrive_chain]
  constructor
  · rintro ⟨node', send', hmem | ⟨rfl, -, -⟩⟩
    · exact .inl ⟨node', send', hmem⟩
    · exact .inr rfl
  · rintro (⟨node', send', hmem⟩ | rfl)
    · exact ⟨node', send', .inl hmem⟩
    · exact ⟨node, send, .inr ⟨rfl, rfl, rfl⟩⟩

theorem arrive_seq_of_queued {m : ℕ} (hnew : ¬ shape.Queued t)
    (hm : shape.Queued m) : (shape.arrive node t send number).seq m = shape.seq m :=
  update_of_ne (fun heq : m = t => hnew (heq ▸ hm)) _ _

theorem arrive_seq_self : (shape.arrive node t send number).seq t = number :=
  update_self ..

theorem mem_arrive_nodes {node' : ℕ} : node' ∈ (shape.arrive node t send number).nodes ↔
      node' ∈ shape.nodes ∨ node' = node := by
  simp only [arrive]
  split
  · next hmem =>
      constructor
      · exact .inl
      · rintro (h | rfl)
        · exact h
        · exact hmem
  · simp

/-- One entry of a sum changes. -/
theorem sum_map_update {nodes : List ℕ} {f : ℕ → ℕ} {value : ℕ}
    (hdistinct : nodes.Nodup) (hmem : node ∈ nodes) :
    (nodes.map (update f node value)).sum + f node = (nodes.map f).sum + value := by
  obtain ⟨front, back, rfl⟩ := append_of_mem hmem
  rw [nodup_middle, nodup_cons, mem_append, not_or] at hdistinct
  have hsame : ∀ rest : List ℕ, node ∉ rest →
      rest.map (update f node value) = rest.map f := by
    intro rest hrest
    apply map_congr_left
    intro x hx
    exact update_of_ne (fun heq : x = node => hrest (heq ▸ hx)) _ _
  simp only [map_append, map_cons, sum_append, sum_cons,
    hsame front hdistinct.1.1, hsame back hdistinct.1.2, update_self]
  omega

variable (hvalid : shape.Valid counter) (hnew : ¬ shape.Queued t)
    (hnumber : counter < number) (hnode : node ∈ shape.nodes ∨ node = t)

include hvalid hnew hnumber hnode

theorem Valid.arrive_sound : (shape.arrive node t send number).Sound number :=
  { hvalid with
  idle node' hnode' := by
    rw [mem_arrive_nodes, not_or] at hnode'
    obtain ⟨hchains, hcount, htaken⟩ := hvalid.idle node' hnode'.1
    refine ⟨fun send' => ?_, ?_, htaken⟩
    · simp [arrive, setChain, hnode'.2, hchains]
    · exact (update_of_ne hnode'.2 _ _).trans hcount
  apart node' send' m hm node'' send'' hm' := by
    rw [mem_arrive_chain] at hm hm'
    rcases hm with hm | ⟨rfl, rfl, rfl⟩ <;>
      rcases hm' with hm' | ⟨heq, rfl, rfl⟩
    · exact hvalid.apart node' send' m hm node'' send'' hm'
    · exact absurd ⟨node', send', heq ▸ hm⟩ hnew
    · exact absurd ⟨node'', send'', hm'⟩ hnew
    · exact ⟨rfl, rfl⟩
  ordered node' send' := by
    have hold : (shape.chain node' send').Pairwise fun m m' =>
        (shape.arrive node t send number).seq m <
          (shape.arrive node t send number).seq m' := by
      apply (hvalid.ordered node' send').imp_of_mem
      intro m m' hm hm' hlt
      rwa [arrive_seq_of_queued hnew ⟨node', send', hm⟩,
        arrive_seq_of_queued hnew ⟨node', send', hm'⟩]
    by_cases hsame : node' = node ∧ send' = send
    · obtain ⟨rfl, rfl⟩ := hsame
      have hchain : (shape.arrive node' t send' number).chain node' send' =
          shape.chain node' send' ++ [t] := by simp [arrive, setChain]
      rw [hchain, pairwise_append]
      refine ⟨hold, pairwise_singleton _ _, ?_⟩
      intro m hm m' hm'
      rw [mem_singleton.mp hm', arrive_seq_self,
        arrive_seq_of_queued hnew ⟨node', send', hm⟩]
      exact Nat.lt_of_le_of_lt (hvalid.stamped m ⟨node', send', hm⟩).2 hnumber
    · have hchain : (shape.arrive node t send number).chain node' send' =
          shape.chain node' send' := by simp [arrive, setChain, hsame]
      rw [hchain]
      exact hold
  counts node' := by
    have hcounts := hvalid.counts node'
    by_cases hsame : node' = node
    · subst hsame
      cases send <;> simp [arrive, setChain] <;> omega
    · simp [arrive, setChain, hsame, hcounts]
  waiting := by
    have hwaiting := hvalid.waiting
    by_cases hmem : node ∈ shape.nodes
    · have hsum :
          (shape.nodes.map (update shape.count node (shape.count node + 1))).sum +
          shape.count node = (shape.nodes.map shape.count).sum +
          (shape.count node + 1) :=
        sum_map_update hvalid.nodes_nodup hmem
      simp only [arrive, hmem, if_true]
      omega
    · have hidle := (hvalid.idle node hmem).2.1
      have hsame : shape.nodes.map (update shape.count node 1) =
          shape.nodes.map shape.count := by
        apply map_congr_left
        intro x hx
        exact update_of_ne (fun heq : x = node => hmem (heq ▸ hx)) _ _
      simp [arrive, hmem, hidle, hsame, hwaiting]
  stamped m hm := by
    rcases arrive_queued.mp hm with hold | rfl
    · rw [arrive_seq_of_queued hnew hold]
      have hstamped := hvalid.stamped m hold
      exact ⟨hstamped.1, Nat.le_of_lt (Nat.lt_of_le_of_lt hstamped.2 hnumber)⟩
    · rw [arrive_seq_self]
      exact ⟨Nat.lt_of_le_of_lt (Nat.zero_le _) hnumber, Nat.le_refl _⟩
  unique m m' hm hm' := by
    have hbound := fun m hm => (hvalid.stamped m hm).2
    rcases arrive_queued.mp hm with hold | rfl <;>
      rcases arrive_queued.mp hm' with hold' | rfl
    · rw [arrive_seq_of_queued hnew hold, arrive_seq_of_queued hnew hold']
      exact hvalid.unique m m' hold hold'
    · rw [arrive_seq_of_queued hnew hold, arrive_seq_self]
      have hle := hbound m hold
      omega
    · rw [arrive_seq_of_queued hnew hold', arrive_seq_self]
      have hle := hbound m' hold'
      omega
    · exact fun _ => rfl
  takes node' := Nat.le_of_lt (Nat.lt_of_le_of_lt (hvalid.takes node') hnumber)
  takenApart node' m hm := by
    rcases arrive_queued.mp hm with hold | rfl
    · rw [arrive_seq_of_queued hnew hold]
      exact hvalid.takenApart node' m hold
    · rw [arrive_seq_self]
      exact Nat.ne_of_lt (Nat.lt_of_le_of_lt (hvalid.takes node') hnumber) }

theorem Valid.arrive_homed : (shape.arrive node t send number).Homed where
  home node' hnode' := by
    rcases mem_arrive_nodes.mp hnode' with hold | rfl
    · obtain ⟨send', hmem⟩ := hvalid.home node' hold
      exact ⟨send', mem_arrive_chain.mpr (.inl hmem)⟩
    · rcases hnode with hold | rfl
      · obtain ⟨send', hmem⟩ := hvalid.home node' hold
        exact ⟨send', mem_arrive_chain.mpr (.inl hmem)⟩
      · exact ⟨send, mem_arrive_chain.mpr (.inr ⟨rfl, rfl, rfl⟩)⟩
  oldest node' send' m hm := by
    rcases mem_arrive_chain.mp hm with hold | ⟨rfl, rfl, rfl⟩
    · have hqueued := hvalid.queued (hvalid.mem_nodes hold)
      rw [arrive_seq_of_queued hnew hqueued,
        arrive_seq_of_queued hnew ⟨node', send', hold⟩]
      exact hvalid.oldest node' send' m hold
    · rw [arrive_seq_self]
      rcases hnode with hold | rfl
      · have hqueued := hvalid.queued hold
        rw [arrive_seq_of_queued hnew hqueued]
        exact le_of_lt (lt_of_le_of_lt (hvalid.stamped _ hqueued).2 hnumber)
      · exact le_of_eq arrive_seq_self

theorem Valid.arrive_sorted :
    (shape.arrive node t send number).nodes.Pairwise fun n n' =>
      (shape.arrive node t send number).key n <
      (shape.arrive node t send number).key n' := by
  have hkey : ∀ n ∈ shape.nodes, (shape.arrive node t send number).key n =
      shape.key n := by
    intro n hn
    rw [key, arrive_seq_of_queued hnew (hvalid.queued hn)]
    rfl
  have hold : shape.nodes.Pairwise fun n n' =>
      (shape.arrive node t send number).key n <
        (shape.arrive node t send number).key n' := by
    apply hvalid.sorted.imp_of_mem
    intro n n' hn hn' hlt
    rwa [hkey n hn, hkey n' hn']
  by_cases hmem : node ∈ shape.nodes
  · have hnodes : (shape.arrive node t send number).nodes = shape.nodes :=
      if_pos hmem
    rw [hnodes]
    exact hold
  · -- a new group's turn falls due after every other
    have hnodes : (shape.arrive node t send number).nodes = shape.nodes ++ [node] :=
      if_neg hmem
    obtain rfl : node = t := hnode.resolve_left hmem
    rw [hnodes, pairwise_append]
    refine ⟨hold, pairwise_singleton _ _, ?_⟩
    intro n hn n' hn'
    rw [mem_singleton.mp hn', hkey n hn]
    apply lt_of_le_of_lt (hvalid.key_le hvalid.toHomed hn)
    rw [key, arrive_seq_self]
    exact lt_of_lt_of_le hnumber (le_max_left _ _)

omit hnew hnumber hnode in
theorem Valid.arrive_listed (node' : ℕ) :
    node' ∈ (shape.arrive node t send number).sending ↔
      (shape.arrive node t send number).chain node' true ≠ [] := by
  have hlisted := hvalid.listed node'
  by_cases hsame : node' = node
  · subst hsame
    cases send with
    | false => simpa [arrive, setChain] using hlisted
    | true =>
      by_cases hempty : shape.chain node' true = []
      · simp [arrive, setChain, hempty]
      · simpa [arrive, setChain, hempty] using hlisted
  · have hchain : (shape.arrive node t send number).chain node' true =
        shape.chain node' true := by simp [arrive, setChain, hsame]
    rw [hchain, ← hlisted]
    simp only [arrive]
    split <;> simp [hsame]

theorem Valid.arrive_sendSorted :
    (shape.arrive node t send number).sending.Pairwise fun n n' =>
      (shape.arrive node t send number).sendKey n <
        (shape.arrive node t send number).sendKey n' := by
  have hkey : ∀ n ∈ shape.sending,
      (shape.arrive node t send number).sendKey n = shape.sendKey n := by
    intro n hn
    have hne := (hvalid.listed n).mp hn
    have hhead : ((shape.arrive node t send number).chain n true).headD 0 =
        (shape.chain n true).headD 0 := by
      cases hchain : shape.chain n true with
      | nil => exact absurd hchain hne
      | cons head rest =>
        simp only [arrive, setChain]
        split
        · next hsame =>
            obtain ⟨rfl, rfl⟩ := hsame
            rw [hchain]
            rfl
        · rw [hchain]
    rw [sendKey, hhead, arrive_seq_of_queued hnew ⟨n, true, headD_mem_of_ne_nil hne⟩]
    rfl
  have hold : shape.sending.Pairwise fun n n' =>
      (shape.arrive node t send number).sendKey n <
        (shape.arrive node t send number).sendKey n' := by
    apply hvalid.sendSorted.imp_of_mem
    intro n n' hn hn' hlt
    rwa [hkey n hn, hkey n' hn']
  by_cases hfirst : send ∧ shape.chain node true = []
  · -- a group's first send falls due after every other
    have hsending : (shape.arrive node t send number).sending =
        shape.sending ++ [node] := if_pos hfirst
    have hhead : ((shape.arrive node t send number).chain node true).headD 0 = t := by
      simp [arrive, setChain, hfirst.1, hfirst.2]
    rw [hsending, pairwise_append]
    refine ⟨hold, pairwise_singleton _ _, ?_⟩
    intro n hn n' hn'
    rw [mem_singleton.mp hn', hkey n hn]
    apply lt_of_le_of_lt (hvalid.sendKey_le ((hvalid.listed n).mp hn))
    rw [sendKey, hhead, arrive_seq_self]
    exact lt_of_lt_of_le hnumber (le_max_left _ _)
  · have hsending : (shape.arrive node t send number).sending = shape.sending :=
      if_neg hfirst
    rw [hsending]
    exact hold

theorem Valid.arrive : (shape.arrive node t send number).Valid number where
  toSound := hvalid.arrive_sound hnew hnumber hnode
  toHomed := hvalid.arrive_homed hnew hnumber hnode
  sorted := hvalid.arrive_sorted hnew hnumber hnode
  listed := hvalid.arrive_listed
  sendSorted := hvalid.arrive_sendSorted hnew hnumber hnode

end Shape

/-- The new node of an arrival in no group. -/
theorem Represents.newGroup (h : Represents w e shape) (ht : t ≠ 0)
    (hnodes : t ∉ shape.nodes) (hsending : t ∉ shape.sending)
    (hidle : (∀ send, shape.chain t send = []) ∧ shape.count t = 0 ∧
      shape.taken t = 0) :
    Represents ((IpcList.groups e).pushBack (Ipclist.clearNode w t) t) e
      { shape with nodes := shape.nodes ++ [t] } := by
  obtain ⟨hchains, hcount, htaken⟩ := hidle
  have hcleared := h.clearNode hnodes hsending hchains
  rw [update_eq_self_iff.mpr hcount.symm,
    update_eq_self_iff.mpr htaken.symm] at hcleared
  exact hcleared.pushTurns false ht hnodes

/-- A group whose first send arrives joins the send list. -/
theorem Represents.joinSends (send : Bool) (h : Represents w e shape) (hnode : node ≠ 0)
    (hlisted : shape.chain node true = [] → node ∉ shape.sending) :
    Represents (if send && (IpcList.chain node send).isEmpty w then
        (IpcList.sendGroups e).pushBack w node
      else w) e
      { shape with
        sending :=
          if send ∧ shape.chain node true = [] then shape.sending ++ [node]
          else shape.sending } := by
  rw [h.chain_isEmpty]
  cases send with
  | false => simpa using h
  | true =>
    by_cases hempty : shape.chain node true = []
    · simpa [hempty, turnList, Shape.setTurns, Shape.turns] using h.pushTurns true hnode
        (hlisted hempty)
    · simpa [hempty] using h

theorem Represents.joinGroup (h : Represents w e shape) (ht : t ≠ 0)
    (hnode : node ≠ 0) (hoff : ∀ node' send', t ∉ shape.chain node' send')
    (hapart : ∀ m ∈ shape.chain node send, ∀ node' send',
      m ∈ shape.chain node' send' → node' = node ∧ send' = send)
    (hlisted : shape.chain node true = [] → node ∉ shape.sending) :
    Represents (joinGroup w e node t send) e
      { shape with
        sending :=
          if send ∧ shape.chain node true = [] then shape.sending ++ [node]
          else shape.sending
        chain := (shape.setChain node send (shape.chain node send ++ [t])).chain
        count := update shape.count node (shape.count node + 1)
        waiting := shape.waiting + 1 } := by
  have hsent := (h.writeGroup node hoff).joinSends send hnode hlisted
  have hchained := hsent.pushMember ht hoff ?_ hapart
  · have hcount : count _ node = shape.count node := hchained.counted node
    simp only [Ipclist.joinGroup, hcount]
    exact (hchained.writeCount node (shape.count node + 1)).countUp
  · split
    · rw [IpcList.pushBack_unused _ _ (sends_unused (by decide)) rfl, write_same]
    · rw [write_same]

/-- `enqueue` in the group of a node, or in a new one for `none`. -/
theorem Represents.enqueue {joined : Option ℕ} (h : Represents w e shape)
    (hvalid : shape.Valid counter) (ht : t ≠ 0) (hnew : ¬ shape.Queued t)
    (hjoined : ∀ node, joined = some node → node ∈ shape.nodes) :
    Represents (enqueue w e joined t send number) e
      (shape.arrive (joined.getD t) t send number) := by
  have hoff : ∀ node' send', t ∉ shape.chain node' send' :=
    fun node' send' hmem => hnew ⟨node', send', hmem⟩
  have hlisted : ∀ node, shape.chain node true = [] → node ∉ shape.sending :=
    fun node hempty hmem => (hvalid.listed node).mp hmem hempty
  have harrived := h.writeSeq t number
  cases joined with
  | some node =>
    have hnode := hjoined node rfl
    have hjoin := harrived.joinGroup ht (h.groups.ne_zero hnode)
      hoff (hvalid.apart node send) (hlisted node)
    simpa [Ipclist.enqueue, arrive, hnode, setChain] using hjoin
  | none =>
    have hnode : t ∉ shape.nodes := fun hmem => hnew (hvalid.queued hmem)
    have hidle := hvalid.idle t hnode
    have hplaced := harrived.newGroup ht hnode (hlisted t (hidle.1 true)) hidle
    have hjoin := hplaced.joinGroup ht ht hoff (hvalid.apart t send) (hlisted t)
    simpa [Ipclist.enqueue, arrive, hnode, setChain] using hjoin

end Arrive

end Redoubt.Ipclist
