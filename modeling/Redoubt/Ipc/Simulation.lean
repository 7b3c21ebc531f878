import Redoubt.Ipc.Departures
import Redoubt.Ipc.Reference

/-!
# The group lists simulate the queue

In every run the memory represents a valid shape whose groups are those of the
reference queue: a message is due when its group's shape says, and two messages
are in one group exactly when one node holds them.
-/

namespace Redoubt.Ipclist

open IpcList Function List Shape

variable {γ : Type*} [DecidableEq γ]

/-- The shape holds the queue's messages, each in its group. -/
structure World.Matches (world : World γ) (shape : Shape) : Prop where
  here : ∀ m ∈ world.queue, ∃ node, m.thread ∈ shape.chain node m.send ∧
    m.due = max (shape.seq m.thread) (shape.taken node) ∧
    world.group node = some m.group
  all : ∀ t, shape.Queued t → world.Queued t
  arrivals : world.queue.Pairwise fun m m' => shape.seq m.thread < shape.seq m'.thread
  labels : ∀ m ∈ world.queue, world.group m.thread = some m.group ∧
    world.send m.thread = m.send
  apart : ∀ node ∈ shape.nodes, ∀ node' ∈ shape.nodes,
    world.group node = world.group node' → node = node'

/-- The words stand for the reference queue. -/
def World.Simulates (world : World γ) (e : ℕ) : Prop :=
  ∃ shape, Represents world.words e shape ∧ shape.Valid world.counter ∧
    world.Matches shape

namespace World

variable {world : World γ} {shape : Shape} {e t : ℕ}

/-! ## The empty endpoint -/

omit [DecidableEq γ] in
theorem simulates_empty (e : ℕ) : (World.empty : World γ).Simulates e := by
  have hlist : ∀ list : IpcList, IsList (World.empty : World γ).words list [] := by
    intro list
    refine ⟨trivial, rfl, ?_, nodup_nil, not_mem_nil⟩
    cases htail : list.tail <;> simp [IpcList.last, htail, World.empty]
  refine ⟨⟨[], [], fun _ _ => [], fun _ => 0, fun _ => 0, fun _ => 0, 0⟩,
    ⟨⟨⟨hlist _, fun _ _ => ⟨rfl, rfl⟩⟩, ⟨hlist _, fun _ _ => ⟨rfl, rfl⟩⟩,
      fun _ _ => hlist _⟩, fun _ => rfl, fun _ => rfl, fun _ => rfl, ?_, rfl⟩,
    ⟨⟨?_, ?_, ?_, fun _ => rfl, rfl, ?_, ?_, fun _ => le_refl 0, ?_, ?_⟩,
      ⟨?_, ?_⟩, ?_, ?_, ?_⟩,
    ⟨?_, ?_, ?_, ?_, ?_⟩⟩ <;> simp [Shape.Queued, World.empty]

omit [DecidableEq γ] in
theorem Matches.queued_iff (h : world.Matches shape) :
    world.Queued t ↔ shape.Queued t := by
  constructor
  · rintro ⟨m, hm, rfl⟩
    obtain ⟨node, hmem, -, -⟩ := h.here m hm
    exact ⟨node, m.send, hmem⟩
  · exact h.all t

/-! ## Arrivals -/

/-- The walk over the groups finds the first that passes. -/
theorem findFrom_eq {w : Words} {same : ℕ → Bool} {front nodes : List ℕ} {fuel : ℕ}
    (hlist : IsList w (IpcList.groups e) (front ++ nodes))
    (hfuel : nodes.length ≤ fuel) :
    findFrom w e same fuel (nodes.headD 0) = nodes.find? same := by
  induction nodes generalizing front fuel with
  | nil => cases fuel <;> simp [findFrom]
  | cons head rest ih =>
    obtain ⟨fuel, rfl⟩ : ∃ n, fuel = n + 1 :=
      ⟨fuel - 1, by simp only [length_cons] at hfuel; omega⟩
    have hhead : head ≠ 0 := hlist.ne_zero (by simp)
    have hnext : (IpcList.groups e).next w head = rest.headD 0 :=
      hlist.linked.neighbours.2
    rw [headD_cons, findFrom, if_neg hhead, hnext, find?_cons]
    cases hsame : same head with
    | true => rfl
    | false =>
      have hmoved : IsList w (IpcList.groups e) ((front ++ [head]) ++ rest) := by
        simpa using hlist
      apply ih hmoved
      simp only [length_cons] at hfuel
      omega

theorem find_eq {w : Words} {counter : ℕ} (same : ℕ → Bool)
    (h : Represents w e shape) (hvalid : shape.Valid counter) :
    find w e same = shape.nodes.find? same := by
  rw [find, h.groups.first, Ipclist.waiting, h.waiting]
  have hlist : IsList w (IpcList.groups e) ([] ++ shape.nodes) := h.groups.toIsList
  exact findFrom_eq hlist (hvalid.toSound.length_nodes_le hvalid.toHomed)

section Enqueue

variable {g : γ} {send : Bool} {number : ℕ} {joined : Option ℕ}

theorem Matches.enqueue (h : world.Matches shape)
    (hvalid : shape.Valid world.counter) (hnew : ¬ world.Queued t)
    (hnumber : world.counter < number)
    (hjoined : shape.nodes.find? (fun node => world.group node = some g) = joined) :
    (world.enqueue e t g send number).Matches
      (shape.arrive (joined.getD t) t send number) := by
  have hoff : ¬ shape.Queued t := fun hqueued => hnew (h.queued_iff.mpr hqueued)
  have hseq : ∀ m ∈ world.queue,
      (shape.arrive (joined.getD t) t send number).seq m.thread =
        shape.seq m.thread := by
    intro m hm
    exact arrive_seq_of_queued hoff (h.queued_iff.mp ⟨m, hm, rfl⟩)
  have hgroup : ∀ n, shape.Queued n →
      (world.enqueue e t g send number).group n = world.group n := by
    intro n hn
    exact update_of_ne (fun heq : n = t => hoff (heq ▸ hn)) _ _
  have hself : (world.enqueue e t g send number).group t = some g :=
    update_self ..
  have hnode : (world.enqueue e t g send number).group (joined.getD t) = some g := by
    cases hfound : joined with
    | none => exact hself
    | some node =>
      rw [hfound] at hjoined
      have hmem := mem_of_find?_eq_some hjoined
      rw [Option.getD_some, hgroup node (hvalid.queued hmem)]
      simpa using find?_some hjoined
  refine ⟨?_, ?_, ?_, ?_, ?_⟩
  · intro m hm
    rcases mem_append.mp hm with hold | hlast
    · obtain ⟨node, hmem, hdue, hlabel⟩ := h.here m hold
      refine ⟨node, mem_arrive_chain.mpr (.inl hmem), ?_, ?_⟩
      · rw [hseq m hold]
        exact hdue
      · rw [hgroup node (hvalid.queued (hvalid.mem_nodes hmem))]
        exact hlabel
    · rw [mem_singleton.mp hlast]
      refine ⟨joined.getD t, mem_arrive_chain.mpr (.inr ⟨rfl, rfl, rfl⟩), ?_, hnode⟩
      have htaken := hvalid.takes (joined.getD t)
      rw [arrive_seq_self]
      simp only [arrive]
      omega
  · intro m hm
    rcases arrive_queued.mp hm with hold | rfl
    · obtain ⟨m', hm', rfl⟩ := h.all m hold
      exact ⟨m', mem_append_left _ hm', rfl⟩
    · exact ⟨_, mem_append_right _ (mem_singleton_self _), rfl⟩
  · apply pairwise_append.mpr
    refine ⟨?_, pairwise_singleton _ _, ?_⟩
    · apply h.arrivals.imp_of_mem
      intro m m' hm hm' hlt
      rwa [hseq m hm, hseq m' hm']
    · intro m hm m' hm'
      rw [mem_singleton.mp hm', hseq m hm, arrive_seq_self]
      have hstamped := hvalid.stamped _ (h.queued_iff.mp ⟨m, hm, rfl⟩)
      exact lt_of_le_of_lt hstamped.2 hnumber
  · intro m hm
    rcases mem_append.mp hm with hold | hlast
    · have hqueued := h.queued_iff.mp ⟨m, hold, rfl⟩
      have hne : m.thread ≠ t := fun heq => hoff (heq ▸ hqueued)
      obtain ⟨hlabel, hsend⟩ := h.labels m hold
      exact ⟨(hgroup _ hqueued).trans hlabel, (update_of_ne hne _ _).trans hsend⟩
    · rw [mem_singleton.mp hlast]
      exact ⟨hself, update_self ..⟩
  · -- a new node's label is no other node's, as none was found
    intro n hn n' hn' heq
    have hother : ∀ x ∈ shape.nodes, joined = none →
        (world.enqueue e t g send number).group x ≠ some g := by
      intro x hx hnone
      rw [hgroup x (hvalid.queued hx)]
      rw [hnone] at hjoined
      simpa using find?_eq_none.mp hjoined x hx
    cases hfound : joined with
    | some node =>
      rw [hfound] at hjoined hn hn'
      have hmem := mem_of_find?_eq_some hjoined
      have hback : ∀ x ∈ (shape.arrive node t send number).nodes, x ∈ shape.nodes := by
        intro x hx
        rcases mem_arrive_nodes.mp hx with hx | rfl
        · exact hx
        · exact hmem
      rw [hgroup n (hvalid.queued (hback n hn)),
        hgroup n' (hvalid.queued (hback n' hn'))] at heq
      exact h.apart n (hback n hn) n' (hback n' hn') heq
    | none =>
      rw [hfound] at hn hn'
      rcases mem_arrive_nodes.mp hn with hold | rfl <;>
        rcases mem_arrive_nodes.mp hn' with hold' | rfl
      · rw [hgroup n (hvalid.queued hold), hgroup n' (hvalid.queued hold')] at heq
        exact h.apart n hold n' hold' heq
      · exact absurd (heq.trans hself) (hother n hold hfound)
      · exact absurd (heq.symm.trans hself) (hother n' hold' hfound)
      · rfl

theorem Simulates.enqueue (h : world.Simulates e) (ht : t ≠ 0)
    (hnew : ¬ world.Queued t) (hnumber : world.counter < number) :
    (world.enqueue e t g send number).Simulates e := by
  obtain ⟨shape, hrepresents, hvalid, hmatches⟩ := h
  have hoff : ¬ shape.Queued t :=
    fun hqueued => hnew (hmatches.queued_iff.mpr hqueued)
  set same : ℕ → Bool := fun node => world.group node = some g with hsame
  have hfind := find_eq same hrepresents hvalid
  have hjoined : ∀ node, find world.words e same = some node → node ∈ shape.nodes := by
    intro node hnode
    exact mem_of_find?_eq_some (hfind ▸ hnode)
  refine ⟨_, hrepresents.enqueue hvalid ht hoff hjoined, hvalid.arrive hoff hnumber ?_,
    hmatches.enqueue hvalid hnew hnumber hfind.symm⟩
  cases hnode : find world.words e same with
  | none => exact .inr rfl
  | some node => exact .inl (hjoined node hnode)

end Enqueue

/-! ## Turns -/

/-- The queue after a turn of a queued message's group. -/
theorem Matches.served_queue (h : world.Matches shape) {p : Message γ}
    (hp : p ∈ world.queue) (now : ℕ) :
    Reference.served world.queue p.thread now = world.queue.map fun m =>
      if m.group = p.group then { m with due := now } else m := by
  have hfound : (world.queue.find? fun m => m.thread == p.thread).isSome := by
    rw [find?_isSome]
    exact ⟨p, hp, beq_self_eq_true _⟩
  obtain ⟨turn, hturn⟩ := Option.isSome_iff_exists.mp hfound
  have hthread : turn.thread = p.thread := by simpa using find?_some hturn
  have hgroup : turn.group = p.group := by
    have hlabel := (h.labels turn (mem_of_find?_eq_some hturn)).1
    rw [hthread, (h.labels p hp).1] at hlabel
    exact (Option.some.inj hlabel).symm
  rw [Reference.served, hturn, ← hgroup]

theorem Matches.served {now : ℕ} {turn : Message γ} {node : ℕ}
    (h : world.Matches shape) (hvalid : shape.Valid world.counter)
    (hnow : world.counter < now) (hnode : t ∈ shape.chain node turn.send)
    (hlabel : world.group node = some turn.group)
    (hqueue : Reference.served world.queue t now = world.queue.map fun m =>
      if m.group = turn.group then { m with due := now } else m) :
    (world.served e t now).Matches (shape.turn node now) := by
  have hmem : node ∈ shape.nodes := hvalid.mem_nodes hnode
  have hthreads : ∀ m : Message γ,
      (if m.group = turn.group then { m with due := now } else m).thread =
      m.thread := by
    intro m
    split <;> rfl
  have hqueue' : (world.served e t now).queue = world.queue.map fun m =>
      if m.group = turn.group then { m with due := now } else m := hqueue
  refine ⟨?_, ?_, ?_, ?_, ?_⟩
  · intro m' hm'
    rw [hqueue', mem_map] at hm'
    obtain ⟨m, hm, rfl⟩ := hm'
    obtain ⟨n, hchain, hdue, hgroup⟩ := h.here m hm
    have hn := hvalid.mem_nodes hchain
    refine ⟨n, ?_⟩
    by_cases hsame : m.group = turn.group
    · -- a message of the group is due again at `now`
      have hnode' : n = node := by
        apply h.apart n hn node hmem
        rw [hgroup, hlabel, hsame]
      subst hnode'
      have hle := (hvalid.stamped _ ⟨n, _, hchain⟩).2
      simp only [hsame, if_true, Shape.turn, update_self]
      refine ⟨hchain, ?_, by rw [← hsame]; exact hgroup⟩
      omega
    · have hne : n ≠ node := by
        rintro rfl
        exact hsame (Option.some.inj (hgroup.symm.trans hlabel))
      simp only [hsame, Shape.turn, update_of_ne hne]
      exact ⟨hchain, hdue, hgroup⟩
  · intro m hm
    obtain ⟨m', hm', rfl⟩ := h.all m hm
    refine ⟨_, ?_, hthreads m'⟩
    rw [hqueue']
    exact mem_map_of_mem hm'
  · rw [hqueue', pairwise_map]
    apply h.arrivals.imp
    intro m m' hlt
    rw [hthreads, hthreads]
    exact hlt
  · intro m' hm'
    rw [hqueue', mem_map] at hm'
    obtain ⟨m, hm, rfl⟩ := hm'
    have hlabels := h.labels m hm
    split <;> exact hlabels
  · intro n hn n' hn'
    exact h.apart n ((Shape.mem_turn_nodes hmem).mp hn) n'
      ((Shape.mem_turn_nodes hmem).mp hn')

theorem Simulates.served {now : ℕ} (h : world.Simulates e) (hqueued : world.Queued t)
    (hnow : world.counter < now) : (world.served e t now).Simulates e := by
  obtain ⟨shape, hrepresents, hvalid, hmatches⟩ := h
  obtain ⟨turn, hmem, rfl⟩ := hqueued
  obtain ⟨node, hchain, -, hlabel⟩ := hmatches.here turn hmem
  exact ⟨_, hrepresents.served hvalid hchain,
    hvalid.turn (hvalid.mem_nodes hchain) hnow,
    hmatches.served hvalid hnow hchain hlabel (hmatches.served_queue hmem now)⟩

/-! ## Departures -/

omit [DecidableEq γ] in
theorem Matches.leave {after : Shape} (h : world.Matches shape)
    (hvalid : shape.Valid world.counter) (hafter : after.Valid world.counter)
    (hdeparted : shape.Departed after t) : (world.leave e t).Matches after := by
  have hmem : ∀ m : Message γ, m ∈ (world.leave e t).queue ↔ m ∈ world.queue ∧
      m.thread ≠ t := by
    intro m
    simp [World.leave, Reference.remove]
  have hqueued : ∀ m, after.Queued m ↔ shape.Queued m ∧ m ≠ t := hdeparted.queued
  obtain ⟨old, hold, htaken, hinjective⟩ := hdeparted.groups
  have hgroup : ∀ n, n ≠ t → (world.leave e t).group n = world.group n :=
    fun n hne => update_of_ne hne _ _
  -- the label of a group is that of any of its members
  have hlabel : ∀ node n s, n ∈ shape.chain node s →
      world.group n = world.group node := by
    intro node n s hn
    obtain ⟨m, hm, rfl⟩ := h.all n ⟨node, s, hn⟩
    obtain ⟨node', hn', -, hgroup⟩ := h.here m hm
    obtain ⟨rfl, -⟩ := hvalid.apart node s _ hn node' _ hn'
    rw [hgroup, (h.labels m hm).1]
  have hhome : ∀ n ∈ after.nodes, n ≠ t ∧ ∃ s, n ∈ shape.chain (old n) s := by
    intro n hn
    obtain ⟨s, hself⟩ := hafter.home n hn
    exact ⟨((hqueued n).mp ⟨n, s, hself⟩).2, s, hold n hn s n hself⟩
  refine ⟨?_, ?_, ?_, ?_, ?_⟩
  · intro m hm
    obtain ⟨hin, hne⟩ := (hmem m).mp hm
    obtain ⟨node, hchain, hdue, hnode⟩ := h.here m hin
    obtain ⟨n, s, hafterChain⟩ :=
      (hqueued m.thread).mpr ⟨⟨node, m.send, hchain⟩, hne⟩
    have hn := hafter.mem_nodes hafterChain
    obtain ⟨hnode', rfl⟩ :=
      hvalid.apart node m.send m.thread hchain (old n) s (hold n hn s _ hafterChain)
    obtain ⟨hnt, s', hself⟩ := hhome n hn
    refine ⟨n, hafterChain, ?_, ?_⟩
    · rw [hdeparted.seq, htaken n hn, hnode']
      exact hdue
    · rw [hgroup n hnt, hlabel _ n s' hself, hnode']
      exact hnode
  · intro m hm
    obtain ⟨hold, hne⟩ := (hqueued m).mp hm
    obtain ⟨m', hm', rfl⟩ := h.all m hold
    exact ⟨m', (hmem m').mpr ⟨hm', hne⟩, rfl⟩
  · rw [hdeparted.seq]
    exact h.arrivals.sublist filter_sublist
  · intro m hm
    obtain ⟨hin, hne⟩ := (hmem m).mp hm
    rw [hgroup _ hne]
    exact h.labels m hin
  · intro n hn n' hn' heq
    obtain ⟨hnt, s, hself⟩ := hhome n hn
    obtain ⟨hnt', s', hself'⟩ := hhome n' hn'
    rw [hgroup n hnt, hgroup n' hnt', hlabel _ n s hself, hlabel _ n' s' hself'] at heq
    apply hinjective n hn n' hn'
    exact h.apart _ (hvalid.mem_nodes hself) _ (hvalid.mem_nodes hself') heq

omit [DecidableEq γ] in
theorem Simulates.leave (h : world.Simulates e) (hqueued : world.Queued t) :
    (world.leave e t).Simulates e := by
  obtain ⟨shape, hrepresents, hvalid, hmatches⟩ := h
  obtain ⟨m, hm, rfl⟩ := hqueued
  obtain ⟨node, hchain, -, -⟩ := hmatches.here m hm
  obtain ⟨after, hafter, hafterValid, hdeparted⟩ := hrepresents.dequeue hvalid hchain
  have hsend := (hmatches.labels m hm).2
  refine ⟨after, ?_, hafterValid, hmatches.leave hvalid hafterValid hdeparted⟩
  rw [World.leave, hsend]
  exact hafter

/-- Along every run the words stand for the reference queue. -/
theorem Run.simulates (h : World.Run e world) : world.Simulates e := by
  induction h with
  | empty => exact simulates_empty e
  | enqueue t g send number _ ht hnew hnumber ih =>
    exact ih.enqueue ht hnew hnumber
  | served t now _ hqueued hnow ih => exact ih.served hqueued hnow
  | leave t _ hqueued ih => exact ih.leave hqueued

end World

end Redoubt.Ipclist
