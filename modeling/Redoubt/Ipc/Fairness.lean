import Redoubt.Ipc.Refinement

/-!
# Fair turns

While the oldest message of one group stays queued, every other group has at
most one turn: a group that had its turn is due after that message for as long
as it waits, and so is every group that arrives behind it.
-/

namespace Redoubt.Ipclist

open List

variable {γ : Type*} [DecidableEq γ]

namespace World

/-- The message is the oldest of its group. -/
def Oldest (queue : List (Message γ)) (m : Message γ) : Prop :=
  queue.find? (fun m' => m'.group = m.group) = some m

/-- A run from `start` in which message `m` stays queued: messages arrive, other
messages leave, and every take is of the message that `pick` gives and that is
not `m`.  `turns` are the groups that had a turn, in order. -/
inductive Turns (e : ℕ) (m : Message γ) (start : World γ) : List γ → World γ → Prop
  | start : Turns e m start [] start
  | arrive {turns : List γ} {world : World γ} (t : ℕ) (g : γ) (send : Bool)
      (number : ℕ) (hturns : Turns e m start turns world) (ht : t ≠ 0)
      (hnew : ¬ world.Queued t) (hnumber : world.counter < number) :
      Turns e m start turns (world.enqueue e t g send number)
  | leave {turns : List γ} {world : World γ} (t : ℕ)
      (hturns : Turns e m start turns world) (hqueued : world.Queued t)
      (hother : t ≠ m.thread) : Turns e m start turns (world.leave e t)
  | take {turns : List γ} {world : World γ} (t now : ℕ) (g : γ)
      (hturns : Turns e m start turns world)
      (hpick : Ipclist.pick world.words e true = t) (ht : t ≠ 0)
      (hgroup : world.group t = some g) (hother : t ≠ m.thread)
      (hnow : world.counter < now) :
      Turns e m start (turns ++ [g]) (world.take e t now)

/-! ## The oldest message stays the oldest -/

section Oldest

variable {queue : List (Message γ)} {m : Message γ}

theorem Oldest.mem (h : Oldest queue m) : m ∈ queue :=
  mem_of_find?_eq_some h

theorem Oldest.enqueue (h : Oldest queue m) (t : ℕ) (g : γ) (send : Bool)
    (number : ℕ) : Oldest (Reference.enqueue queue t g send number) m := by
  rw [Oldest, Reference.enqueue, find?_append]
  have hfind : queue.find? (fun m' => m'.group = m.group) = some m := h
  rw [hfind]
  rfl

theorem Oldest.remove {t : ℕ} (h : Oldest queue m) (hother : t ≠ m.thread) :
    Oldest (Reference.remove queue t) m := by
  rw [Oldest, find?_eq_some_iff_append] at h ⊢
  obtain ⟨hself, front, back, rfl, hfront⟩ := h
  refine ⟨hself, front.filter fun m' => m'.thread != t,
    back.filter fun m' => m'.thread != t, ?_, ?_⟩
  · rw [Reference.remove, filter_append, filter_cons_of_pos]
    exact bne_iff_ne.mpr hother.symm
  · intro m' hm'
    exact hfront m' (mem_of_mem_filter hm')

/-- A turn of another group leaves the message as it was. -/
theorem Oldest.served {g : γ} (h : Oldest queue m) (now : ℕ) (hgroup : m.group ≠ g) :
    Oldest (queue.map fun m' =>
      if m'.group = g then { m' with due := now } else m') m := by
  rw [Oldest, find?_map]
  have hsame : ((fun m' : Message γ => decide (m'.group = m.group)) ∘
      fun m' : Message γ => if m'.group = g then { m' with due := now } else m') =
      fun m' => decide (m'.group = m.group) := by
    funext m'
    simp only [Function.comp]
    split <;> rfl
  have hfind : queue.find? (fun m' => m'.group = m.group) = some m := h
  rw [hsame, hfind, Option.map_some, if_neg hgroup]

end Oldest

/-! ## The invariant of such a run -/

/-- While `m` waits: it stays the oldest of its group, the groups that had a turn
and are queued are due after it, each group due before it was queued at the
start, and no group had two turns. -/
structure Fair (e : ℕ) (m : Message γ) (start : World γ) (turns : List γ)
    (world : World γ) : Prop where
  run : World.Run e world
  oldest : Oldest world.queue m
  passed : ∀ m' ∈ world.queue, m'.group ∈ turns → m.due < m'.due
  before : ∀ m' ∈ world.queue, m'.due < m.due → m'.group ∈ start.queue.map Message.group
  counted : m.due ≤ world.counter
  known : ∀ g ∈ turns, g ∈ start.queue.map Message.group
  once : turns.Nodup
  other : m.group ∉ turns

variable {e : ℕ} {m : Message γ} {start world : World γ} {turns : List γ}

omit [DecidableEq γ] in
/-- No queued message is due after the counter. -/
theorem Simulates.due_le (h : world.Simulates e) {m : Message γ}
    (hm : m ∈ world.queue) : m.due ≤ world.counter := by
  obtain ⟨shape, -, hvalid, hmatches⟩ := h
  obtain ⟨node, hchain, hdue, -⟩ := hmatches.here m hm
  rw [hdue]
  exact hvalid.due_le ⟨node, _, hchain⟩ node

theorem Fair.initial (hrun : World.Run e start) (holdest : Oldest start.queue m) :
    Fair e m start [] start where
  run := hrun
  oldest := holdest
  passed _ _ hmem := absurd hmem not_mem_nil
  before _ hm' _ := mem_map_of_mem hm'
  counted := hrun.simulates.due_le holdest.mem
  known _ hmem := absurd hmem not_mem_nil
  once := nodup_nil
  other := not_mem_nil

theorem Fair.arrive {t number : ℕ} {g : γ} {send : Bool}
    (h : Fair e m start turns world) (ht : t ≠ 0) (hnew : ¬ world.Queued t)
    (hnumber : world.counter < number) :
    Fair e m start turns (world.enqueue e t g send number) := { h with
  run := .enqueue t g send number h.run ht hnew hnumber
  oldest := h.oldest.enqueue t g send number
  passed m' hm' hturn := by
    rcases mem_append.mp hm' with hold | hlast
    · exact h.passed m' hold hturn
    · rw [mem_singleton.mp hlast]
      exact lt_of_le_of_lt h.counted hnumber
  before m' hm' hlt := by
    rcases mem_append.mp hm' with hold | hlast
    · exact h.before m' hold hlt
    · -- what arrives is due after everything queued
      rw [mem_singleton.mp hlast] at hlt
      exact absurd (lt_trans (lt_of_le_of_lt h.counted hnumber) hlt)
        (lt_irrefl _)
  counted := le_of_lt (lt_of_le_of_lt h.counted hnumber) }

theorem Fair.leave {t : ℕ} (h : Fair e m start turns world)
    (hqueued : world.Queued t) (hother : t ≠ m.thread) :
    Fair e m start turns (world.leave e t) := { h with
  run := .leave t h.run hqueued
  oldest := h.oldest.remove hother
  passed m' hm' := h.passed m' (mem_of_mem_filter hm')
  before m' hm' := h.before m' (mem_of_mem_filter hm') }

/-- A take of another message is the first turn of a group that was queued at
the start. -/
theorem Fair.take {t now : ℕ} {g : γ} (h : Fair e m start turns world)
    (hpick : Ipclist.pick world.words e true = t) (hgroup : world.group t = some g)
    (hother : t ≠ m.thread) (hnow : world.counter < now) :
    Fair e m start (turns ++ [g]) (world.take e t now) := by
  obtain ⟨shape, hrepresents, hvalid, hmatches⟩ := h.run.simulates
  obtain ⟨p, hp, hthread, hfirst, hleast⟩ := hmatches.pick_due hrepresents hvalid
    (ne_nil_of_mem h.oldest.mem)
  rw [hpick] at hthread
  have hlabel : p.group = g := by
    have hlabels := (hmatches.labels p hp).1
    rw [hthread, hgroup] at hlabels
    exact (Option.some.inj hlabels).symm
  have hne : m.group ≠ p.group := by
    intro heq
    obtain ⟨front, back, hsplit⟩ := append_of_mem hp
    have hpOldest : Oldest world.queue p := by
      rw [Oldest, find?_eq_some_iff_append]
      refine ⟨by simp, front, back, hsplit, fun m' hm' => ?_⟩
      simpa using hfirst front back hsplit m' hm'
    rw [Oldest, ← heq] at hpOldest
    have hsame := Option.some.inj (h.oldest.symm.trans hpOldest)
    exact hother (hthread.symm.trans (congrArg Message.thread hsame).symm)
  have hdue : p.due < m.due := hleast m h.oldest.mem hne
  have hqueued : world.Queued t := ⟨p, hp, hthread⟩
  have hserved : (world.served e t now).queue = world.queue.map fun m' =>
      if m'.group = g then { m' with due := now } else m' := by
    rw [← hlabel, ← hmatches.served_queue hp now, hthread]
    rfl
  -- after the turn the group's messages are due at `now`, the others as before
  have hafter : ∀ m' ∈ (world.take e t now).queue,
      (m'.group = g ∧ m'.due = now) ∨ (m'.group ≠ g ∧ m' ∈ world.queue) := by
    intro m' hm'
    have hmem : m' ∈ (world.served e t now).queue := mem_of_mem_filter hm'
    rw [hserved, mem_map] at hmem
    obtain ⟨old, hold, rfl⟩ := hmem
    by_cases hsame : old.group = g
    · simp [hsame]
    · simp [hsame, hold]
  have hlate : m.due < now := lt_of_le_of_lt h.counted hnow
  have hqueued' : (world.served e t now).Queued t := by
    refine ⟨{ p with due := now }, ?_, hthread⟩
    rw [hserved, mem_map]
    exact ⟨p, hp, if_pos hlabel⟩
  have holdest : Oldest (world.served e t now).queue m := by
    rw [hserved]
    exact h.oldest.served now (hlabel ▸ hne)
  exact
    { run := .leave t (.served t now h.run hqueued hnow) hqueued'
      oldest := holdest.remove hother
      passed := by
        intro m' hm' hturn
        rcases hafter m' hm' with ⟨-, hdue'⟩ | ⟨hdifferent, hold⟩
        · rw [hdue']
          exact hlate
        · apply h.passed m' hold
          rcases mem_append.mp hturn with hturn | hlast
          · exact hturn
          · exact absurd (mem_singleton.mp hlast) hdifferent
      before := by
        intro m' hm' hlt
        rcases hafter m' hm' with ⟨-, hdue'⟩ | ⟨-, hold⟩
        · rw [hdue'] at hlt
          exact absurd (lt_trans hlate hlt) (lt_irrefl _)
        · exact h.before m' hold hlt
      counted := le_of_lt hlate
      known := by
        intro g' hg'
        rcases mem_append.mp hg' with hold | hlast
        · exact h.known g' hold
        · rw [mem_singleton.mp hlast, ← hlabel]
          exact h.before p hp hdue
      once := by
        apply nodup_append.mpr
        refine ⟨h.once, nodup_singleton _, ?_⟩
        rintro g' hg' _ hlast rfl
        have hturn : p.group ∈ turns := by
          rw [hlabel, ← mem_singleton.mp hlast]
          exact hg'
        exact lt_irrefl _ (lt_trans hdue (h.passed p hp hturn))
      other := by
        intro hmem
        rcases mem_append.mp hmem with hold | hlast
        · exact h.other hold
        · exact hne ((mem_singleton.mp hlast).trans hlabel.symm) }

theorem Turns.fair (hrun : World.Run e start) (holdest : Oldest start.queue m)
    (h : Turns e m start turns world) : Fair e m start turns world := by
  induction h with
  | start => exact Fair.initial hrun holdest
  | arrive t g send number _ ht hnew hnumber ih => exact ih.arrive ht hnew hnumber
  | leave t _ hqueued hother ih => exact ih.leave hqueued hother
  | take t now g _ hpick _ hgroup hother hnow ih =>
    exact ih.take hpick hgroup hother hnow

/-- The groups that had a turn and the group of `m` are all of the start. -/
theorem Fair.length_lt (h : Fair e m start turns world)
    (holdest : Oldest start.queue m) :
    turns.length < (start.queue.map Message.group).dedup.length := by
  have hdistinct : (m.group :: turns).Nodup :=
    nodup_cons.mpr ⟨h.other, h.once⟩
  have hsubset : (m.group :: turns) ⊆ (start.queue.map Message.group).dedup := by
    intro g hg
    rw [mem_dedup]
    rcases mem_cons.mp hg with rfl | hturn
    · exact mem_map_of_mem holdest.mem
    · exact h.known g hturn
  exact (subperm_of_subset hdistinct hsubset).length_le

/-- While the oldest message `m` of one group stays queued, every other group has
at most one turn and its own none; if `k` groups had messages queued, there are
fewer than `k` takes, and the one after `k - 1` takes `m`. -/
theorem turns_fair (hrun : World.Run e start) (holdest : Oldest start.queue m)
    (hturns : Turns e m start turns world) :
    turns.Nodup ∧ m.group ∉ turns ∧ m ∈ world.queue ∧
      turns.length < (start.queue.map Message.group).dedup.length ∧
      (turns.length + 1 = (start.queue.map Message.group).dedup.length →
        Ipclist.pick world.words e true = m.thread) := by
  have hfair := hturns.fair hrun holdest
  refine ⟨hfair.once, hfair.other, hfair.oldest.mem, hfair.length_lt holdest, ?_⟩
  intro hlength
  by_contra hother
  -- otherwise one more take would be a turn too many
  obtain ⟨shape, hrepresents, hvalid, hmatches⟩ := hfair.run.simulates
  obtain ⟨p, hp, hthread, -, -⟩ := hmatches.pick_due hrepresents hvalid
    (ne_nil_of_mem hfair.oldest.mem)
  have hlabel := (hmatches.labels p hp).1
  rw [hthread] at hlabel
  have hmore := hfair.take rfl hlabel hother (Nat.lt_succ_self _)
  have hlt := hmore.length_lt holdest
  rw [length_append, length_singleton] at hlt
  omega

/-- A send of one group and then a call of another. -/
def pair : World ℕ :=
  (World.empty.enqueue 0 1 7 true 1).enqueue 0 2 8 false 2

theorem pair_run : World.Run 0 pair := by
  have hfirst : World.Run 0 ((World.empty : World ℕ).enqueue 0 1 7 true 1) :=
    .enqueue _ _ _ _ .empty (by decide) (by simp [Queued, World.empty]) (by decide)
  exact hfirst.enqueue 2 8 false 2 (by decide)
    (by simp [Queued, World.enqueue, Reference.enqueue, World.empty]) (by decide)

/-- With two groups queued, the call is next after one take. -/
theorem pair_fair : Ipclist.pick (pair.take 0 1 3).words 0 true = 2 :=
  (turns_fair (m := ⟨2, 8, false, 2⟩) pair_run rfl
    (.take 1 3 7 .start (by decide) (by decide) rfl (by decide) (by decide))).2.2.2.2
    rfl

end World

end Redoubt.Ipclist
