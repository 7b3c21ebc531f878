import Redoubt.Sched.Ranks

/-!
# Passes near the floor at one hart

The invariant behind the queue's fairness at one hart: no queued budget is below
the floor, and no budget leads it by more than one charge.  Only a budget at the
floor is picked, so a charge of at most `S` ticks takes it no further, and the
floor never falls.
-/

namespace Redoubt.Stride

open Function List

/-- The lead one charge of `S` ticks can give a budget of this weight. -/
def lead (S weight : ℕ) : ℕ := S * stride / weight + 1

/-- A charge at weight `w` adds exactly `runtime` strides of work. -/
theorem charge_work (s : State) {w : ℕ} (hw : 0 < w) (runtime : ℕ) :
    w * (charge s w runtime).pass + (charge s w runtime).rem =
      w * s.pass + s.rem + min runtime runtimeCap * stride := by
  rw [charge, if_neg (Nat.pos_iff_ne_zero.mp hw)]
  have hdiv := Nat.div_add_mod (s.rem + min runtime runtimeCap * stride) w
  simp only [mul_add]
  omega

theorem charge_rem_lt (s : State) {w : ℕ} (hrem : s.rem < max w 1) (runtime : ℕ) :
    (charge s w runtime).rem < max w 1 := by
  rw [charge]
  split
  · exact hrem
  · rename_i hw
    have hlt := Nat.mod_lt (s.rem + min runtime runtimeCap * stride)
      (Nat.pos_of_ne_zero hw)
    exact lt_of_lt_of_le hlt (le_max_left _ _)

theorem le_charge_pass (s : State) (w runtime : ℕ) :
    s.pass ≤ (charge s w runtime).pass := by
  rw [charge]
  split
  · exact le_refl _
  · exact Nat.le_add_right _ _

/-- The remainder left by earlier charges costs at most one more step of the pass. -/
theorem charge_pass_le (s : State) {w S runtime : ℕ} (hrem : s.rem < max w 1)
    (hrun : min runtime runtimeCap ≤ S) :
    (charge s w runtime).pass ≤ s.pass + lead S w := by
  rw [charge]
  split
  · exact Nat.le_add_right _ _
  · rename_i hw
    have hpos : 0 < w := Nat.pos_of_ne_zero hw
    apply Nat.add_le_add_left
    calc (s.rem + min runtime runtimeCap * stride) / w
        ≤ (S * stride + w) / w := by
          apply Nat.div_le_div_right
          have hmul := Nat.mul_le_mul_right stride hrun
          omega
      _ = lead S w := Nat.add_div_right _ hpos

@[simp] theorem charge_queued (s : State) (w runtime : ℕ) :
    (charge s w runtime).queued = s.queued := by
  rw [charge]
  split <;> rfl

namespace Board

variable {q : Board} {b S : ℕ}

/-- The queue at one hart, with no queued budget below the floor and none more
than a charge of `S` above it. -/
structure Level (S : ℕ) (q : Board) : Prop where
  one : q.harts = 1
  ranked : q.Ranked
  uncapped : q.Uncapped
  queued : ∀ b, (q.state b).queued = true → b ∈ q.budgets
  low : ∀ slot ∈ q.slots, q.floor ≤ slot.pass
  high : ∀ b, (q.state b).pass ≤ q.floor + lead S (q.weight b)
  rem : ∀ b, (q.state b).rem < max (q.weight b) 1

theorem Level.floor_le (hq : q.Level S) (hb : (q.state b).queued = true) :
    q.floor ≤ (q.state b).pass := by
  obtain ⟨slot, hslot, rfl⟩ := mem_budgets.mp (hq.queued b hb)
  rw [← hq.ranked.pass_eq slot hslot]
  exact hq.low slot hslot

/-- The invariant reads the floor, the slots, the states and the weights only. -/
theorem Level.congr (hq : q.Level S) {next : Board} (hharts : next.harts = q.harts)
    (hfloor : next.floor = q.floor) (hslots : next.slots = q.slots)
    (hstate : next.state = q.state)
    (hweight : next.weight = q.weight) : next.Level S := by
  obtain ⟨hone, ⟨hnodup, hheld, hpass, htie⟩, hcap, hqueued, hlow, hhigh, hrem⟩ := hq
  refine ⟨hharts.trans hone, ⟨?_, ?_, ?_, ?_⟩, ?_, ?_, ?_, ?_, ?_⟩
  all_goals simpa only [budgets, Uncapped, hfloor, hslots, hstate, hweight]

/-- The raise, with what it leaves: nothing pending and a budget at the floor. -/
theorem Level.raiseFloor (hq : q.Level S) (hw : q.Watched) :
    q.raiseFloor.Level S ∧ q.raiseFloor.state = q.state ∧ q.floor ≤ q.raiseFloor.floor ∧
      q.raiseFloor.slots = q.slots ∧ q.raiseFloor.pending = false ∧
      q.raiseFloor.Watched ∧
      q.raiseFloor.weight = q.weight := by
  rw [raiseFloor_one hq.one hq.uncapped hw]
  refine ⟨⟨hq.one,
    ⟨hq.ranked.nodup, hq.ranked.held, hq.ranked.pass_eq, hq.ranked.tie_eq⟩,
    hq.uncapped, hq.queued, ?_, ?_, hq.rem⟩, rfl, floor_le_lowest, rfl, rfl, ?_, rfl⟩
  · intro slot hslot
    calc q.lowest ≤ max q.floor slot.pass := lowest_le hslot
      _ = slot.pass := max_eq_right (hq.low slot hslot)
  · intro b
    exact (hq.high b).trans (Nat.add_le_add_right floor_le_lowest _)
  · by_cases hempty : q.slots = []
    · exact Or.inr (Or.inl hempty)
    · exact Or.inr (Or.inr (exists_le_lowest hempty))

/-- A charge to a budget at the floor. -/
theorem Level.charge (hq : q.Level S) {runtime : ℕ} (hlow : (q.state b).pass ≤ q.floor)
    (hrun : min runtime runtimeCap ≤ S) :
    (q.record b (charge (q.state b) (q.weight b) runtime)).Level S := by
  have hs : (Stride.charge (q.state b) (q.weight b) runtime).queued =
      (q.state b).queued :=
    charge_queued _ _ _
  have hranked := hq.ranked.record hs
  have hbudgets := hq.ranked.budgets_record hs
  rw [hq.ranked.record_eq hs] at hranked hbudgets ⊢
  refine ⟨hq.one, hranked, ?_, ?_, ?_, ?_, ?_⟩
  · intro slot hslot
    obtain ⟨old, hold, rfl⟩ := mem_map.mp hslot
    split <;> exact hq.uncapped old hold
  · intro x hx
    have hx : (q.state x).queued = true := by
      by_cases hxb : x = b
      · subst hxb
        simpa using hx
      · simpa [hxb] using hx
    rw [hbudgets]
    exact hq.queued x hx
  · intro slot hslot
    obtain ⟨old, hold, rfl⟩ := mem_map.mp hslot
    split
    · rename_i hb
      subst hb
      have hpass := hq.ranked.pass_eq old hold
      exact (hq.low old hold).trans (hpass ▸ le_charge_pass _ _ _)
    · exact hq.low old hold
  · intro x
    by_cases hx : x = b
    · subst hx
      simp only [update_self]
      exact (charge_pass_le _ (hq.rem x) hrun).trans (Nat.add_le_add_right hlow _)
    · simp only [update_of_ne hx]
      exact hq.high x
  · intro x
    by_cases hx : x = b
    · subst hx
      simp only [update_self]
      exact charge_rem_lt _ (hq.rem x) _
    · simp only [update_of_ne hx]
      exact hq.rem x

theorem Level.requeue (hq : q.Level S) (hb : (q.state b).queued = true) :
    (q.requeue b).Level S := by
  have hstate : ∀ x, ((q.requeue b).state x).pass = (q.state x).pass ∧
      ((q.requeue b).state x).rem = (q.state x).rem ∧
      ((q.requeue b).state x).queued = (q.state x).queued := by
    intro x
    by_cases hx : x = b
    · subst hx
      simp [Board.requeue, editSlot, setState, hb]
    · simp [Board.requeue, editSlot, setState, hx]
  refine ⟨hq.one, hq.ranked.requeue, ?_, ?_, ?_, ?_, ?_⟩
  · intro slot hslot
    obtain ⟨old, hold, rfl⟩ := mem_map.mp hslot
    split <;> exact hq.uncapped old hold
  · intro x hx
    rw [(hstate x).2.2] at hx
    rw [budgets_requeue]
    exact hq.queued x hx
  · intro slot hslot
    rw [hq.ranked.requeue.pass_eq slot hslot, (hstate _).1]
    exact hq.floor_le ((hstate _).2.2 ▸ hq.ranked.requeue.held slot hslot)
  · intro x
    rw [(hstate x).1]
    exact hq.high x
  · intro x
    rw [(hstate x).2.1]
    exact hq.rem x

theorem Level.leave (hq : q.Level S) : (q.leave b).Level S := by
  have hranked := hq.ranked.leave (b := b)
  have hstate : ∀ x, ((q.leave b).state x).pass = (q.state x).pass ∧
      ((q.leave b).state x).rem = (q.state x).rem := by
    intro x
    rw [leave_eq hq.ranked.nodup]
    by_cases hx : x = b
    · subst hx
      simp
    · simp [hx]
  have hmem : ∀ slot ∈ (q.leave b).slots, slot ∈ q.slots := by
    intro slot hslot
    rw [leave_eq hq.ranked.nodup] at hslot
    exact ((mem_takeOut hq.ranked.nodup).mp hslot).1
  have hframe : (q.leave b).harts = q.harts ∧ (q.leave b).floor = q.floor ∧
      (q.leave b).weight = q.weight := by
    rw [leave_eq hq.ranked.nodup]
    exact ⟨rfl, rfl, rfl⟩
  refine ⟨hframe.1.trans hq.one, hranked,
    fun slot hslot => hq.uncapped slot (hmem slot hslot),
    ?_, ?_, ?_, ?_⟩
  · intro x hx
    rw [leave_eq hq.ranked.nodup] at hx ⊢
    by_cases hxb : x = b
    · subst hxb
      simp at hx
    · simp only [update_of_ne hxb] at hx
      obtain ⟨slot, hslot, rfl⟩ := mem_budgets.mp (hq.queued x hx)
      exact mem_budgets.mpr ⟨slot, (mem_takeOut hq.ranked.nodup).mpr ⟨hslot, hxb⟩, rfl⟩
  · intro slot hslot
    rw [hframe.2.1]
    exact hq.low slot (hmem slot hslot)
  · intro x
    rw [(hstate x).1, hframe.2.1, hframe.2.2]
    exact hq.high x
  · intro x
    rw [(hstate x).2, hframe.2.2]
    exact hq.rem x

theorem Level.wake (hq : q.Level S) (hout : (q.state b).queued = false) {n : ℕ}
    {next : Board}
    (hwake : q.wake b n = some next) : next.Level S := by
  have hranked := hq.ranked.wake hout hwake
  rw [wake_eq (hq.ranked.notMem hout)] at hwake
  split at hwake
  · contradiction
  · rw [Option.some.injEq] at hwake
    subst hwake
    refine ⟨hq.one, hranked, ?_, ?_, ?_, ?_, ?_⟩
    · intro slot hslot
      rcases mem_append.mp hslot with hslot | hslot
      · exact hq.uncapped slot hslot
      · rw [mem_singleton.mp hslot]
        rfl
    · intro x hx
      rw [budgets, map_append, mem_append]
      by_cases hxb : x = b
      · exact Or.inr (by simp [wakeSlot, hxb])
      · simp only [update_of_ne hxb] at hx
        exact Or.inl (hq.queued x hx)
    · intro slot hslot
      rcases mem_append.mp hslot with hslot | hslot
      · exact hq.low slot hslot
      · rw [mem_singleton.mp hslot]
        exact le_max_right _ _
    · intro x
      by_cases hx : x = b
      · subst hx
        simp only [update_self]
        exact max_le (hq.high x) (Nat.le_add_right _ _)
      · simp only [update_of_ne hx]
        exact hq.high x
    · intro x
      by_cases hx : x = b
      · subst hx
        simp only [update_self]
        exact hq.rem x
      · simp only [update_of_ne hx]
        exact hq.rem x

/-- Between operations: nothing is pending, and some queued budget is at the
floor. -/
structure Rest (S : ℕ) (q : Board) : Prop extends Level S q where
  settled : q.pending = false
  watched : q.Watched

theorem Rest.congr (hq : q.Rest S) {next : Board} (hharts : next.harts = q.harts)
    (hfloor : next.floor = q.floor) (hslots : next.slots = q.slots)
    (hstate : next.state = q.state)
    (hweight : next.weight = q.weight) (hpending : next.pending = q.pending) :
    next.Rest S where
  toLevel := hq.toLevel.congr hharts hfloor hslots hstate hweight
  settled := hpending.trans hq.settled
  watched := by simpa only [Watched, hfloor, hslots, hpending] using hq.watched

theorem Level.rest (hq : q.Level S) (hw : q.Watched) :
    q.raiseFloor.resetIfEmpty.Rest S ∧
    q.raiseFloor.Rest S := by
  obtain ⟨hlevel, -, -, -, hsettled, hwatched, -⟩ := hq.raiseFloor hw
  refine ⟨?_, hlevel, hsettled, hwatched⟩
  have hrest : q.raiseFloor.Rest S := ⟨hlevel, hsettled, hwatched⟩
  rw [resetIfEmpty]
  split
  · exact hrest.congr rfl rfl rfl rfl rfl rfl
  · exact hrest

theorem resetIfEmpty_eq (q : Board) : q.resetIfEmpty.state = q.state ∧
    q.resetIfEmpty.floor = q.floor ∧ q.resetIfEmpty.weight = q.weight ∧
    q.resetIfEmpty.slots = q.slots := by
  rw [resetIfEmpty]
  split <;> exact ⟨rfl, rfl, rfl, rfl⟩

/-- At rest the lowest-ranked budget is at the floor. -/
theorem Rest.pick_low (hq : q.Rest S) {passed : ℕ → Bool}
    (hpassed : ∀ b, passed b = false)
    (hpick : q.pick passed = some b) :
    (q.state b).queued = true ∧ (q.state b).pass ≤ q.floor := by
  have hall : (q.slots.filter fun slot => !passed slot.budget) = q.slots := by
    rw [filter_eq_self]
    intro slot _
    rw [hpassed, Bool.not_false]
  rw [pick, hall] at hpick
  obtain ⟨slot, hmin, rfl⟩ := Option.map_eq_some_iff.mp hpick
  have hslot : slot ∈ q.slots := argmin_mem hmin
  refine ⟨hq.ranked.held slot hslot, ?_⟩
  rw [← hq.ranked.pass_eq slot hslot]
  rcases hq.watched with hpending | hempty | ⟨other, hother, hlow⟩
  · rw [hq.settled] at hpending
    contradiction
  · rw [hempty] at hslot
    contradiction
  · have hrank := le_of_mem_argmin hother hmin
    rw [Slot.rank, Slot.rank, Prod.Lex.toLex_le_toLex] at hrank
    rcases hrank with hlt | ⟨heq, -⟩
    · exact hlt.le.trans hlow
    · exact heq.le.trans hlow

/-- A fold of a budget at the floor. -/
theorem Rest.fold (hq : q.Rest S) {runtime : ℕ} (hlow : (q.state b).pass ≤ q.floor)
    (hrun : min runtime runtimeCap ≤ S) :
    (q.fold b runtime).Rest S ∧ q.floor ≤ (q.fold b runtime).floor ∧
      (q.fold b runtime).weight = q.weight ∧
      (q.fold b runtime).state =
        update q.state b (Stride.charge (q.state b) (q.weight b) runtime) := by
  have hs : (Stride.charge (q.state b) (q.weight b) runtime).queued =
      (q.state b).queued :=
    charge_queued _ _ _
  have hlevel := hq.toLevel.charge hlow hrun
  have hwatched := hq.watched.record hq.ranked hs
  obtain ⟨-, hstate, hfloor, -, -, -, hweight⟩ := hlevel.raiseFloor hwatched
  refine ⟨(hlevel.rest hwatched).2, ?_, ?_, ?_⟩
  · rw [hq.ranked.record_eq hs] at hfloor
    rw [Board.fold, hq.ranked.record_eq hs]
    exact hfloor
  · rw [Board.fold, hweight, hq.ranked.record_eq hs]
    rfl
  · rw [Board.fold, hstate, hq.ranked.record_eq hs]

/-- A deschedule of a queued budget changes no pass; the others keep their state. -/
theorem Rest.deschedule (hq : q.Rest S) (hb : (q.state b).queued = true)
    (still : Bool) :
    (q.deschedule b still).Rest S ∧ q.floor ≤ (q.deschedule b still).floor ∧
      (q.deschedule b still).weight = q.weight ∧
      ((q.deschedule b still).state b).pass = (q.state b).pass ∧
      ((q.deschedule b still).state b).rem = (q.state b).rem ∧
      (∀ x, x ≠ b → (q.deschedule b still).state x = q.state x) ∧
      ((q.deschedule b still).state b).queued = still := by
  cases still with
  | true =>
    have hlevel := hq.toLevel.requeue hb
    have hwatched := hq.watched.requeue (b := b) hq.ranked
    obtain ⟨-, hstate, hfloor, -, -, -, hweight⟩ := hlevel.raiseFloor hwatched
    have hsome : (q.slotOf b).isSome = true := slotOf_isSome.mpr (hq.queued b hb)
    have hoff : q.deschedule b true = (q.requeue b).raiseFloor.resetIfEmpty := by
      rw [Board.deschedule, if_pos rfl, slotted, if_pos hsome]
    rw [hoff]
    obtain ⟨hstate', hfloor', hweight', -⟩ := resetIfEmpty_eq (q.requeue b).raiseFloor
    rw [hstate', hfloor', hweight', hstate, hweight]
    refine ⟨(hlevel.rest hwatched).1, hfloor, rfl, ?_, ?_, ?_, ?_⟩
    · simp [Board.requeue, editSlot, setState]
    · simp [Board.requeue, editSlot, setState]
    · intro x hx
      simp [Board.requeue, editSlot, setState, hx]
    · simp [Board.requeue, editSlot, setState]
  | false =>
    have hleave := hq.toLevel.leave (b := b)
    have hleaveWatched := hq.watched.leave (b := b) hq.ranked
    obtain ⟨-, hstate, hfloor, -, -, -, hweight⟩ := hleave.raiseFloor hleaveWatched
    have hoff : q.deschedule b false = (q.leave b).raiseFloor.resetIfEmpty := rfl
    rw [hoff]
    obtain ⟨hstate', hfloor', hweight', -⟩ := resetIfEmpty_eq (q.leave b).raiseFloor
    rw [hstate', hfloor', hweight', hstate, hweight]
    have hrest := (hleave.rest hleaveWatched).1
    rw [leave_eq hq.ranked.nodup] at hfloor hrest ⊢
    refine ⟨hrest, hfloor, rfl, ?_, ?_, ?_, ?_⟩
    · simp
    · simp
    · intro x hx
      simp [hx]
    · simp

/-- The leaves of a reconcile: a budget that leaves has no waiting thread and
runs on no hart. -/
theorem Level.leaveLost (running : ℕ → Bool) (waiting : ℕ → ℕ) (lost : List ℕ)
    (hq : q.Level S) (hw : q.Watched) :
    (q.leaveLost running waiting lost).Level S ∧
    (q.leaveLost running waiting lost).Watched ∧
      (q.leaveLost running waiting lost).floor = q.floor ∧
      (q.leaveLost running waiting lost).weight = q.weight ∧
      ∀ b, ((q.leaveLost running waiting lost).state b = q.state b) ∨
        ((q.leaveLost running waiting lost).state b = { q.state b with
          queued := false } ∧
          waiting b = 0 ∧ running b = false) := by
  rw [Board.leaveLost]
  induction lost generalizing q with
  | nil => exact ⟨hq, hw, rfl, rfl, fun b => Or.inl rfl⟩
  | cons x rest ih =>
    rw [foldl_cons]
    split
    · exact ih hq hw
    · rename_i hlost
      simp only [Bool.or_eq_true, decide_eq_true_eq, not_or, Bool.not_eq_true,
        not_lt, Nat.le_zero] at hlost
      obtain ⟨hlevel, hwatched, hfloor, hweight, hstate⟩ :=
        ih hq.leave (hw.leave hq.ranked)
      have hleft := leave_eq (b := x) hq.ranked.nodup
      refine ⟨hlevel, hwatched, hfloor.trans (by rw [hleft]),
        hweight.trans (by rw [hleft]; rfl),
        ?_⟩
      intro b
      by_cases hb : b = x
      · subst hb
        refine Or.inr ⟨?_, hlost.2, hlost.1.1.1⟩
        rcases hstate b with hsame | ⟨hsame, -⟩ <;> rw [hsame, hleft] <;> simp
      · have hkept : (q.leave x).state b = q.state b := by
          rw [hleft]
          exact update_of_ne hb _ _
        rw [← hkept]
        exact hstate b

/-- The wakes of a reconcile: a budget queued already, or with no waiting
thread, keeps its state. -/
theorem Level.wakeGained (waiting : ℕ → ℕ) (gained : List ℕ) (hq : q.Level S)
    (hw : q.Watched)
    (hempty : q.slots = [] → q.pending = true) :
    (wakeGained waiting gained q).Level S ∧ (wakeGained waiting gained q).Watched ∧
      (wakeGained waiting gained q).floor = q.floor ∧
      (wakeGained waiting gained q).weight = q.weight ∧
      ∀ b, (q.state b).queued = true ∨ waiting b = 0 →
        (wakeGained waiting gained q).state b = q.state b := by
  induction gained generalizing q with
  | nil => exact ⟨hq, hw, rfl, rfl, fun _ _ => rfl⟩
  | cons x rest ih =>
    rw [Board.wakeGained]
    split
    · rename_i hgained
      simp only [Bool.and_eq_true, decide_eq_true_eq, Bool.not_eq_true'] at hgained
      obtain ⟨⟨-, hwaiting⟩, hout⟩ := hgained
      cases hwake : q.wake x (waiting x) with
      | none => exact ⟨hq, hw, rfl, rfl, fun _ _ => rfl⟩
      | some next =>
        obtain ⟨hwatched, hnonempty⟩ := hw.wake hq.ranked hout hempty hwake
        obtain ⟨hlevel', hwatched', hfloor, hweight, hstate⟩ :=
          ih (hq.wake hout hwake) hwatched hnonempty
        rw [wake_eq (hq.ranked.notMem hout)] at hwake
        split at hwake
        · contradiction
        · rw [Option.some.injEq] at hwake
          refine ⟨hlevel', hwatched', hfloor.trans (by rw [← hwake]),
            hweight.trans (by rw [← hwake]; rfl), ?_⟩
          intro b hb
          have hne : b ≠ x := by
            rintro rfl
            rcases hb with hb | hb
            · rw [hb] at hout
              contradiction
            · omega
          have hkept : next.state b = q.state b := by
            rw [← hwake]
            exact update_of_ne hne _ _
          rw [← hkept]
          exact hstate b (hkept ▸ hb)
    · exact ih hq hw hempty

/-- A reconcile at one hart: a budget queued before and after keeps its state,
and one that runs stays. -/
theorem Rest.reconcileCounted (hq : q.Rest S) (running : ℕ → Bool)
    (lost gained : List ℕ)
    (waiting : ℕ → ℕ) :
    (q.reconcileCounted running lost gained waiting).Rest S ∧
      q.floor ≤ (q.reconcileCounted running lost gained waiting).floor ∧
      (q.reconcileCounted running lost gained waiting).weight = q.weight ∧
      ∀ b, (q.state b).queued = true → (running b = true ∨
          ((q.reconcileCounted running lost gained waiting).state b).queued = true) →
        (q.reconcileCounted running lost gained waiting).state b = q.state b := by
  have hcount : q.countVisited waiting (lost ++ gained) = q := by
    rw [countVisited, if_neg (by have := hq.one; omega)]
  rw [Board.reconcileCounted, hcount]
  obtain ⟨hlevel, hwatched, hfloor, hweight, hstate⟩ :=
    hq.toLevel.leaveLost running waiting lost hq.watched
  generalize q.leaveLost running waiting lost = left at *
  obtain ⟨-, hstate₁, hfloor₁, hslots₁, -, -, hweight₁⟩ := hlevel.raiseFloor hwatched
  obtain ⟨hstate₂, hfloor₂, hweight₂, hslots₂⟩ := resetIfEmpty_eq left.raiseFloor
  have hrest := (hlevel.rest hwatched).1
  generalize left.raiseFloor.resetIfEmpty = settled at *
  have hready : settled.watchEmpty.Level S := hrest.toLevel.congr rfl rfl rfl rfl rfl
  have hreadyWatched : settled.watchEmpty.Watched := by
    rcases hrest.watched with h | h
    · exact Or.inl (by simp [watchEmpty, h])
    · exact Or.inr h
  obtain ⟨hlevel', hwatched', hfloor', hweight', hstate'⟩ := hready.wakeGained waiting
    (gained.insertionSort fun a b => b ≤ a) hreadyWatched
    (fun hempty : settled.slots = [] => by simp [watchEmpty, hempty])
  obtain ⟨-, hstate₃, hfloor₃, -, -, -, hweight₃⟩ := hlevel'.raiseFloor hwatched'
  refine ⟨(hlevel'.rest hwatched').2, ?_, ?_, ?_⟩
  · calc q.floor = left.floor := hfloor.symm
      _ ≤ settled.floor := by rw [hfloor₂]; exact hfloor₁
      _ = settled.watchEmpty.floor := rfl
      _ ≤ _ := hfloor'.symm.le.trans hfloor₃
  · rw [hweight₃, hweight', ← hweight, ← hweight₁, ← hweight₂]
    rfl
  · intro b hb hafter
    rw [hstate₃] at hafter ⊢
    have hsettled : settled.state b = left.state b := by rw [hstate₂, hstate₁]
    rcases hstate b with hsame | ⟨hleft, hnone, hoff⟩
    · have hkept : settled.state b = q.state b := hsettled.trans hsame
      exact (hstate' b (Or.inl (hkept ▸ hb))).trans hkept
    · -- it left, so it neither runs nor wakes again
      have hgone := hstate' b (Or.inr hnone)
      rw [hgone] at hafter
      rw [hoff] at hafter
      simp [watchEmpty, hsettled, hleft] at hafter

end Board

end Redoubt.Stride
