import Redoubt.Sched.Wiring

/-!
# The ranks beside the slots

What every operation of the queue keeps: each slot holds one queued budget and
the rank its state has (`Ranked`), and unless a raise is pending some queued
budget is at the floor (`Watched`), so that the raise one hart skips would change
nothing.
-/

namespace Redoubt.Stride.Board

open Function List Stride.Slot

variable {q : Board} {b : ℕ} {slot : Slot}

/-- The queued budgets. -/
def budgets (q : Board) : List ℕ := q.slots.map budget

theorem mem_budgets : b ∈ q.budgets ↔ ∃ slot ∈ q.slots, slot.budget = b := mem_map

/-- Each slot holds one queued budget and the rank of its state. -/
structure Ranked (q : Board) : Prop where
  nodup : q.budgets.Nodup
  held : ∀ slot ∈ q.slots, (q.state slot.budget).queued = true
  pass_eq : ∀ slot ∈ q.slots, slot.pass = (q.state slot.budget).pass
  tie_eq : ∀ slot ∈ q.slots, slot.tie = (q.state slot.budget).tie

/-- Unless a raise is pending, some queued budget is at the floor. -/
def Watched (q : Board) : Prop :=
  q.pending = true ∨ q.slots = [] ∨ ∃ slot ∈ q.slots, slot.pass ≤ q.floor

/-! ### Finding a slot -/

theorem slotOf_isSome : (q.slotOf b).isSome = true ↔ b ∈ q.budgets := by
  rw [slotOf, find?_isSome, mem_budgets]
  simp only [decide_eq_true_eq]

theorem slotOf_eq_none : q.slotOf b = none ↔ b ∉ q.budgets := by
  rw [← slotOf_isSome, Option.not_isSome_iff_eq_none]

theorem mem_of_slotOf (hslot : q.slotOf b = some slot) :
    slot ∈ q.slots ∧ slot.budget = b :=
  ⟨mem_of_find?_eq_some hslot, by simpa using find?_some hslot⟩

theorem eq_of_budget_eq (hnodup : q.budgets.Nodup) {slot other : Slot}
    (hslot : slot ∈ q.slots)
    (hother : other ∈ q.slots) (heq : slot.budget = other.budget) : slot = other :=
  inj_on_of_nodup_map hnodup hslot hother heq

/-! ### Editing a slot -/

variable {edit : Slot → Slot}

theorem budgets_editSlot (hedit : ∀ slot, (edit slot).budget = slot.budget) :
    (q.editSlot b edit).budgets = q.budgets := by
  rw [budgets, editSlot, map_map]
  apply map_congr_left
  intro slot _
  rw [Function.comp]
  split
  · exact hedit slot
  · rfl

/-! ### Taking a slot out -/

theorem takeOut_perm (slots : List Slot) (b : ℕ) :
    (takeOut b slots).Perm (slots.eraseP fun slot => slot.budget = b) := by
  induction slots with
  | nil => exact Perm.refl _
  | cons slot rest ih =>
    by_cases hslot : slot.budget = b
    · rw [takeOut, if_pos hslot, eraseP_cons_of_pos (by simpa using hslot)]
      cases hlast : rest.getLast? with
      | none => rw [getLast?_eq_none_iff.mp hlast]
      | some last =>
        rw [← dropLast_append_getLast? last hlast]
        simpa using (perm_append_singleton last rest.dropLast).symm
    · rw [takeOut, if_neg hslot, eraseP_cons_of_neg (by simpa using hslot)]
      exact ih.cons slot

theorem mem_takeOut (hnodup : q.budgets.Nodup) {slot : Slot} :
    slot ∈ takeOut b q.slots ↔ slot ∈ q.slots ∧ slot.budget ≠ b := by
  rw [(takeOut_perm q.slots b).mem_iff]
  rw [budgets] at hnodup
  generalize q.slots = slots at hnodup
  induction slots with
  | nil => simp
  | cons head tail ih =>
    obtain ⟨hhead, htail⟩ := nodup_cons.mp hnodup
    by_cases hb : head.budget = b
    · rw [eraseP_cons_of_pos (by simpa using hb), mem_cons]
      constructor
      · intro hslot
        refine ⟨Or.inr hslot, fun heq => hhead ?_⟩
        exact mem_map.mpr ⟨slot, hslot, heq.trans hb.symm⟩
      · rintro ⟨rfl | hslot, hne⟩
        · exact absurd hb hne
        · exact hslot
    · rw [eraseP_cons_of_neg (by simpa using hb), mem_cons, mem_cons, ih htail]
      constructor
      · rintro (rfl | ⟨hslot, hne⟩)
        · exact ⟨Or.inl rfl, hb⟩
        · exact ⟨Or.inr hslot, hne⟩
      · rintro ⟨rfl | hslot, hne⟩
        · exact Or.inl rfl
        · exact Or.inr ⟨hslot, hne⟩

theorem nodup_takeOut (hnodup : q.budgets.Nodup) :
    ((takeOut b q.slots).map budget).Nodup := by
  rw [((takeOut_perm q.slots b).map budget).nodup_iff]
  exact (eraseP_sublist.map budget).nodup hnodup

theorem takeOut_of_notMem (habsent : b ∉ q.budgets) : takeOut b q.slots = q.slots := by
  rw [budgets] at habsent
  generalize q.slots = slots at habsent
  induction slots with
  | nil => rfl
  | cons head tail ih =>
    rw [map_cons, mem_cons, not_or] at habsent
    rw [takeOut, if_neg (fun heq => habsent.1 heq.symm), ih habsent.2]

/-! ### Each operation as one update -/

/-- Whether `b` is queued with a pass the floor has reached. -/
def holdsLow (q : Board) (b : ℕ) : Bool :=
  q.slots.any fun slot => slot.budget = b && q.atFloor slot

theorem holdsLow_eq (hnodup : q.budgets.Nodup) (hslot : q.slotOf b = some slot) :
    q.holdsLow b = q.atFloor slot := by
  obtain ⟨hmem, rfl⟩ := mem_of_slotOf hslot
  rw [Bool.eq_iff_iff, holdsLow, any_eq_true]
  constructor
  · rintro ⟨other, hother, hlow⟩
    rw [Bool.and_eq_true, decide_eq_true_eq] at hlow
    rw [← eq_of_budget_eq hnodup hother hmem hlow.1]
    exact hlow.2
  · intro hlow
    exact ⟨slot, hmem, by simpa using hlow⟩

theorem holdsLow_of_notMem (habsent : b ∉ q.budgets) : q.holdsLow b = false := by
  rw [holdsLow, any_eq_false]
  intro slot hslot
  have hne : slot.budget ≠ b := fun heq => habsent (mem_budgets.mpr ⟨slot, hslot, heq⟩)
  simp [hne]

theorem map_of_notMem (habsent : b ∉ q.budgets) :
    (q.slots.map fun slot => if slot.budget = b then edit slot else slot) =
    q.slots := by
  conv_rhs => rw [← map_id q.slots]
  apply map_congr_left
  intro slot hslot
  rw [if_neg fun heq => habsent (mem_budgets.mpr ⟨slot, hslot, heq⟩), id]

theorem Ranked.notMem (hq : q.Ranked) (hout : (q.state b).queued = false) :
    b ∉ q.budgets := by
  intro hb
  obtain ⟨slot, hslot, rfl⟩ := mem_budgets.mp hb
  rw [hq.held slot hslot] at hout
  contradiction

variable {s : State}

/-- A written state and the rank beside its slot, if it has one. -/
theorem Ranked.record_eq (hq : q.Ranked) (hs : s.queued = (q.state b).queued) :
    q.record b s =
      { q with
        state := update q.state b s
        slots := q.slots.map fun slot =>
          if slot.budget = b then { slot with pass := s.pass, tie := s.tie } else slot
        pending := q.pending || (q.holdsLow b && (q.state b).pass < s.pass) } := by
  rw [record, recorded]
  have hsame : (q.setState b s).slotOf b = q.slotOf b := rfl
  rw [hsame]
  cases hslot : q.slotOf b with
  | none =>
    have habsent := slotOf_eq_none.mp hslot
    rw [map_of_notMem habsent, holdsLow_of_notMem habsent]
    simp [setState]
  | some slot =>
    obtain ⟨hmem, rfl⟩ := mem_of_slotOf hslot
    rw [if_pos (hs.trans (hq.held slot hmem)), holdsLow_eq hq.nodup hslot,
      ← hq.pass_eq slot hmem]
    rfl

theorem Ranked.budgets_record (hq : q.Ranked) (hs : s.queued = (q.state b).queued) :
    (q.record b s).budgets = q.budgets := by
  rw [hq.record_eq hs]
  exact budgets_editSlot (q := q) fun _ => rfl

theorem budgets_requeue : (q.requeue b).budgets = q.budgets :=
  budgets_editSlot (q := q.setState b _) fun _ => rfl

theorem remove_eq (hnodup : q.budgets.Nodup) : q.remove b =
      { q with pending := q.pending || q.holdsLow b, slots := takeOut b q.slots } := by
  rw [remove]
  cases hslot : q.slotOf b with
  | none =>
    have habsent := slotOf_eq_none.mp hslot
    rw [takeOut_of_notMem habsent, holdsLow_of_notMem habsent]
    simp
  | some slot => rw [holdsLow_eq hnodup hslot]

theorem leave_eq (hnodup : q.budgets.Nodup) : q.leave b =
      { q with
        state := update q.state b { q.state b with queued := false }
        slots := takeOut b q.slots
        pending := q.pending || q.holdsLow b } := by
  exact remove_eq (q := q.setState b _) hnodup

/-- The slot of a budget that wakes with `n` waiting threads. -/
def wakeSlot (q : Board) (b n : ℕ) : Slot where
  budget := b
  pass := max (q.state b).pass q.floor
  tie := max (q.front - 1) tieMin
  weight := q.weightForCaps b
  waiting := n
  liftTo := q.floor

theorem wake_eq (habsent : b ∉ q.budgets) (n : ℕ) : q.wake b n =
      if q.slots.length = q.capacity then none
      else some { q with
        state := update q.state b
          { q.state b with
            pass := max (q.state b).pass q.floor
            tie := max (q.front - 1) tieMin
            queued := true }
        slots := q.slots ++ [q.wakeSlot b n]
        front := max (q.front - 1) tieMin } := by
  rw [wake, push]
  split
  · rfl
  · simp only [Option.map_some, editSlot, setState, map_append, map_of_notMem habsent,
      map_cons]
    rfl

/-! ### The ranks stay true -/

/-- Slots rewritten one by one, each with the rank its budget's state now has. -/
theorem Ranked.of_map (hq : q.Ranked) {next : Board}
    (hslots : next.slots = q.slots.map edit)
    (hbudget : ∀ slot, (edit slot).budget = slot.budget)
    (hrank : ∀ slot ∈ q.slots, (next.state slot.budget).queued = true ∧
      (edit slot).pass = (next.state slot.budget).pass ∧
      (edit slot).tie = (next.state slot.budget).tie) : next.Ranked := by
  have hmem : ∀ slot ∈ next.slots, ∃ old ∈ q.slots, edit old = slot := by
    intro slot hslot
    rw [hslots] at hslot
    exact mem_map.mp hslot
  constructor
  · have hsame : budget ∘ edit = budget := funext hbudget
    rw [budgets, hslots, map_map, hsame]
    exact hq.nodup
  all_goals
    intro slot hslot
    obtain ⟨old, hold, rfl⟩ := hmem slot hslot
    obtain ⟨hheld, hpass, htie⟩ := hrank old hold
    rw [hbudget]
    assumption

theorem Ranked.record (hq : q.Ranked) (hs : s.queued = (q.state b).queued) :
    (q.record b s).Ranked := by
  rw [hq.record_eq hs]
  apply hq.of_map rfl
  · intro slot
    split <;> rfl
  · intro slot hslot
    by_cases hb : slot.budget = b
    · subst hb
      simp only [update_self, if_true, hs, hq.held slot hslot, and_self]
    · simp only [update_of_ne hb, if_neg hb]
      exact ⟨hq.held slot hslot, hq.pass_eq slot hslot, hq.tie_eq slot hslot⟩

theorem Ranked.requeue (hq : q.Ranked) : (q.requeue b).Ranked := by
  apply hq.of_map rfl
  · intro slot
    split <;> rfl
  · intro slot hslot
    rw [Board.requeue]
    by_cases hslotb : slot.budget = b
    · subst hslotb
      simp only [setState, update_self, if_true, editSlot, and_self]
    · simp only [setState, editSlot, update_of_ne hslotb, if_neg hslotb]
      exact ⟨hq.held slot hslot, hq.pass_eq slot hslot, hq.tie_eq slot hslot⟩

theorem Ranked.takeOut (hq : q.Ranked) {next : Board}
    (hslots : next.slots = takeOut b q.slots)
    (hstate : ∀ x, x ≠ b → next.state x = q.state x) : next.Ranked := by
  have hmem : ∀ slot ∈ next.slots, slot ∈ q.slots ∧ slot.budget ≠ b := by
    intro slot hslot
    rw [hslots] at hslot
    exact (mem_takeOut hq.nodup).mp hslot
  constructor
  · rw [budgets, hslots]
    exact nodup_takeOut hq.nodup
  · intro slot hslot
    obtain ⟨hold, hne⟩ := hmem slot hslot
    rw [hstate _ hne, hq.held slot hold]
  · intro slot hslot
    obtain ⟨hold, hne⟩ := hmem slot hslot
    rw [hstate _ hne, hq.pass_eq slot hold]
  · intro slot hslot
    obtain ⟨hold, hne⟩ := hmem slot hslot
    rw [hstate _ hne, hq.tie_eq slot hold]

theorem Ranked.leave (hq : q.Ranked) : (q.leave b).Ranked := by
  rw [leave_eq hq.nodup]
  exact hq.takeOut rfl fun x hx => update_of_ne hx _ _

theorem Ranked.wake (hq : q.Ranked) (hout : (q.state b).queued = false) {n : ℕ}
    {next : Board}
    (hwake : q.wake b n = some next) : next.Ranked := by
  have habsent := hq.notMem hout
  rw [wake_eq habsent] at hwake
  split at hwake
  · contradiction
  · rw [Option.some.injEq] at hwake
    subst hwake
    have hne : ∀ slot ∈ q.slots, slot.budget ≠ b := fun slot hslot heq =>
      habsent (mem_budgets.mpr ⟨slot, hslot, heq⟩)
    constructor
    · rw [budgets, map_append]
      apply hq.nodup.append (nodup_singleton _)
      rw [disjoint_singleton]
      exact habsent
    all_goals
      intro slot hslot
      rcases mem_append.mp hslot with hslot | hslot
    · simp only [update_of_ne (hne slot hslot), hq.held slot hslot]
    · rw [mem_singleton.mp hslot]
      simp only [wakeSlot, update_self]
    · simp only [update_of_ne (hne slot hslot), hq.pass_eq slot hslot]
    · rw [mem_singleton.mp hslot]
      simp only [wakeSlot, update_self]
    · simp only [update_of_ne (hne slot hslot), hq.tie_eq slot hslot]
    · rw [mem_singleton.mp hslot]
      simp only [wakeSlot, update_self]

/-! ### The minimum is watched -/

theorem holdsLow_of_mem {slot : Slot} (hslot : slot ∈ q.slots)
    (hlow : slot.pass ≤ q.floor) :
    q.holdsLow slot.budget = true := by
  rw [holdsLow, any_eq_true]
  exact ⟨slot, hslot, by simpa [atFloor] using hlow⟩

theorem Watched.record (hw : q.Watched) (hq : q.Ranked)
    (hs : s.queued = (q.state b).queued) : (q.record b s).Watched := by
  rw [hq.record_eq hs]
  rcases hw with hpending | hempty | ⟨slot, hslot, hlow⟩
  · exact Or.inl (by simp [hpending])
  · exact Or.inr (Or.inl (by simp [hempty]))
  · by_cases hb : slot.budget = b
    · subst hb
      by_cases hrise : (q.state slot.budget).pass < s.pass
      · exact Or.inl (by simp [holdsLow_of_mem hslot hlow, hrise])
      · refine Or.inr (Or.inr ⟨_, mem_map_of_mem hslot, ?_⟩)
        rw [if_pos rfl]
        rw [hq.pass_eq slot hslot] at hlow
        exact (Nat.le_of_not_lt hrise).trans hlow
    · refine Or.inr (Or.inr ⟨_, mem_map_of_mem hslot, ?_⟩)
      rw [if_neg hb]
      exact hlow

theorem Watched.requeue (hw : q.Watched) (hq : q.Ranked) : (q.requeue b).Watched := by
  rcases hw with hpending | hempty | ⟨slot, hslot, hlow⟩
  · exact Or.inl hpending
  · exact Or.inr (Or.inl (by simp [Board.requeue, editSlot, setState, hempty]))
  · refine Or.inr (Or.inr ⟨_, mem_map_of_mem hslot, ?_⟩)
    split
    · rename_i hb
      subst hb
      rw [← hq.pass_eq slot hslot]
      exact hlow
    · exact hlow

theorem Watched.takeOut (hw : q.Watched) (hq : q.Ranked) {next : Board}
    (hslots : next.slots = takeOut b q.slots) (hfloor : next.floor = q.floor)
    (hpending : next.pending = (q.pending || q.holdsLow b)) : next.Watched := by
  rcases hw with hwas | hempty | ⟨slot, hslot, hlow⟩
  · exact Or.inl (by rw [hpending, hwas, Bool.true_or])
  · exact Or.inr (Or.inl (by rw [hslots, hempty]; rfl))
  · by_cases hb : slot.budget = b
    · subst hb
      exact Or.inl (by rw [hpending, holdsLow_of_mem hslot hlow, Bool.or_true])
    · refine Or.inr (Or.inr ⟨slot, ?_, hfloor ▸ hlow⟩)
      rw [hslots]
      exact (mem_takeOut hq.nodup).mpr ⟨hslot, hb⟩

theorem Watched.leave (hw : q.Watched) (hq : q.Ranked) : (q.leave b).Watched := by
  rw [leave_eq hq.nodup]
  exact hw.takeOut hq rfl rfl rfl

/-- Wakes keep the watch once an empty queue is pending. -/
theorem Watched.wake (hw : q.Watched) (hq : q.Ranked)
    (hout : (q.state b).queued = false)
    (hempty : q.slots = [] → q.pending = true) {n : ℕ} {next : Board}
    (hwake : q.wake b n = some next) :
    next.Watched ∧ (next.slots = [] → next.pending = true) := by
  rw [wake_eq (hq.notMem hout)] at hwake
  split at hwake
  · contradiction
  · rw [Option.some.injEq] at hwake
    subst hwake
    refine ⟨?_, fun h => absurd h (by simp)⟩
    rcases hw with hpending | hnone | ⟨slot, hslot, hlow⟩
    · exact Or.inl hpending
    · exact Or.inl (hempty hnone)
    · exact Or.inr (Or.inr ⟨slot, mem_append_left _ hslot, hlow⟩)

/-- The floor one hart raises to: the minimum queued pass. -/
def lowest (q : Board) : ℕ :=
  match (q.slots.map pass).min? with
  | some least => max q.floor least
  | none => q.floor

theorem floor_le_lowest : q.floor ≤ q.lowest := by
  rw [lowest]
  split
  · exact le_max_left _ _
  · exact le_refl _

theorem lowest_le {slot : Slot} (hslot : slot ∈ q.slots) :
    q.lowest ≤ max q.floor slot.pass := by
  have hpass : slot.pass ∈ q.slots.map pass := mem_map_of_mem hslot
  rw [lowest]
  cases hmin : (q.slots.map pass).min? with
  | none => rw [min?_eq_none_iff.mp hmin] at hpass; contradiction
  | some least =>
    exact max_le_max_left _ ((min?_eq_some_iff.mp hmin).2 _ hpass)

theorem exists_le_lowest (hslots : q.slots ≠ []) :
    ∃ slot ∈ q.slots, slot.pass ≤ q.lowest := by
  rw [lowest]
  cases hmin : (q.slots.map pass).min? with
  | none => simp [hslots] at hmin
  | some least =>
    obtain ⟨slot, hslot, rfl⟩ := mem_map.mp (min?_eq_some_iff.mp hmin).1
    exact ⟨slot, hslot, le_max_right _ _⟩

/-- No budget is capped at one hart. -/
def Uncapped (q : Board) : Prop := ∀ slot ∈ q.slots, slot.capped = false

/-- At one hart a raise takes the floor to the minimum pass, whether it compares
the passes or skips them. -/
theorem raiseFloor_one (hone : q.harts = 1) (hcap : q.Uncapped) (hw : q.Watched) :
    q.raiseFloor = { q with pending := false, floor := q.lowest } := by
  have hholds : q.slots.filter q.holdsFloor = q.slots := by
    rw [filter_eq_self]
    intro slot hslot
    simp [holdsFloor, hasThread, hone, hcap slot hslot]
  rw [raiseFloor, if_neg (by omega)]
  split
  · rw [riseFloor, raised, hholds, lowest]
    cases hmin : (q.slots.map pass).min? with
    | some least => rfl
    | none => simp [map_eq_nil_iff.mp (min?_eq_none_iff.mp hmin)]
  · rename_i hpending
    rw [Bool.not_eq_true] at hpending
    have hlow : q.lowest = q.floor := by
      apply le_antisymm _ floor_le_lowest
      rcases hw with h | hempty | ⟨slot, hslot, hlow⟩
      · rw [hpending] at h
        contradiction
      · simp [lowest, hempty]
      · exact (lowest_le hslot).trans (by rw [Nat.max_eq_left hlow])
    rw [hlow, ← hpending]

end Redoubt.Stride.Board
