import Redoubt.Sched.Level

/-!
# Shares at one hart

The runs of `Cpu` with fixed weights: time accrues to the running budget, the
CPU is switched off it or to the budget a pick chose, and reconciles take
budgets out and wake them.  Over such a run every pass stays within one charge
of the floor, so two budgets that stay queued are charged in proportion to
their weights.
-/

namespace Redoubt.Stride.Cpu

open Function

/-- One step of the CPU; the callbacks are whatever the kernel's tables say then. -/
inductive Op where
  | accrue (t : ℕ)
  | switchOff (stillRunnable : ℕ → Bool)
  | reconcile (lost gained : List ℕ) (runnable : ℕ → Bool)
  /-- An idle CPU picks, and goes to the budget picked. -/
  | dispatch (next : ℕ → Option ℕ)

/-- The CPU goes to the budget a pick chose, if it chose one. -/
def enter : Cpu × Option (ℕ × ℕ) → Cpu
  | (c, none) => c
  | (c, some (b, _)) => switch c (some b) fun _ => true

def apply (c : Cpu) : Op → Cpu
  | .accrue t => c.accrue t
  | .switchOff stillRunnable => c.switch none stillRunnable
  | .reconcile lost gained runnable => c.reconcile lost gained runnable
  | .dispatch next => if c.cur = none then enter (c.pick next) else c

/-- The runtime an operation charges to `b`. -/
def charges (c : Cpu) (op : Op) (b : ℕ) : ℕ :=
  match op with
  | .switchOff _ =>
    if c.cur = some b ∧ c.live b = true then
      min (max (c.runners 0).pending minCharge) runtimeCap
    else 0
  | _ => 0

/-- The CPU after a sequence of operations. -/
def run (c : Cpu) (ops : List Op) : Cpu := ops.foldl apply c

/-- The runtime charged to `b` over a sequence of operations. -/
def charged : Cpu → List Op → ℕ → ℕ
  | _, [], _ => 0
  | c, op :: rest, b => c.charges op b + charged (c.apply op) rest b

/-- Every switch off charges at most `S` ticks. -/
def Within (S : ℕ) : Cpu → List Op → Prop
  | _, [] => True
  | c, op :: rest => (∀ b, c.charges op b ≤ S) ∧ Within S (c.apply op) rest

/-- `b` is queued before, between and after the operations. -/
def StaysQueued (b : ℕ) : Cpu → List Op → Prop
  | c, [] => (c.state b).queued = true
  | c, op :: rest => (c.state b).queued = true ∧ StaysQueued b (c.apply op) rest

instance decidableStaysQueued (b : ℕ) : (c : Cpu) → (ops : List Op) →
    Decidable (StaysQueued b c ops)
  | c, [] => inferInstanceAs (Decidable ((c.state b).queued = true))
  | c, op :: rest =>
    have := decidableStaysQueued b (c.apply op) rest
    inferInstanceAs
      (Decidable ((c.state b).queued = true ∧ StaysQueued b (c.apply op) rest))

/-- A CPU at the start: nothing queued, nothing charged, these weights. -/
def start (capacity : ℕ) (limit carved : ℕ → ℕ) (live : ℕ → Bool) : Cpu where
  capacity := capacity
  limit := limit
  carved := carved
  live := live

variable {c : Cpu} {S b : ℕ}

/-- The queue is at rest, and what runs is queued at the floor. -/
structure Fair (S : ℕ) (c : Cpu) : Prop where
  rest : c.toBoard.Rest S
  current : ∀ b, c.cur = some b → (c.state b).queued = true ∧ (c.state b).pass ≤ c.floor

theorem fair_start (S capacity : ℕ) (limit carved : ℕ → ℕ) (live : ℕ → Bool) :
    Fair S (start capacity limit carved live) := by
  refine ⟨⟨⟨rfl, ⟨List.nodup_nil, ?_, ?_, ?_⟩, ?_, ?_, ?_, fun b => Nat.zero_le _, ?_⟩,
    rfl,
    Or.inr (Or.inl rfl)⟩, ?_⟩
  all_goals simp [start, Board.Uncapped, cur]

/-- What one operation does to the passes: the floor never falls, the weights
stay, and a budget queued before and after gains exactly the work charged. -/
structure Charged (c : Cpu) (op : Op) : Prop where
  floor_le : c.floor ≤ (c.apply op).floor
  weight_eq : (c.apply op).weight = c.weight
  work : ∀ b, 0 < c.weight b → (c.state b).queued = true →
    ((c.apply op).state b).queued = true →
    c.weight b * ((c.apply op).state b).pass + ((c.apply op).state b).rem =
      c.weight b * (c.state b).pass + (c.state b).rem + c.charges op b * stride

theorem running_eq (hone : c.harts = 1) (b : ℕ) :
    c.running b = decide (c.cur = some b) := by
  rw [Harts.running, hone, cur, List.range_one, List.any_cons, List.any_nil,
    Bool.or_false]

theorem ranBy_one {q : Board} (hone : q.harts = 1) (b : ℕ) (more : Bool) :
    q.ranBy b more = q := by
  rw [Board.ranBy, Board.recount, if_pos hone]

theorem Fair.accrue (hc : Fair S c) (t : ℕ) :
    Fair S (c.apply (.accrue t)) ∧ Charged c (.accrue t) := by
  refine ⟨⟨hc.rest, ?_⟩, le_refl _, rfl, fun b _ _ _ => ?_⟩
  · intro b hb
    apply hc.current b
    simpa [apply, Cpu.accrue, Harts.accrue, Harts.setRunner, cur] using hb
  · have hnone : c.charges (.accrue t) b = 0 := rfl
    rw [hnone, zero_mul]
    rfl

theorem Fair.reconcile (hc : Fair S c) (lost gained : List ℕ) (runnable : ℕ → Bool) :
    Fair S (c.apply (.reconcile lost gained runnable)) ∧
      Charged c (.reconcile lost gained runnable) := by
  obtain ⟨hrest, hfloor, hweight, hstate⟩ :=
    hc.rest.reconcileCounted c.running lost gained
    fun b => if runnable b then 1 else 0
  have hboard : (c.apply (.reconcile lost gained runnable)).toBoard =
      c.toBoard.reconcileCounted c.running lost gained fun b => if runnable b then 1
        else 0 := rfl
  rw [← hboard] at hrest hfloor hweight hstate
  refine ⟨⟨hrest, ?_⟩, hfloor, hweight, ?_⟩
  · intro b hb
    have hcur : c.cur = some b := hb
    obtain ⟨hqueued, hlow⟩ := hc.current b hcur
    have hruns : c.running b = true := by
      rw [running_eq hc.rest.one]
      exact decide_eq_true hcur
    rw [hstate b hqueued (Or.inl hruns)]
    exact ⟨hqueued, hlow.trans hfloor⟩
  · intro b _ hbefore hafter
    have hnone : c.charges (.reconcile lost gained runnable) b = 0 := rfl
    rw [hstate b hbefore (Or.inr hafter), hnone, zero_mul, add_zero]

theorem runnerOf_idle {w : Harts} (hone : w.harts = 1)
    (hidle : (w.runners 0).cur = none) (b : ℕ) :
    w.runnerOf b = none := by
  rw [Harts.runnerOf, hone, List.find?_eq_none]
  intro h hh
  rw [List.mem_singleton.mp hh, hidle]
  simp

variable {x : ℕ}

/-- What switching the CPU off does: the runner is charged and descheduled. -/
theorem apply_switchOff (hone : c.harts = 1) (hcur : c.cur = some x)
    (hlive : c.live x = true) (still : ℕ → Bool) :
    c.apply (.switchOff still) =
      { toBoard := { ({ c.toBoard with leaving := none }.fold x
          (max (c.runners 0).pending minCharge)).deschedule x (still x) with
          leaving := none }
        runners := update (update c.runners 0 {}) 0 {} } := by
  have hcur' : (c.runners 0).cur = some x := hcur
  have hidle : ((c.setRunner 0 {}).onQueue fun q => q.ranBy x false).runnerOf x =
      none := by
    apply runnerOf_idle
    · rw [Harts.onQueue, ranBy_one (q := (c.setRunner 0 {}).toBoard) hone]
      exact hone
    · exact congrArg Runner.cur (update_self 0 {} c.runners)
  rw [apply, switch, Harts.switch, if_neg (by rw [hcur']; simp)]
  simp only [hcur', hlive, if_true, Harts.takeOff, hidle, Option.isSome_none,
    Bool.false_or]
  simp only [Harts.onQueue, Harts.setRunner, ranBy_one hone,
    Bool.false_eq_true, if_false]

theorem apply_switchOff_dead (hone : c.harts = 1) (hcur : c.cur = some x)
    (hdead : c.live x = false) (still : ℕ → Bool) :
    (c.apply (.switchOff still)).toBoard = c.toBoard := by
  have hcur' : (c.runners 0).cur = some x := hcur
  rw [apply, switch, Harts.switch]
  simp only [hcur', hdead]
  exact ranBy_one hone x false

theorem apply_switchOff_idle (hcur : c.cur = none) (still : ℕ → Bool) :
    c.apply (.switchOff still) = c := by
  have hcur' : (c.runners 0).cur = none := hcur
  rw [apply, switch, Harts.switch, if_pos hcur'.symm]

theorem cur_switchOff (still : ℕ → Bool) : (c.apply (.switchOff still)).cur = none := by
  rw [apply, switch, Harts.switch]
  split
  · rename_i h
    exact h.symm
  · simp [cur, Harts.setRunner]

theorem Fair.switchOff (hc : Fair S c) (still : ℕ → Bool)
    (hrun : ∀ b, c.charges (.switchOff still) b ≤ S) :
    Fair S (c.apply (.switchOff still)) ∧ Charged c (.switchOff still) := by
  have hidle : ∀ b, (c.apply (.switchOff still)).cur = some b → False := by
    intro b hb
    rw [cur_switchOff] at hb
    contradiction
  cases hcur : c.cur with
  | none =>
    have hnone : ∀ b, c.charges (.switchOff still) b = 0 := by
      intro b
      rw [charges, hcur, if_neg (by simp)]
    have hsame := apply_switchOff_idle hcur still
    refine ⟨hsame.symm ▸ hc, ?_, ?_, ?_⟩
    · rw [hsame]
    · rw [hsame]
    · intro b _ _ _
      rw [hsame, hnone, zero_mul, add_zero]
  | some x =>
    obtain ⟨hqueued, hlow⟩ := hc.current x hcur
    cases hlive : c.live x with
    | false =>
      have hsame := apply_switchOff_dead hc.rest.one hcur hlive still
      have hnone : ∀ b, c.charges (.switchOff still) b = 0 := by
        intro b
        rw [charges, hcur, if_neg]
        rintro ⟨hb, hblive⟩
        rw [← Option.some.inj hb, hlive] at hblive
        contradiction
      refine ⟨⟨hsame.symm ▸ hc.rest, fun b hb => (hidle b hb).elim⟩, ?_, ?_, ?_⟩
      · rw [hsame]
      · rw [hsame]
      · intro b _ _ _
        rw [hsame, hnone, zero_mul, add_zero]
    | true =>
      have hpaid := hrun x
      rw [charges, if_pos ⟨hcur, hlive⟩] at hpaid
      have hstay : ({ c.toBoard with leaving := none } : Board).Rest S :=
        hc.rest.congr rfl rfl rfl rfl rfl rfl
      obtain ⟨hfold, hfloor, hweight, hstate⟩ := hstay.fold hlow hpaid
      have hqueued' : ((({ c.toBoard with leaving := none } : Board).fold x
          (max (c.runners 0).pending minCharge)).state x).queued = true := by
        rw [hstate, update_self, charge_queued]
        exact hqueued
      obtain ⟨hoff, hfloor', hweight', hpass, hrem, hothers, -⟩ :=
        hfold.deschedule hqueued' (still x)
      have hafter := apply_switchOff hc.rest.one hcur hlive still
      have hidle' := hidle
      rw [hafter] at hidle' ⊢
      refine ⟨⟨hoff.congr rfl rfl rfl rfl rfl rfl, fun b hb => (hidle' b hb).elim⟩, ?_,
        ?_, ?_⟩
      · rw [hafter]
        exact hfloor.trans hfloor'
      · rw [hafter]
        exact hweight'.trans hweight
      · intro b hw _ _
        rw [hafter]
        by_cases hb : b = x
        · subst hb
          rw [charges, if_pos ⟨hcur, hlive⟩]
          rw [hpass, hrem, hstate, update_self]
          exact charge_work _ hw _
        · have hnone : c.charges (.switchOff still) b = 0 := by
            rw [charges, if_neg]
            rintro ⟨hbcur, -⟩
            exact hb (Option.some.inj (hbcur.symm.trans hcur))
          rw [hothers b hb, hstate, update_of_ne hb, hnone, zero_mul, add_zero]

/-- What an idle CPU's pick leaves: it takes out budgets with nothing to run and
changes no other state, and the budget picked is at the floor. -/
structure PicksLow (S : ℕ) (c : Cpu) (picked : Cpu × Option (ℕ × ℕ)) : Prop where
  rest : picked.1.toBoard.Rest S
  runners_eq : picked.1.runners = c.runners
  floor_le : c.floor ≤ picked.1.floor
  weight_eq : picked.1.weight = c.weight
  state : ∀ b, picked.1.state b = c.state b ∨ (picked.1.state b).queued = false
  low : ∀ b t, picked.2 = some (b, t) →
    (picked.1.state b).queued = true ∧ (picked.1.state b).pass ≤ picked.1.floor

theorem pickLoop_low (next : ℕ → Option ℕ) (fuel : ℕ) (hrest : c.toBoard.Rest S)
    (hidle : (c.runners 0).cur = none) :
    PicksLow S c (Harts.pickLoop next fuel [] c) := by
  induction fuel generalizing c with
  | zero =>
    exact ⟨hrest, rfl, le_refl _, rfl, fun x => Or.inl rfl, by simp [Harts.pickLoop]⟩
  | succ fuel ih =>
    rw [Harts.pickLoop]
    cases hpick : c.toBoard.pick (c.passedOver []) with
    | none => exact ⟨hrest, rfl, le_refl _, rfl, fun x => Or.inl rfl, by simp⟩
    | some b =>
      obtain ⟨hqueued, hlow⟩ := hrest.pick_low (fun _ => rfl) hpick
      cases hnext : next b with
      | some t =>
        simp only [hnext]
        refine ⟨hrest, rfl, le_refl _, rfl, fun x => Or.inl rfl, ?_⟩
        intro x t' hx
        simp only [Option.some.injEq, Prod.mk.injEq] at hx
        rw [← hx.1]
        exact ⟨hqueued, hlow⟩
      | none =>
        simp only [hnext, runnerOf_idle hrest.one hidle]
        obtain ⟨hoff, hfloor, hweight, -, -, hothers, hout⟩ :=
          hrest.deschedule hqueued false
        have hpicked := ih (c := c.onQueue fun q => q.deschedule b false) hoff hidle
        refine ⟨hpicked.rest, hpicked.runners_eq, hfloor.trans hpicked.floor_le,
          hpicked.weight_eq.trans hweight, ?_, hpicked.low⟩
        intro x
        rcases hpicked.state x with hsame | hgone
        · rw [hsame]
          by_cases hx : x = b
          · subst hx
            exact Or.inr hout
          · exact Or.inl (hothers x hx)
        · exact Or.inr hgone

/-- Switching an idle CPU on changes nothing but the runner. -/
theorem enter_eq {picked : Cpu × Option (ℕ × ℕ)} (hone : picked.1.harts = 1)
    (hidle : (picked.1.runners 0).cur = none) :
    (enter picked).toBoard = picked.1.toBoard ∧
      ∀ b, (enter picked).cur = some b → ∃ t, picked.2 = some (b, t) := by
  obtain ⟨c, _ | ⟨b, t⟩⟩ := picked
  · exact ⟨rfl, fun b hb => absurd (hidle.symm.trans hb) (by simp)⟩
  · have hidle : (c.runners 0).cur = none := hidle
    rw [enter, switch, Harts.switch]
    simp only [hidle]
    refine ⟨ranBy_one hone b true, fun x hx => ⟨t, ?_⟩⟩
    have hcur : some b = some x := by
      simpa [cur, Harts.onQueue, Harts.setRunner] using hx
    rw [Option.some.inj hcur]

theorem Fair.dispatch (hc : Fair S c) (next : ℕ → Option ℕ) :
    Fair S (c.apply (.dispatch next)) ∧ Charged c (.dispatch next) := by
  have hnone : ∀ b, c.charges (.dispatch next) b = 0 := fun _ => rfl
  cases hcur : c.cur with
  | some x =>
    have hsame : c.apply (.dispatch next) = c := by
      rw [apply, hcur, if_neg (by simp)]
    refine ⟨hsame.symm ▸ hc, ?_, ?_, ?_⟩
    · rw [hsame]
    · rw [hsame]
    · intro b _ _ _
      rw [hsame, hnone, zero_mul, add_zero]
  | none =>
    have happly : c.apply (.dispatch next) = enter (c.pick next) := by
      rw [apply, hcur, if_pos rfl]
    obtain ⟨hrest, hrunners, hfloor, hweight, hstate, hpicked⟩ :
        PicksLow S c (c.pick next) :=
          pickLoop_low next (c.slots.length + 1) hc.rest hcur
    obtain ⟨hboard, hcurrent⟩ := enter_eq hrest.one (hrunners ▸ hcur)
    rw [← happly] at hboard hcurrent
    rw [← hboard] at hrest hfloor hweight hstate hpicked
    refine ⟨⟨hrest, ?_⟩, hfloor, hweight, ?_⟩
    · intro b hb
      obtain ⟨t, ht⟩ := hcurrent b hb
      exact hpicked b t ht
    · intro b _ _ hafter
      rcases hstate b with hsame | hgone
      · rw [hsame, hnone, zero_mul, add_zero]
      · rw [hgone] at hafter
        contradiction

theorem Fair.apply (hc : Fair S c) (op : Op) (hrun : ∀ b, c.charges op b ≤ S) :
    Fair S (c.apply op) ∧ Charged c op := by
  cases op with
  | accrue t => exact hc.accrue t
  | switchOff still => exact hc.switchOff still hrun
  | reconcile lost gained runnable => exact hc.reconcile lost gained runnable
  | dispatch next => exact hc.dispatch next

variable {ops : List Op}

theorem Fair.run (hc : Fair S c) (hrun : Within S c ops) : Fair S (c.run ops) := by
  induction ops generalizing c with
  | nil => exact hc
  | cons op rest ih => exact ih (hc.apply op hrun.1).1 hrun.2

/-- Over an interval in which `b` stays queued it gains exactly the work charged. -/
theorem Fair.work (hc : Fair S c) (hrun : Within S c ops)
    (hb : StaysQueued b c ops) (hw : 0 < c.weight b) :
    (c.run ops).weight = c.weight ∧
      c.weight b * ((c.run ops).state b).pass + ((c.run ops).state b).rem =
        c.weight b * (c.state b).pass + (c.state b).rem + charged c ops b * stride := by
  induction ops generalizing c with
  | nil => simp [Cpu.run, charged]
  | cons op rest ih =>
    obtain ⟨hnext, hstep⟩ := hc.apply op hrun.1
    have hafter : ((c.apply op).state b).queued = true := by
      cases rest with
      | nil => exact hb.2
      | cons => exact hb.2.1
    rw [← hstep.weight_eq] at hw
    obtain ⟨hweight, hwork⟩ := ih hnext hrun.2 hb.2 hw
    rw [hstep.weight_eq] at hweight hwork hw
    have hone := hstep.work b hw hb.1 hafter
    refine ⟨hweight, ?_⟩
    rw [charged, add_mul]
    change c.weight b * (((c.apply op).run rest).state b).pass +
      (((c.apply op).run rest).state b).rem = _
    omega

theorem StaysQueued.first (hb : StaysQueued b c ops) : (c.state b).queued = true := by
  cases ops with
  | nil => exact hb
  | cons => exact hb.1

theorem StaysQueued.last (hb : StaysQueued b c ops) :
    ((c.run ops).state b).queued = true := by
  induction ops generalizing c with
  | nil => exact hb
  | cons op rest ih => exact ih hb.2

/-- The work charged for each unit of weight, from the passes at both ends. -/
theorem share_eq {w p₀ r₀ p₁ r₁ : ℕ} (hw : 0 < w)
    (hwork : w * p₁ + r₁ = w * p₀ + r₀ + x * stride) :
    ((x * stride : ℕ) : ℚ) / w = (p₁ - p₀) + (r₁ - r₀) / w := by
  have hcast : (w : ℚ) * p₁ + r₁ = w * p₀ + r₀ + (x * stride : ℕ) := by
    exact_mod_cast hwork
  field_simp
  linarith

/-- A remainder below the weight is less than one step of the pass. -/
theorem abs_rem_le {w r₀ r₁ : ℕ} (h₀ : r₀ < w) (h₁ : r₁ < w) :
    |((r₁ : ℚ) - r₀) / w| ≤ 1 := by
  have hw : (0 : ℚ) < w := Nat.cast_pos.mpr (Nat.zero_lt_of_lt h₀)
  have h₀' : (r₀ : ℚ) ≤ w := by exact_mod_cast h₀.le
  have h₁' : (r₁ : ℚ) ≤ w := by exact_mod_cast h₁.le
  rw [abs_div, abs_of_pos hw, div_le_one hw, abs_le]
  constructor <;> linarith

/-- A budget that stays queued is charged, for each unit of its weight, what the
floor rose, give or take its lead and one step. -/
theorem Fair.share (hc : Fair S c) (hrun : Within S c ops)
    (hb : StaysQueued b c ops) (hw : 0 < c.weight b) :
    |((charged c ops b * stride : ℕ) : ℚ) / c.weight b -
      ((c.run ops).floor - c.floor)| ≤
      lead S (c.weight b) + 1 := by
  obtain ⟨hweight, hwork⟩ := hc.work hrun hb hw
  have hend := hc.run hrun
  have hlow₀ := hc.rest.floor_le hb.first
  have hlow₁ := hend.rest.floor_le hb.last
  have hhigh₀ := hc.rest.high b
  have hhigh₁ := hend.rest.high b
  have hrem₀ := hc.rest.rem b
  have hrem₁ := hend.rest.rem b
  rw [hweight] at hhigh₁ hrem₁
  rw [Nat.max_eq_left hw] at hrem₀ hrem₁
  have hrem := abs_le.mp (abs_rem_le hrem₀ hrem₁)
  rw [share_eq hw hwork, abs_le]
  qify at hlow₀ hlow₁ hhigh₀ hhigh₁
  constructor <;> linarith [hrem.1, hrem.2]

theorem within_append {before during : List Op} (hrun : Within S c (before ++ during)) :
    Within S c before ∧ Within S (c.run before) during := by
  induction before generalizing c with
  | nil => exact ⟨trivial, hrun⟩
  | cons op rest ih =>
    obtain ⟨hrest, hduring⟩ := ih hrun.2
    exact ⟨⟨hrun.1, hrest⟩, hduring⟩

theorem Fair.weight_run (hc : Fair S c) (hrun : Within S c ops) :
    (c.run ops).weight = c.weight := by
  induction ops generalizing c with
  | nil => rfl
  | cons op rest ih =>
    obtain ⟨hnext, hstep⟩ := hc.apply op hrun.1
    exact (ih hnext hrun.2).trans hstep.weight_eq

/-- Stride fairness at one hart.  In every run from the start in which each
switch off charges at most `S` ticks, no budget leads the floor by more than one
such charge; and over any interval in which two budgets stay queued, whatever the
others do, they are charged in proportion to their weights up to a constant. -/
theorem passes_near_floor_and_shares_fair (S capacity : ℕ) (limit carved : ℕ → ℕ)
    (live : ℕ → Bool) (before during : List Op)
    (hrun : Within S (start capacity limit carved live) (before ++ during)) :
    (∀ b, (((start capacity limit carved live).run (before ++ during)).state b).pass ≤
      ((start capacity limit carved live).run (before ++ during)).floor +
        S * stride / (limit b - carved b) + 1) ∧
    ∀ i j, 0 < limit i - carved i → 0 < limit j - carved j →
      StaysQueued i ((start capacity limit carved live).run before) during →
      StaysQueued j ((start capacity limit carved live).run before) during →
      |((charged ((start capacity limit carved live).run before) during i *
            stride : ℕ) : ℚ) / (limit i - carved i : ℕ) -
          ((charged ((start capacity limit carved live).run before) during j *
            stride : ℕ) : ℚ) / (limit j - carved j : ℕ)| ≤
        (2 * (S * stride / (limit i - carved i) +
          S * stride / (limit j - carved j) + 4) : ℕ) := by
  have hstart := fair_start S capacity limit carved live
  obtain ⟨hbefore, hduring⟩ := within_append hrun
  have hmid := hstart.run hbefore
  have hweight := hstart.weight_run hbefore
  have hend := hstart.weight_run hrun
  constructor
  · intro b
    have hhigh := (hstart.run hrun).rest.high b
    have hwb : (start capacity limit carved live).weight b = limit b - carved b := rfl
    rw [hend, lead, ← add_assoc] at hhigh
    exact hhigh
  · intro i j hi hj hqi hqj
    have hsharei := hmid.share hduring hqi (by rw [hweight]; exact hi)
    have hsharej := hmid.share hduring hqj (by rw [hweight]; exact hj)
    rw [hweight] at hsharei hsharej
    have hwi : (start capacity limit carved live).weight i = limit i - carved i := rfl
    have hwj : (start capacity limit carved live).weight j = limit j - carved j := rfl
    rw [hwi, lead] at hsharei
    rw [hwj, lead] at hsharej
    push_cast at hsharei hsharej ⊢
    rw [abs_le] at hsharei hsharej ⊢
    constructor <;> linarith [hsharei.1, hsharei.2, hsharej.1, hsharej.2]

/-- Budgets 1 and 2, of weights 3 and 1, woken together. -/
def pairStart : Cpu := start 4 (fun b => if b = 1 then 3 else 1)
      (fun _ => 0) fun _ => true

def pairWake : List Op := [.reconcile [] [1, 2] fun _ => true]

/-- Budget 1 runs for 2 ticks. -/
def pairRun : List Op := [.dispatch some, .accrue 2, .switchOff fun _ => true]

theorem pairRun_within : Within 2 pairStart (pairWake ++ pairRun) := by
  refine ⟨fun b => Nat.zero_le _, fun b => Nat.zero_le _,
    fun b => Nat.zero_le _, ?_, trivial⟩
  intro b
  rw [charges]
  split
  · decide +kernel
  · exact Nat.zero_le _

theorem pairRun_shares :
    |((charged (pairStart.run pairWake) pairRun 1 * stride : ℕ) : ℚ) / (3 - 0 : ℕ) -
        ((charged (pairStart.run pairWake) pairRun 2 * stride : ℕ) : ℚ) / (1 - 0 : ℕ)| ≤
      (2 * (2 * stride / (3 - 0) + 2 * stride / (1 - 0) + 4) : ℕ) ∧
    charged (pairStart.run pairWake) pairRun 1 = 2 := by
  refine ⟨?_, by decide +kernel⟩
  exact (passes_near_floor_and_shares_fair 2 4 (fun b => if b = 1 then 3 else 1)
    (fun _ => 0)
    (fun _ => true) pairWake pairRun pairRun_within).2 1 2 (by decide) (by decide)
    (by decide +kernel) (by decide +kernel)

/-- At rest the raise that is not pending would change nothing. -/
theorem forced {q : Board} (hq : q.Rest S) :
    { q with pending := true }.raiseFloor = q := by
  have hlowest : q.lowest = q.floor := by
    have hraised :=
      congrArg Board.floor (Board.raiseFloor_one hq.one hq.uncapped hq.watched)
    rw [Board.raiseFloor, if_neg (by simp [hq.one]),
      if_neg (by simp [hq.settled])] at hraised
    exact hraised.symm
  rw [Board.raiseFloor_one (q := { q with pending := true }) hq.one
    hq.uncapped (.inl rfl)]
  change { q with pending := false, floor := q.lowest } = q
  rw [hlowest, ← hq.settled]

theorem within_cap (c : Cpu) (ops : List Op) : Within runtimeCap c ops := by
  induction ops generalizing c with
  | nil => trivial
  | cons op rest ih =>
    refine ⟨fun b => ?_, ih _⟩
    cases op <;> simp only [charges, Nat.zero_le]
    split_ifs
    exacts [min_le_right _ _, Nat.zero_le _]

theorem Fair.floor_run (hc : Fair S c) (hrun : Within S c ops) :
    c.floor ≤ (c.run ops).floor := by
  induction ops generalizing c with
  | nil => exact le_rfl
  | cons op rest ih =>
    obtain ⟨hnext, hcharged⟩ := hc.apply op hrun.1
    exact hcharged.floor_le.trans (ih hnext hrun.2)

/-- At one hart the queue holds each queued budget once, at its own pass and tie; the
floor is the least pass queued, though it is compared only when a raise is pending, and
never falls. -/
theorem queue_exact (capacity : ℕ) (limit carved : ℕ → ℕ) (live : ℕ → Bool)
    (before during : List Op) :
    let c := (start capacity limit carved live).run before
    let d := c.run during
    d.budgets.Nodup ∧ (∀ b, (d.state b).queued = true ↔ b ∈ d.budgets) ∧
      (∀ slot ∈ d.slots, slot.pass = (d.state slot.budget).pass ∧
        slot.tie = (d.state slot.budget).tie) ∧
      (d.slots ≠ [] → IsLeast {pass | ∃ slot ∈ d.slots, slot.pass = pass} d.floor) ∧
      { d.toBoard with pending := true }.raiseFloor = d.toBoard ∧
      c.floor ≤ d.floor := by
  intro c d
  have hc : Fair runtimeCap c := (fair_start _ _ _ _ _).run (within_cap _ _)
  have hd : d.toBoard.Rest runtimeCap := (hc.run (within_cap c during)).rest
  refine ⟨hd.ranked.nodup, fun b => ⟨hd.queued b, fun hb => ?_⟩,
    fun slot hslot => ⟨hd.ranked.pass_eq slot hslot, hd.ranked.tie_eq slot hslot⟩,
    fun hsome => ?_, forced hd,
    hc.floor_run (within_cap c during)⟩
  · obtain ⟨slot, hslot, rfl⟩ := Board.mem_budgets.mp hb
    exact hd.ranked.held slot hslot
  · rcases hd.watched with hpending | hnone | ⟨slot, hslot, hlow⟩
    · exact absurd (hd.settled.symm.trans hpending) Bool.false_ne_true
    · exact absurd hnone hsome
    · refine ⟨⟨slot, hslot, hlow.antisymm (hd.low slot hslot)⟩, ?_⟩
      rintro _ ⟨other, hother, rfl⟩
      exact hd.low other hother

end Redoubt.Stride.Cpu
