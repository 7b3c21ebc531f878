import Redoubt.Kernel.Growth

/-!
# Preparing a delivery

`prepare` decides whether the receiving budget can pay for everything a message
brings, and only then charges it and installs the message's handles.  From the
decision on nothing may fail: the kernel stops if a handle is dropped.  What
mapping the buffer needs is an input here: `place` is the number of page-table
pages, or `none` if the receiver has no room for the buffer, and `emptied` the
number of the sender's page tables a transfer empties.
-/

namespace Redoubt

open Function Option

inductive MsgKind
  | call
  | send
deriving DecidableEq, Repr

/-- The part of a queued message that a delivery pays for. -/
structure Msg where
  kind : MsgKind
  bufPages : ℕ
  handles : List (Option Handle)

/-- The page an open call takes. -/
def openCallPages : ℕ := 1

/-- How a delivery ends: refused with nothing changed, delivered with an index
for each handle, or an assertion of the kernel failed. -/
inductive Prepared
  | refused
  | stopped
  | delivered (slots : List (Option ℕ)) (kernel : Kernel)

namespace Kernel

/-- A page for a process: charged to its budget and taken from RAM. -/
def allocPage (kernel : Kernel) (pid : ℕ) : Except Error Kernel := do
  let charged ← kernel.chargeFrame pid
  charged.allocObjectFrame

/-- The page tables that map a buffer, charged to the receiver. -/
def reserveBuffer (pid : ℕ) : ℕ → Kernel → Except Error Kernel
  | 0, kernel => .ok kernel
  | tables + 1, kernel => do
      let reserved ← kernel.allocPage pid
      reserveBuffer pid tables reserved

/-- A frame changes owner and payer; the old owner is uncharged first. -/
def moveFrame (kernel : Kernel) (source target : ℕ) : Except Error Kernel :=
  if source = target then
    .ok kernel
  else
    (kernel.unchargeFrame source).chargeFrame target

def moveFrames (source target : ℕ) : ℕ → Kernel → Except Error Kernel
  | 0, kernel => .ok kernel
  | pages + 1, kernel => do
      let moved ← kernel.moveFrame source target
      moveFrames source target pages moved

/-- Give the page tables of a process that were emptied back. -/
def freeTables (pid : ℕ) : ℕ → Kernel → Kernel
  | 0, kernel => kernel
  | tables + 1, kernel =>
    freeTables pid tables (kernel.unchargeFrame pid).freeObjectFrame

/-- A lend stays the sender's; a transfer changes owner and payer together. -/
def moveBuffer (kernel : Kernel) (spid rpid emptied : ℕ) (m : Msg) :
    Except Error Kernel :=
  match m.kind with
  | .call => .ok kernel
  | .send => do
      let moved ← moveFrames spid rpid m.bufPages kernel
      .ok (freeTables spid emptied moved)

/-- A message's copies of its handles move into a table, each keeping its place:
one that is no longer live is skipped.  The flag says whether any was dropped
for want of room. -/
def installHandles (pid : ℕ) : Kernel → List (Option Handle) →
    List (Option ℕ) × Bool × Kernel
  | kernel, [] => ([], false, kernel)
  | kernel, item :: rest =>
    match item.filter kernel.isLive with
    | none =>
      let later := installHandles pid kernel rest
      (none :: later.1, later.2)
    | some handle =>
      match kernel.installHandle pid handle with
      | .ok (index, after) =>
        let later := installHandles pid after rest
        (some index :: later.1, later.2)
      | .error _ =>
        let later := installHandles pid kernel rest
        (none :: later.1, true, later.2.2)

/-- What the message brings besides its handles' table pages, as the receiving
budget pays for it. -/
def bufferCost (kernel : Kernel) (spid rbudget : ℕ) (m : Msg) : ℕ :=
  match m.kind with
  | .call => m.bufPages
  | .send => if kernel.budgetOf spid = some rbudget then 0 else m.bufPages

def callCost (m : Msg) : ℕ :=
  match m.kind with
  | .call => openCallPages
  | .send => 0

/-- Everything that is charged before the handles are installed. -/
def chargeDelivery (kernel : Kernel) (spid rpid rbudget tables emptied : ℕ)
    (m : Msg) : Except Error Kernel := do
  let reserved ← reserveBuffer rpid tables kernel
  let charged ←
    match m.kind with
    | .call => reserved.charge rbudget (openCallPages + m.bufPages)
    | .send => .ok reserved
  charged.moveBuffer spid rpid emptied m

def prepare (kernel : Kernel) (rpid spid maxTransfer : ℕ) (place : Option ℕ)
    (emptied : ℕ) (m : Msg) : Prepared :=
  match kernel.budgetOf rpid with
  | none => .refused
  | some rbudget =>
    if m.kind = .send ∧ m.bufPages > maxTransfer then
      .refused
    else
      match if m.bufPages = 0 then some 0 else place with
      | none => .refused
      | some tables =>
        let live := m.handles.countP fun item => item.any kernel.isLive
        match kernel.tableGrowth rpid live with
        | none => .refused
        | some growth =>
          let need := growth + callCost m + kernel.bufferCost spid rbudget m + tables
          if need > kernel.freePages rbudget then
            .refused
          else
            match kernel.chargeDelivery spid rpid rbudget tables emptied m with
            | .error _ => .stopped
            | .ok charged =>
              let installed := installHandles rpid charged m.handles
              if installed.2.1 then
                .stopped
              else
                .delivered installed.1 installed.2.2

/-! ## Charging a delivery -/

/-- A process with a given table whose budget can still pay a number of
pages. -/
structure Ready (kernel : Kernel) (pid frame : ℕ) (table : HandleTable)
    (pages : ℕ) : Prop where
  account : ∃ account, kernel.accounts pid = some account ∧
    account.budget = frame ∧ account.handles = table
  counted : kernel.Counted
  free : pages ≤ kernel.freePages frame

/-- What charging frames leaves alone: the processes' budgets and tables, and
which handles are live. -/
structure Kept (before after : Kernel) : Prop where
  accounts : ∀ pid,
    (after.accounts pid).map (fun account => (account.budget, account.handles)) =
    (before.accounts pid).map fun account => (account.budget, account.handles)
  live : after.isLive = before.isLive

variable {kernel before middle after : Kernel} {pid frame : ℕ} {table : HandleTable}

theorem Kept.refl (kernel : Kernel) : Kept kernel kernel :=
  ⟨fun _ => rfl, rfl⟩

theorem Kept.trans (hfirst : Kept before middle) (hsecond : Kept middle after) :
    Kept before after :=
  ⟨fun pid => (hsecond.accounts pid).trans (hfirst.accounts pid),
    hsecond.live.trans hfirst.live⟩

theorem Kept.budgetOf (hkept : Kept before after) (pid : ℕ) :
    after.budgetOf pid = before.budgetOf pid := by
  have hmap := congrArg (Option.map Prod.fst) (hkept.accounts pid)
  rw [map_map, map_map] at hmap
  exact hmap

theorem Kept.account (hkept : Kept before after) {pid : ℕ} {account : Account}
    (haccount : after.accounts pid = some account) :
    ∃ old, before.accounts pid = some old ∧ old.budget = account.budget ∧
      old.handles = account.handles := by
  have hmap := hkept.accounts pid
  rw [haccount, map_some, eq_comm, map_eq_some_iff] at hmap
  obtain ⟨old, hold, heq⟩ := hmap
  simp only [Prod.mk.injEq] at heq
  exact ⟨old, hold, heq.1, heq.2⟩

theorem Kept.symm (hkept : Kept before after) : Kept after before :=
  ⟨fun pid => (hkept.accounts pid).symm, hkept.live.symm⟩

variable {pages : ℕ}

theorem Kept.ready {later : ℕ} (hkept : Kept before after)
    (hready : Ready before pid frame table pages)
    (hfree : later ≤ after.freePages frame) :
    Ready after pid frame table later := by
  obtain ⟨account, haccount, hbudget, htable⟩ := hready.account
  obtain ⟨same, hsame, hsameBudget, hsameTable⟩ := hkept.symm.account haccount
  refine ⟨⟨same, hsame, hsameBudget.trans hbudget, hsameTable.trans htable⟩, ?_, hfree⟩
  intro other account' haccount'
  obtain ⟨old, hold, -, hhandles⟩ := hkept.account haccount'
  exact hhandles ▸ hready.counted other old hold

theorem Ready.budgetOf (hready : Ready kernel pid frame table pages) :
    kernel.budgetOf pid = some frame := by
  obtain ⟨account, haccount, hbudget, -⟩ := hready.account
  rw [Kernel.budgetOf, haccount, map_some, hbudget]

theorem kept_modifyAccount (pid : ℕ) (f : ℕ → ℕ) :
    Kept kernel (kernel.modifyAccount pid fun account =>
      { account with frames := f account.frames }) := by
  refine ⟨fun other => ?_, rfl⟩
  by_cases hother : other = pid
  · subst hother
    simp only [modifyAccount, update_self, map_map]
    rfl
  · simp only [modifyAccount, update_of_ne hother]

theorem kept_ram (kernel : Kernel) (ram : ℕ) : Kept kernel { kernel with ram := ram } :=
  ⟨fun _ => rfl, rfl⟩

/-- Charging a frame to a process that can pay. -/
theorem chargeFrame_ok (hready : Ready kernel pid frame table (pages + 1)) :
    ∃ charged, kernel.chargeFrame pid = .ok charged ∧ Kept kernel charged ∧
      charged.ram = kernel.ram ∧ Ready charged pid frame table pages ∧
      charged.budget frame = { kernel.budget frame with
        pagesUsed := (kernel.budget frame).pagesUsed + 1 } := by
  have hone : 1 ≤ kernel.freePages frame := by
    have := hready.free
    omega
  obtain ⟨charged, hcharge, honly, haccounts⟩ := charge_ok hone
  have hkept : Kept kernel (charged.modifyAccount pid fun account =>
      { account with frames := account.frames + 1 }) :=
    Kept.trans ⟨fun _ => by rw [haccounts], honly.live⟩ (kept_modifyAccount pid (· + 1))
  refine ⟨_, ?_, hkept, honly.ram, hkept.ready hready ?_, ?_⟩
  · rw [chargeFrame, hready.budgetOf]
    simp only [hcharge, bind, Except.bind]
  · have hfree := hready.free
    simp only [freePages, modifyAccount, budget] at hfree ⊢
    have hbudget := honly.budget
    simp only [budget] at hbudget
    rw [hbudget]
    simp only [Pages.freePages] at hfree ⊢
    omega
  · exact honly.budget

/-- Uncharging a frame never takes from what a budget can pay. -/
theorem unchargeFrame_spec (source : ℕ) (hready : Ready kernel pid frame table pages) :
    Kept kernel (kernel.unchargeFrame source) ∧
      (kernel.unchargeFrame source).ram = kernel.ram ∧
      Ready (kernel.unchargeFrame source) pid frame table pages := by
  unfold unchargeFrame
  cases hsource : kernel.budgetOf source with
  | none => exact ⟨Kept.refl kernel, rfl, hready⟩
  | some payer =>
    have hkept := (@kept_modifyAccount kernel source (· - 1)).trans
      (show Kept _
        (modifyBudget _ payer fun b => { b with toPages := b.uncharge 1 }) from
        ⟨fun _ => rfl, isLive_modifyBudget payer fun _ => rfl⟩)
    refine ⟨hkept, rfl, hkept.ready hready ?_⟩
    refine hready.free.trans ?_
    simp only [freePages, budget, modifyBudget, modifyAccount]
    by_cases hpayer : frame = payer
    · subst hpayer
      rw [update_self]
      cases kernel.budgets frame with
      | none => exact le_refl _
      | some b =>
        simp only [map_some, getD_some, Pages.freePages, Pages.uncharge]
        omega
    · rw [update_of_ne hpayer]

variable {source : ℕ}

/-- A frame moves between two processes of one budget: what the budget can pay
and what it uses stay as they are. -/
theorem moveFrame_same (hready : Ready kernel pid frame table pages)
    (hsource : kernel.budgetOf source = some frame)
    (hused : 1 ≤ (kernel.budget frame).pagesUsed)
    (hlimit : (kernel.budget frame).pagesUsed ≤ (kernel.budget frame).pagesLimit) :
    ∃ moved, kernel.moveFrame source pid = .ok moved ∧ Kept kernel moved ∧
      moved.ram = kernel.ram ∧ Ready moved pid frame table pages ∧
      moved.budget frame = kernel.budget frame := by
  by_cases heq : source = pid
  · exact ⟨kernel, by rw [moveFrame, if_pos heq], Kept.refl kernel, rfl, hready, rfl⟩
  · obtain ⟨hkept, hram, huncharged⟩ := unchargeFrame_spec source hready
    have hbudget : (kernel.unchargeFrame source).budget frame =
        { kernel.budget frame with
          pagesUsed := (kernel.budget frame).pagesUsed - 1 } := by
      rw [unchargeFrame, hsource]
      simp only [budget, uncharge, modifyBudget, modifyAccount, update_self]
      cases kernel.budgets frame <;> rfl
    have hfree : pages + 1 ≤ (kernel.unchargeFrame source).freePages frame := by
      have := hready.free
      simp only [freePages, hbudget, Pages.freePages] at this ⊢
      omega
    have hmore : Ready (kernel.unchargeFrame source) pid frame table (pages + 1) :=
      ⟨huncharged.account, huncharged.counted, hfree⟩
    obtain ⟨moved, hmoved, hkept', hram', hready', hused'⟩ := chargeFrame_ok hmore
    refine ⟨moved, by rw [moveFrame, if_neg heq]; exact hmoved,
      hkept.trans hkept', hram'.trans hram, hready', ?_⟩
    rw [hused', hbudget]
    simp only [Nat.sub_add_cancel hused]

/-- A frame moves in from another budget and is charged. -/
theorem moveFrame_other (hready : Ready kernel pid frame table (pages + 1))
    (hsource : kernel.budgetOf source ≠ some frame) :
    ∃ moved, kernel.moveFrame source pid = .ok moved ∧ Kept kernel moved ∧
      moved.ram = kernel.ram ∧ Ready moved pid frame table pages := by
  have heq : source ≠ pid := fun h => hsource (h ▸ hready.budgetOf)
  obtain ⟨hkept, hram, huncharged⟩ := unchargeFrame_spec source hready
  obtain ⟨moved, hmoved, hkept', hram', hready', -⟩ := chargeFrame_ok huncharged
  exact ⟨moved, by rw [moveFrame, if_neg heq]; exact hmoved,
    hkept.trans hkept', hram'.trans hram, hready'⟩

theorem moveFrames_same (count : ℕ) (hready : Ready kernel pid frame table pages)
    (hsource : kernel.budgetOf source = some frame)
    (hused : count ≤ (kernel.budget frame).pagesUsed)
    (hlimit : (kernel.budget frame).pagesUsed ≤ (kernel.budget frame).pagesLimit) :
    ∃ moved, moveFrames source pid count kernel = .ok moved ∧
      Kept kernel moved ∧ moved.ram = kernel.ram ∧
      Ready moved pid frame table pages := by
  induction count generalizing kernel with
  | zero => exact ⟨kernel, rfl, Kept.refl kernel, rfl, hready⟩
  | succ count ih =>
    obtain ⟨first, hfirst, hkept, hram, hready', hbudget⟩ :=
      moveFrame_same hready hsource (by omega) hlimit
    obtain ⟨moved, hmoved, hkept', hram', hready''⟩ := ih hready'
      ((hkept.budgetOf source).trans hsource) (by rw [hbudget]; omega)
      (by rw [hbudget]; exact hlimit)
    refine ⟨moved, ?_, hkept.trans hkept', hram'.trans hram, hready''⟩
    simp only [moveFrames, hfirst]
    exact hmoved

theorem moveFrames_other (count : ℕ)
    (hready : Ready kernel pid frame table (pages + count))
    (hsource : kernel.budgetOf source ≠ some frame) :
    ∃ moved, moveFrames source pid count kernel = .ok moved ∧
      Kept kernel moved ∧ moved.ram = kernel.ram ∧
      Ready moved pid frame table pages := by
  induction count generalizing kernel with
  | zero => exact ⟨kernel, rfl, Kept.refl kernel, rfl, hready⟩
  | succ count ih =>
    obtain ⟨first, hfirst, hkept, hram, hready'⟩ :=
      moveFrame_other hready hsource
    obtain ⟨moved, hmoved, hkept', hram', hready''⟩ := ih hready'
      (by rw [hkept.budgetOf source]; exact hsource)
    refine ⟨moved, ?_, hkept.trans hkept', hram'.trans hram, hready''⟩
    simp only [moveFrames, hfirst]
    exact hmoved

theorem freeTables_spec (source : ℕ) (count : ℕ)
    (hready : Ready kernel pid frame table pages) :
    Kept kernel (freeTables source count kernel) ∧
      kernel.ram ≤ (freeTables source count kernel).ram ∧
      Ready (freeTables source count kernel) pid frame table pages := by
  induction count generalizing kernel with
  | zero => exact ⟨Kept.refl kernel, le_refl _, hready⟩
  | succ count ih =>
    obtain ⟨hkept, hram, hready'⟩ := unchargeFrame_spec source hready
    have hfreed : Ready (kernel.unchargeFrame source).freeObjectFrame pid frame
        table pages := ⟨hready'.account, hready'.counted, hready'.free⟩
    obtain ⟨hkept', hram', hready''⟩ := ih hfreed
    refine ⟨hkept.trans ((kept_ram _ _).trans hkept'), ?_, hready''⟩
    rw [← hram]
    exact (Nat.le_succ _).trans hram'

theorem reserveBuffer_ok (count : ℕ)
    (hready : Ready kernel pid frame table (pages + count))
    (hram : pages + count ≤ kernel.ram) :
    ∃ reserved, reserveBuffer pid count kernel = .ok reserved ∧
      Kept kernel reserved ∧ pages ≤ reserved.ram ∧
      Ready reserved pid frame table pages ∧
      (reserved.budget frame).pagesUsed = (kernel.budget frame).pagesUsed + count ∧
      (reserved.budget frame).pagesLimit = (kernel.budget frame).pagesLimit := by
  induction count generalizing kernel with
  | zero => exact ⟨kernel, rfl, Kept.refl kernel, hram, hready, rfl, rfl⟩
  | succ count ih =>
    obtain ⟨charged, hcharge, hkept, hchargedRam, hready', hbudget⟩ :=
      chargeFrame_ok hready
    have hsome : ¬ charged.ram = 0 := by omega
    have hallocated : Ready { charged with ram := charged.ram - 1 } pid frame
        table (pages + count) := ⟨hready'.account, hready'.counted, hready'.free⟩
    obtain ⟨reserved, hreserve, hkept', hram', hready'', hused, hlimit⟩ :=
      ih hallocated (by simp only; omega)
    refine ⟨reserved, ?_, hkept.trans ((kept_ram _ _).trans hkept'), hram',
      hready'', ?_, ?_⟩
    · simp only [reserveBuffer, allocPage, hcharge, allocObjectFrame, hsome,
        bind, Except.bind]
      exact hreserve
    · have : (charged.budget frame).pagesUsed =
          (kernel.budget frame).pagesUsed + 1 := by rw [hbudget]
      rw [hused]
      simp only [budget] at this ⊢
      omega
    · have : (charged.budget frame).pagesLimit = (kernel.budget frame).pagesLimit := by
        rw [hbudget]
      rw [hlimit]
      exact this

/-- What the accounting promises a delivery: the receiving budget is not over
its limit, the buffer of a sender in the same budget is charged to it, and what
the budget may still charge is in RAM. -/
structure Ledger (kernel : Kernel) (spid rbudget : ℕ) (m : Msg) : Prop where
  solvent : (kernel.budget rbudget).pagesUsed ≤ (kernel.budget rbudget).pagesLimit
  buffer : kernel.budgetOf spid = some rbudget →
    m.bufPages ≤ (kernel.budget rbudget).pagesUsed
  backed : kernel.freePages rbudget ≤ kernel.ram

/-- A delivery that was found payable is charged, and what was counted for the
handles' table pages is left. -/
theorem chargeDelivery_ok {spid growth tables emptied : ℕ} {m : Msg}
    (hready : Ready kernel pid frame table (growth + callCost m +
      kernel.bufferCost spid frame m + tables))
    (hledger : Ledger kernel spid frame m) :
    ∃ charged, kernel.chargeDelivery spid pid frame tables emptied m =
        .ok charged ∧ Kept kernel charged ∧ growth ≤ charged.ram ∧
      Ready charged pid frame table growth := by
  obtain ⟨reserved, hreserve, hkept, hram, hready', hused, hlimit⟩ :=
    reserveBuffer_ok tables hready (hready.free.trans hledger.backed)
  simp only [chargeDelivery, hreserve, bind, Except.bind]
  cases hkind : m.kind with
  | call =>
    simp only [callCost, bufferCost, hkind] at hready' hram
    have hcost : openCallPages + m.bufPages ≤ reserved.freePages frame := by
      have := hready'.free
      omega
    obtain ⟨charged, hcharge, honly, haccounts⟩ := charge_ok hcost
    have hkept' : Kept reserved charged :=
      ⟨fun _ => by rw [haccounts], honly.live⟩
    refine ⟨charged, ?_, hkept.trans hkept', ?_, hkept'.ready hready' ?_⟩
    · simp only [hcharge, moveBuffer, hkind]
    · rw [honly.ram]
      omega
    · have := hready'.free
      simp only [freePages, honly.budget, Pages.freePages] at this ⊢
      omega
  | send =>
    simp only [callCost, bufferCost, hkind] at hready' hram
    have hmove : ∃ moved, moveFrames spid pid m.bufPages reserved = .ok moved ∧
        Kept reserved moved ∧ moved.ram = reserved.ram ∧
        Ready moved pid frame table growth := by
      by_cases hsame : kernel.budgetOf spid = some frame
      · rw [if_pos hsame] at hready'
        refine moveFrames_same m.bufPages hready' ((hkept.budgetOf spid).trans hsame) ?_
          ?_
        · have := hledger.buffer hsame
          omega
        · have hsolvent := hledger.solvent
          have hfree := hready.free
          simp only [freePages, Pages.freePages] at hfree
          omega
      · rw [if_neg hsame] at hready'
        exact moveFrames_other m.bufPages hready'
          (by rw [hkept.budgetOf spid]; exact hsame)
    obtain ⟨moved, hmoved, hkept', hram', hready''⟩ := hmove
    obtain ⟨hkept'', hram'', hfinal⟩ := freeTables_spec spid emptied hready''
    refine ⟨freeTables spid emptied moved, ?_, (hkept.trans hkept').trans hkept'', ?_,
      hfinal⟩
    · simp only [moveBuffer, hkind, hmoved, bind, Except.bind]
    · omega

/-! ## Installing a message's handles -/

/-- Where the table has a place for every live handle and the pages are paid
for, none is dropped. -/
theorem installHandles_keeps {account : Account} {placed : List (Option ℕ)}
    {price : ℕ} (items : List (Option Handle)) (hcounted : kernel.Counted)
    (haccount : kernel.accounts pid = some account)
    (hplaces : FirstFit.placeMany handlesPerPage
      (items.countP fun item => item.any kernel.isLive)
      account.handles.shape = some (placed, price))
    (hfree : price ≤ kernel.freePages account.budget) (hram : price ≤ kernel.ram) :
    (installHandles pid kernel items).2.1 = false := by
  induction items generalizing kernel account price with
  | nil => rfl
  | cons item rest ih =>
    cases hfilter : item.filter kernel.isLive with
    | none =>
      have hskip : item.any kernel.isLive = false := by
        cases item with
        | none => rfl
        | some handle =>
          simpa using hfilter
      rw [List.countP_cons_of_neg (by simp [hskip])] at hplaces
      simp only [installHandles, hfilter]
      exact ih hcounted haccount hplaces hfree hram
    | some handle =>
      have hlive : item.any kernel.isLive = true := by
        obtain ⟨rfl, hlive⟩ := filter_eq_some_iff.mp hfilter
        exact hlive
      rw [List.countP_cons_of_pos (by simp [hlive]), FirstFit.placeMany,
        bind_eq_some_iff] at hplaces
      obtain ⟨⟨middle, firstPrice⟩, hplace, hrest⟩ := hplaces
      rw [map_eq_some_iff] at hrest
      obtain ⟨⟨last, restPrice⟩, hmany, heq⟩ := hrest
      obtain ⟨rfl, rfl⟩ := heq
      obtain ⟨index, after, hinstall, hinstalled⟩ := installHandle_ok handle
        hcounted haccount hplace (by omega) (by omega)
      obtain ⟨installed, haccount', hbudget, hshape⟩ := hinstalled.shape
      have hpaidFree := hinstalled.paid.freePages
      have hpaidRam := hinstalled.paid.ram
      simp only [installHandles, hfilter, hinstall]
      have hplaces' : FirstFit.placeMany handlesPerPage
          (rest.countP fun item => item.any after.isLive)
          installed.handles.shape = some (last, restPrice) := by
        rw [hinstalled.paid.live, hshape]
        exact hmany
      exact ih hinstalled.counted haccount' hplaces' (by rw [hbudget]; omega) (by omega)

end Kernel

end Redoubt
