import Redoubt.Kernel.Prepare

/-!
# Handle tables over whole runs

A table is reached by installs, closes and the kills of sweeps, in any order,
while the rest of the kernel does what it likes with everything but the tables.
Over every table reached this way the growth estimate is exact precisely when
the installs reach no hole: a missing page below free slots that would have
done.  Under the same condition a delivery that was found payable drops no
handle.
-/

namespace Redoubt

open List Option FirstFit HandleTable Kernel

namespace Kernel

variable {kernel before after : Kernel}

/-! ## Runs -/

/-- The states reached by installs, closes and kills.  `elsewhere` stands for
everything else the kernel does: it keeps each table it does not create
empty. -/
inductive TableRun : Kernel → Prop
  | boot {kernel : Kernel} (hempty : ∀ pid table, kernel.table pid = some table →
        table = empty) : TableRun kernel
  | install {kernel after : Kernel} {pid index : ℕ} {handle : Handle}
      (hrun : TableRun kernel)
      (hinstall : kernel.installHandle pid handle = .ok (index, after)) :
      TableRun after
  | close {kernel after : Kernel} {pid index : ℕ} (hrun : TableRun kernel)
      (hclose : kernel.handleClose pid index = .ok after) : TableRun after
  | kill {kernel : Kernel} (pid index : ℕ) (hrun : TableRun kernel) :
      TableRun (kernel.killHandle pid index)
  | elsewhere {kernel after : Kernel} (hrun : TableRun kernel)
      (htables : ∀ pid table, after.table pid = some table →
        kernel.table pid = some table ∨ table = empty) :
      TableRun after

variable {pid page : ℕ}

/-- The slot a readable index names. -/
theorem readSlot_eq {slot : ℕ} {account : Account}
    (haccount : kernel.accounts pid = some account) (hpage : page < maxHandlePages)
    (hslot : slot < handlesPerPage) :
    kernel.readSlot pid (indexAt page slot) =
      ((account.handles.slotsOf page).map fun content => content slot).getD .empty := by
  simp only [readSlot, entry, table, haccount, map_some, bind_some,
    HandleTable.entry, position_indexAt hpage hslot, HandleTable.slotsOf,
    Option.map_map]
  rfl

variable {index : ℕ}

/-- A slot that holds something lies on a page in use of a process's table. -/
theorem readSlot_ne_empty (hslot : kernel.readSlot pid index ≠ .empty) :
    ∃ account page slot content, kernel.accounts pid = some account ∧
      position index = some (page, slot) ∧
      account.handles.slotsOf page = some content ∧
      content slot = kernel.readSlot pid index := by
  cases haccount : kernel.accounts pid with
  | none => exact absurd (by simp [readSlot, entry, table, haccount]) hslot
  | some account =>
    cases hposition : position index with
    | none =>
      exact absurd (by simp [readSlot, entry, HandleTable.entry, hposition]) hslot
    | some at_ =>
      obtain ⟨page, slot⟩ := at_
      obtain ⟨hpage, hinPage, rfl⟩ := position_eq_some hposition
      have hread := readSlot_eq haccount hpage hinPage
      cases hcontent : account.handles.slotsOf page with
      | none => exact absurd (by simp [hread, hcontent]) hslot
      | some content =>
        exact ⟨account, page, slot, content, rfl, rfl,
          hcontent, by simp [hread, hcontent]⟩

/-- A page that was bought could be paid for. -/
theorem buyPage_affordable {frame : ℕ}
    (hbuy : kernel.buyPage pid frame page = .ok after) :
    1 ≤ kernel.freePages frame ∧ 1 ≤ kernel.ram := by
  simp only [buyPage, charge, bind, Except.bind] at hbuy
  cases hcharge : (kernel.budget frame).charge 1 with
  | none =>
    rw [hcharge] at hbuy
    cases hbuy
  | some charged =>
    refine ⟨(Pages.of_charge hcharge).1, ?_⟩
    rw [hcharge] at hbuy
    by_contra hram
    have hzero :
        (kernel.modifyBudget frame fun b => { b with toPages := charged }).ram = 0 := by
      change kernel.ram = 0
      omega
    simp [allocObjectFrame, hzero] at hbuy

section

variable (hcounted : kernel.Counted)
include hcounted

theorem installFrom_counted {account : Account} {handle : Handle}
    (haccount : kernel.accounts pid = some account) (pages : List ℕ)
    (hrange : ∀ page ∈ pages, page < maxHandlePages)
    (hinstall : kernel.installFrom pid account.budget handle account.handles
      pages = .ok (index, after)) : after.Counted := by
  have hput {states : ℕ → Option ℕ} {price : ℕ}
      {result : Except Error (ℕ × Kernel)} (hresult : result = .ok (index, after))
      (h : ∃ index' put, result = .ok (index', put) ∧
        Put kernel put pid account states price) : after.Counted := by
    obtain ⟨index', put, heq, hput⟩ := h
    cases hresult.symm.trans heq
    exact hput.counted
  cases hplace : place handlesPerPage (pages.map account.handles.pageState) with
  | none => cases hinstall.symm.trans (installFrom_tooLarge handle hplace)
  | some placed =>
    obtain ⟨full, page, rest, rfl, -, hroom, -, hwalk⟩ :=
      exists_of_place kernel pid handle hplace
    have hpage : page < maxHandlePages := hrange page (by simp)
    rw [hwalk] at hinstall
    cases hstate : account.handles.pageState page with
    | none =>
      have hmissing := map_eq_none_iff.mp hstate
      rw [installFrom, map_eq_none_iff.mp hmissing] at hinstall
      cases hbuy : kernel.buyPage pid account.budget page with
      | error error =>
        rw [hbuy] at hinstall
        cases hinstall
      | ok bought =>
        obtain ⟨hfree, hram⟩ := buyPage_affordable hbuy
        exact hput hinstall
          (putInBought_ok handle hcounted haccount hpage hmissing hfree hram)
    | some held =>
      obtain ⟨content, hcontent, -⟩ := map_eq_some_iff.mp hstate
      have hlive := live_of_pageState hstate
      have hnot : account.handles.live page ≠ handlesPerPage :=
        fun heq => hroom (heq ▸ hlive ▸ hstate)
      rw [installFrom_used handle rest hstate, if_neg hnot] at hinstall
      exact hput hinstall (putInPage_ok handle hcounted haccount hpage hcontent hnot)

theorem Counted.installHandle {handle : Handle}
    (hinstall : kernel.installHandle pid handle = .ok (index, after)) :
    after.Counted := by
  rw [Kernel.installHandle] at hinstall
  cases haccount : kernel.accounts pid with
  | none =>
    rw [haccount] at hinstall
    exact absurd hinstall (by simp)
  | some account =>
    rw [haccount] at hinstall
    exact installFrom_counted hcounted haccount _
      (fun page h => mem_range.mp h) hinstall

/-- Emptying a slot, and its page with the last one, keeps the counts. -/
theorem Counted.clearSlot {slot : ℕ} {account : Account}
    {content : ℕ → Slot} (haccount : kernel.accounts pid = some account)
    (hpage : page < maxHandlePages) (hslot : slot < handlesPerPage)
    (hcontent : account.handles.slotsOf page = some content)
    (hfilled : content slot ≠ .empty) :
    (kernel.clearSlot pid page slot).Counted := by
  have hlive := (hcounted pid account haccount).used page content hcontent
  have hpositive : 0 < account.handles.live page := by
    rw [hlive]
    exact countP_pos_iff.mpr ⟨slot, mem_range.mpr hslot, by simpa using hfilled⟩
  have hcleared : ((kernel.writeSlot pid (indexAt page slot) .empty).modifyTable
      pid fun table => table.setLive page (table.live page - 1)).Counted := by
    refine hcounted.writeSlot (f := (· - 1)) haccount hpage hslot hcontent ?_
    rw [if_neg hfilled, if_pos rfl]
    omega
  unfold Kernel.clearSlot
  simp only
  split
  · exact hcleared
  · rename_i cleared haccount'
    split
    · rename_i hzero
      -- The page goes back; the charge and the frame do not touch the tables.
      have hclosed := hcleared.modifyTable
        (f := fun table => table.closePage page) fun account' h => by
          rw [haccount', some.injEq] at h
          subst h
          exact (hcleared pid _ haccount').closePage hzero
      exact fun other account' h => hclosed other account' h
    · exact hcleared

theorem Counted.removeHandle : (kernel.removeHandle pid index).Counted := by
  unfold Kernel.removeHandle
  cases hposition : position index with
  | none => exact hcounted
  | some at_ =>
    obtain ⟨page, slot⟩ := at_
    obtain ⟨hpage, hslot, -⟩ := position_eq_some hposition
    have hclear : ∀ {cleared : Kernel}, SameSlots kernel cleared →
        kernel.readSlot pid index ≠ .empty →
        (cleared.clearSlot pid page slot).Counted := by
      intro cleared hsame hfilled
      obtain ⟨account, page', slot', content, haccount, hposition', hcontent,
        hread⟩ := readSlot_ne_empty hfilled
      rw [hposition, some.injEq] at hposition'
      obtain ⟨rfl, rfl⟩ := hposition'
      obtain ⟨same, hsameAccount, -, -, hslots, -⟩ := hsame.account haccount
      exact (hcounted.of_sameSlots hsame).clearSlot hsameAccount hpage hslot
        (hslots ▸ hcontent) (hread ▸ hfilled)
    cases hread : kernel.readSlot pid index with
    | empty => exact hcounted
    | dead => exact hclear (SameSlots.refl kernel) (by simp [hread])
    | live handle =>
      exact hclear ((SameSlots.leave kernel .object pid index).trans
        (SameSlots.leave _ .stamp pid index)) (by simp [hread])

theorem Counted.handleClose
    (hclose : kernel.handleClose pid index = .ok after) : after.Counted := by
  rw [Kernel.handleClose] at hclose
  cases hread : kernel.readSlot pid index with
  | empty =>
    rw [hread] at hclose
    exact absurd hclose (by simp)
  | dead =>
    rw [hread, Except.ok.injEq] at hclose
    exact hclose ▸ hcounted.removeHandle
  | live handle =>
    rw [hread, Except.ok.injEq] at hclose
    exact hclose ▸ hcounted.removeHandle

end

theorem Counted.killHandle (pid index : ℕ) (hcounted : kernel.Counted) :
    (kernel.killHandle pid index).Counted := by
  unfold Kernel.killHandle
  cases hread : kernel.readSlot pid index with
  | empty => exact hcounted
  | dead => exact hcounted
  | live handle =>
    have hfilled : kernel.readSlot pid index ≠ .empty := by simp [hread]
    obtain ⟨account, page, slot, content, haccount, hposition, hcontent,
      hslotRead⟩ := readSlot_ne_empty hfilled
    obtain ⟨hpage, hslot, rfl⟩ := position_eq_some hposition
    have hsame := (SameSlots.leave kernel .object pid (indexAt page slot)).trans
      (SameSlots.leave _ .stamp pid (indexAt page slot))
    obtain ⟨same, hsameAccount, -, -, hslots, -⟩ := hsame.account haccount
    have hcount :
        id (same.handles.live page) + (if content slot = .empty then 0 else 1) =
        same.handles.live page + (if Slot.dead = .empty then 0 else 1) := by
      rw [hslotRead, hread]
      simp
    have hwritten := (hcounted.of_sameSlots hsame).writeSlot
      hsameAccount hpage hslot (hslots ▸ hcontent) hcount
    -- The count is the one that was there, so setting it changes nothing.
    refine hwritten.of_sameSlots (SameSlots.modifyTable _ pid ?_ ?_).symm
    · exact fun _ => rfl
    · intro table
      funext other
      by_cases hother : other = page <;>
        simp [setLive]

/-- Every table of a run counts its entries. -/
theorem TableRun.counted (hrun : TableRun kernel) : kernel.Counted := by
  have htable : ∀ {kernel : Kernel} {pid : ℕ} {account : Account},
      kernel.accounts pid = some account →
      kernel.table pid = some account.handles := by
    intro kernel pid account haccount
    rw [table, haccount, map_some]
  induction hrun with
  | boot hempty =>
    intro pid account haccount
    exact hempty pid _ (htable haccount) ▸ HandleTable.Counted.empty
  | install hrun hinstall ih => exact ih.installHandle hinstall
  | close hrun hclose ih => exact ih.handleClose hclose
  | kill pid index hrun ih => exact ih.killHandle pid index
  | elsewhere hrun htables ih =>
    intro pid account haccount
    rcases htables pid _ (htable haccount) with hold | hnew
    · obtain ⟨old, hold, heq⟩ := map_eq_some_iff.mp hold
      exact heq ▸ ih pid old hold
    · exact hnew ▸ HandleTable.Counted.empty

/-! ## When the estimate is exact -/

/-- The estimate of `table_growth` for a process's table is what installing
`count` handles does, in every state of a run that holds this table and can pay
a page per handle, and no delivery of `count` live handles that was found
payable stops the kernel. -/
structure GrowthExact (pid : ℕ) (table : HandleTable) (count : ℕ) : Prop where
  tooLarge : ∀ (kernel : Kernel) (account : Account) (handles : List Handle),
    TableRun kernel → kernel.accounts pid = some account →
    account.handles = table → handles.length = count →
    count ≤ kernel.freePages account.budget → count ≤ kernel.ram →
    (kernel.tableGrowth pid count = none ↔
      installAll pid kernel handles = .error .tooLarge)
  charged : ∀ (kernel after : Kernel) (account : Account) (handles : List Handle),
    TableRun kernel → kernel.accounts pid = some account →
    account.handles = table → handles.length = count →
    count ≤ kernel.freePages account.budget → count ≤ kernel.ram →
    installAll pid kernel handles = .ok after →
    kernel.tableGrowth pid count = some ((after.budget account.budget).pagesUsed -
        (kernel.budget account.budget).pagesUsed)
  delivered : ∀ (kernel : Kernel) (account : Account)
      (spid maxTransfer emptied : ℕ) (place : Option ℕ) (m : Msg),
    TableRun kernel → kernel.accounts pid = some account →
    account.handles = table →
    (m.handles.countP fun item => item.any kernel.isLive) = count →
    Ledger kernel spid account.budget m →
    kernel.prepare pid spid maxTransfer place emptied m ≠ .stopped

/-- The pages of a table below a given one. -/
def pagesBelow (table : HandleTable) (page : ℕ) : List (Option ℕ) :=
  (range page).map table.pageState

/-- No missing page is reached by `count` installs while the free slots of the
pages in use, those above it included, would have held the handles: if the free
slots below a missing page and the missing pages below it do not hold them all,
then the free slots of the whole table and those missing pages do not either. -/
def NoHoleReached (table : HandleTable) (count : ℕ) : Prop :=
  ∀ page < maxHandlePages, table.pages page = none →
    room handlesPerPage (pagesBelow table page) +
        handlesPerPage * missing (pagesBelow table page) < count →
    room handlesPerPage table.shape + handlesPerPage * missing (pagesBelow table page) <
    count

theorem noHoleReached_iff (table : HandleTable) (count : ℕ) :
    NoHoleReached table count ↔
      FirstFit.NoHoleReached handlesPerPage count table.shape := by
  constructor
  · intro hholes below above hshape hreached
    have hlength : below.length < maxHandlePages := by
      have := congrArg length hshape
      simp only [shape, length_map, length_range, length_append, length_cons] at this
      omega
    have hbelow : pagesBelow table below.length = below := by
      have htake := congrArg (take below.length) hshape
      rw [shape, ← map_take, take_range, Nat.min_eq_left hlength.le, take_left] at htake
      exact htake
    have hpage : table.pages below.length = none := by
      have hget := congrArg (fun pages => pages[below.length]?) hshape
      simp only [shape, getElem?_map, getElem?_range hlength] at hget
      simpa [pageState, slotsOf] using hget
    have hresult := hholes below.length hlength hpage (by rwa [hbelow])
    rwa [hbelow] at hresult
  · intro hholes page hpage hmissing hreached
    refine hholes (pagesBelow table page)
      ((range' (page + 1) (maxHandlePages - page - 1)).map table.pageState)
      ?_ hreached
    have hnone : table.pageState page = none := by
      simp [pageState, slotsOf, hmissing]
    have hsplit : range maxHandlePages = range page ++
        page :: range' (page + 1) (maxHandlePages - page - 1) := by
      rw [range_eq_range', range_eq_range', ← range'_succ]
      have happend :
          range' 0 page 1 ++ range' (0 + 1 * page) (maxHandlePages - page - 1 + 1) 1 =
          range' 0 (page + (maxHandlePages - page - 1 + 1)) 1 := range'_append
      rw [zero_add, one_mul] at happend
      rw [happend]
      congr 1
      omega
    rw [shape, hsplit, map_append, map_cons, hnone]
    rfl

/-- The estimate answers `none` exactly when the installs find no place. -/
theorem tableGrowth_eq_none_iff {account : Account}
    (haccount : kernel.accounts pid = some account) (count : ℕ) :
    kernel.tableGrowth pid count = none ↔
      space handlesPerPage account.handles.shape < count := by
  rw [tableGrowth_eq haccount, ← missing_lt_estimate_iff handlesPerPage_pos]
  simp

/-- Where no hole is reached the estimate is the pages the installs buy. -/
theorem tableGrowth_of_noHoleReached {count : ℕ} {account : Account}
    (haccount : kernel.accounts pid = some account)
    (hholes : NoHoleReached account.handles count)
    (hfits : count ≤ space handlesPerPage account.handles.shape) :
    kernel.tableGrowth pid count =
      some (bought handlesPerPage count account.handles.shape) := by
  have hestimate := (estimate_eq_bought_iff handlesPerPage_pos hfits).mpr
    ((noHoleReached_iff _ _).mp hholes)
  have hpages := mt (missing_lt_estimate_iff handlesPerPage_pos count
    account.handles.shape).mp (not_lt.mpr hfits)
  rw [tableGrowth_eq haccount, if_pos (not_lt.mp hpages), hestimate]

/-- Installs with a page to pay for each: they find no place, or buy the missing
pages they reach. -/
theorem installAll_cases {account : Account} (handles : List Handle)
    (hcounted : kernel.Counted) (haccount : kernel.accounts pid = some account)
    (hfree : handles.length ≤ kernel.freePages account.budget)
    (hram : handles.length ≤ kernel.ram) :
    (space handlesPerPage account.handles.shape < handles.length ∧
        installAll pid kernel handles = .error .tooLarge) ∨
      (handles.length ≤ space handlesPerPage account.handles.shape ∧
        ∃ after, installAll pid kernel handles = .ok after ∧
          Paid kernel after account.budget (bought handlesPerPage
            handles.length account.handles.shape)) := by
  have hbought :=
    bought_le_count handlesPerPage_pos handles.length account.handles.shape
  have hspec := installAll_spec handles hcounted haccount (hbought.trans hfree)
    (hbought.trans hram)
  have hbounded := (hcounted pid account haccount).bounded (range maxHandlePages)
  cases hmany : placeMany handlesPerPage handles.length account.handles.shape with
  | none =>
    rw [hmany] at hspec
    exact .inl ⟨(placeMany_eq_none_iff handlesPerPage_pos _ hbounded).mp hmany, hspec⟩
  | some result =>
    obtain ⟨placed, price⟩ := result
    rw [hmany] at hspec
    obtain ⟨after, hafter, hinstalled⟩ := hspec
    have hprice := placeMany_bought handlesPerPage_pos hbounded hmany
    refine .inr ⟨?_, after, hafter, hprice ▸ hinstalled.paid⟩
    rw [← not_lt]
    intro hless
    have hnone := (placeMany_eq_none_iff handlesPerPage_pos _ hbounded).mpr hless
    have hsome : placeMany handlesPerPage handles.length
        ((range maxHandlePages).map account.handles.pageState) = some (placed, price) :=
          hmany
    rw [hsome] at hnone
    exact absurd hnone (by simp)

/-- A payable delivery drops nothing where no hole is reached. -/
theorem prepare_not_stopped {spid maxTransfer emptied : ℕ}
    {account : Account} {place : Option ℕ} {m : Msg} (hcounted : kernel.Counted)
    (haccount : kernel.accounts pid = some account)
    (hholes : NoHoleReached account.handles
      (m.handles.countP fun item => item.any kernel.isLive))
    (hledger : Ledger kernel spid account.budget m) :
    kernel.prepare pid spid maxTransfer place emptied m ≠ .stopped := by
  unfold prepare
  have hbudget : kernel.budgetOf pid = some account.budget := by
    rw [budgetOf, haccount, map_some]
  rw [hbudget]
  simp only
  split
  · simp
  · split
    · simp
    · rename_i tables htables
      by_cases hfits : (m.handles.countP fun item => item.any kernel.isLive) ≤
          space handlesPerPage account.handles.shape
      · rw [tableGrowth_of_noHoleReached haccount hholes hfits]
        simp only
        split
        · simp
        · rename_i hneed
          have hready : Ready kernel pid account.budget account.handles
              (bought handlesPerPage
                (m.handles.countP fun item => item.any kernel.isLive)
                account.handles.shape + callCost m +
                kernel.bufferCost spid account.budget m + tables) :=
            ⟨⟨account, haccount, rfl, rfl⟩, hcounted, not_lt.mp hneed⟩
          obtain ⟨charged, hcharge, hkept, hram, hready'⟩ :=
            chargeDelivery_ok hready hledger
          obtain ⟨account', haccount', hbudget', hhandles⟩ := hready'.account
          have hbounded :=
            (hcounted pid account haccount).bounded (range maxHandlePages)
          rw [hcharge]
          simp only
          cases hmany : placeMany handlesPerPage
              (m.handles.countP fun item => item.any kernel.isLive)
              account.handles.shape with
          | none =>
            have := (placeMany_eq_none_iff handlesPerPage_pos _ hbounded).mp hmany
            exact absurd hfits (not_le.mpr this)
          | some result =>
            have hprice := placeMany_bought handlesPerPage_pos hbounded hmany
            have hkeeps := installHandles_keeps m.handles hready'.counted
              haccount' (by rw [hkept.live, hhandles]; exact hmany)
              (by rw [hprice, hbudget']; exact hready'.free)
              (by rw [hprice]; exact hram)
            rw [hkeeps]
            simp
      · rw [(tableGrowth_eq_none_iff haccount _).mpr (not_le.mp hfits)]
        simp

/-- One process in a budget of two pages, with an empty table. -/
def twoPages : Kernel where
  budgets := fun frame => if frame = 1 then some ⟨⟨2, 0⟩, 1, none⟩ else none
  endpoints := fun _ => none
  devices := fun _ => none
  processes := fun _ => none
  accounts := fun pid =>
    if pid = 2 then some ⟨1, 0, empty⟩ else none
  heads := fun _ _ => .none
  ram := 2

/-- A handle to the process's own budget. -/
def ownBudget : Handle := ⟨.budget ⟨1, 1⟩, 0, ⟨1, 1⟩⟩

theorem twoPages_run : TableRun twoPages := by
  refine .boot fun pid table htable => ?_
  obtain ⟨account, haccount, rfl⟩ := map_eq_some_iff.mp htable
  simp only [twoPages] at haccount
  split at haccount
  · cases haccount
    rfl
  · exact absurd haccount (by simp)

/-- The closes of these handles, one after another. -/
def closeAll (pid : ℕ) : Kernel → List ℕ → Except Error Kernel
  | kernel, [] => .ok kernel
  | kernel, index :: rest =>
    match kernel.handleClose pid index with
    | .ok closed => closeAll pid closed rest
    | .error error => .error error

theorem TableRun.installAll {handles : List Handle} (hrun : TableRun kernel)
    (hinstall : installAll pid kernel handles = .ok after) :
    TableRun after := by
  induction handles generalizing kernel with
  | nil =>
    rw [installAll, Except.ok.injEq] at hinstall
    exact hinstall ▸ hrun
  | cons handle rest ih =>
    rw [installAll] at hinstall
    cases hfirst : kernel.installHandle pid handle with
    | error error =>
      rw [hfirst] at hinstall
      exact absurd hinstall (by simp)
    | ok result =>
      rw [hfirst] at hinstall
      exact ih (hrun.install hfirst) hinstall

theorem TableRun.closeAll {indices : List ℕ} (hrun : TableRun kernel)
    (hclose : closeAll pid kernel indices = .ok after) : TableRun after := by
  induction indices generalizing kernel with
  | nil =>
    rw [closeAll, Except.ok.injEq] at hclose
    exact hclose ▸ hrun
  | cons index rest ih =>
    rw [closeAll] at hclose
    split at hclose
    · next closed hfirst => exact ih (hrun.close hfirst) hclose
    · exact absurd hclose (by simp)

/-- Installing 65 handles and closing the first `closed` of them. -/
def closedFirst (closed : ℕ) : Except Error Kernel :=
  match installAll 2 twoPages (replicate 65 ownBudget) with
  | .ok full => closeAll 2 full ((range closed).map (indexAt 0))
  | .error error => .error error

theorem closedFirst_run {closed : ℕ} (hclosed : closedFirst closed = .ok kernel) :
    TableRun kernel := by
  rw [closedFirst] at hclosed
  split at hclosed
  · next full hfull => exact (twoPages_run.installAll hfull).closeAll hclosed
  · exact absurd hclosed (by simp)

/-- Over every run, the estimate for a table is exact, and its deliveries drop
nothing, precisely when the installs reach no hole. -/
theorem growthExact_iff_noHoleReached {pid : ℕ} {table : HandleTable}
    (hrun : TableRun kernel) (htable : kernel.table pid = some table) (count : ℕ) :
    GrowthExact pid table count ↔ NoHoleReached table count := by
  obtain ⟨account, haccount, rfl⟩ := map_eq_some_iff.mp htable
  constructor
  · intro hexact
    rw [noHoleReached_iff]
    by_cases hfits : count ≤ space handlesPerPage account.handles.shape
    · -- The same tables in a state that can pay.
      let rich : Kernel := { kernel with
        budgets := Function.update kernel.budgets account.budget
          (some ⟨⟨count, 0⟩, 0, none⟩)
        ram := count }
      have hrich : TableRun rich := hrun.elsewhere fun _ _ h => .inl h
      have hfree : rich.freePages account.budget = count := by
        simp [rich, freePages, budget, Pages.freePages]
      let handle : Handle := ⟨.budget ⟨0, 0⟩, 0, ⟨0, 0⟩⟩
      have hlength : (replicate count handle).length = count :=
        length_replicate
      rcases installAll_cases (replicate count handle)
        hrich.counted haccount (by rw [hlength, hfree])
        (hlength.le) with ⟨hless, -⟩ | ⟨-, after, hafter, hpaid⟩
      · rw [hlength] at hless
        exact absurd hfits (not_le.mpr hless)
      · have hgrowth := hexact.charged rich after account _ hrich haccount rfl
          hlength hfree.ge (le_refl _) hafter
        rw [hpaid.budget, tableGrowth_eq (by exact haccount)] at hgrowth
        split at hgrowth
        · rw [some.injEq] at hgrowth
          refine (estimate_eq_bought_iff handlesPerPage_pos hfits).mp ?_
          rw [hgrowth]
          simp
        · exact absurd hgrowth (by simp)
    · exact noHoleReached_of_space_lt (not_le.mp hfits)
  · intro hholes
    constructor
    · rintro kernel' account' handles hrun' haccount' heq rfl hfree hram
      rw [tableGrowth_eq_none_iff haccount']
      rcases installAll_cases handles hrun'.counted haccount' hfree hram with
        ⟨hless, hinstall⟩ | ⟨hfits, after, hinstall, -⟩
      · exact iff_of_true hless hinstall
      · exact iff_of_false (not_lt.mpr hfits) (by simp [hinstall])
    · rintro kernel' after account' handles hrun' haccount' heq rfl hfree hram hinstall
      rcases installAll_cases handles hrun'.counted haccount' hfree hram with
        ⟨-, hfails⟩ | ⟨hfits, after', hinstall', hpaid⟩
      · rw [hfails] at hinstall
        exact absurd hinstall (by simp)
      · rw [hinstall', Except.ok.injEq] at hinstall
        subst hinstall
        rw [tableGrowth_of_noHoleReached haccount' (heq ▸ hholes) hfits, hpaid.budget]
        simp
    · rintro kernel' account' spid maxTransfer emptied place m hrun' haccount'
        heq rfl hledger
      exact prepare_not_stopped hrun'.counted haccount' (heq ▸ hholes) hledger

instance (table : HandleTable) (count : ℕ) : Decidable (NoHoleReached table count) :=
  decidable_of_iff (∀ page < maxHandlePages, (table.pages page).isNone = true →
      room handlesPerPage (pagesBelow table page) +
        handlesPerPage * missing (pagesBelow table page) < count →
      room handlesPerPage table.shape + handlesPerPage *
      missing (pagesBelow table page) < count)
    (by simp only [NoHoleReached, isNone_iff_eq_none])

/-- Whether a process's table reaches no hole. -/
def reachesNone (kernel : Kernel) (pid count : ℕ) : Bool :=
  (kernel.table pid).any fun table => decide (NoHoleReached table count)

theorem closedFirst_reachesNone :
    (match closedFirst 10 with
      | .ok kernel => reachesNone kernel 2 80
      | .error _ => false) = true := by
  decide +kernel

/-- With ten of its 65 handles closed both pages of the table are in use, 73 slots of
them free: the estimate for 80 handles is exact. -/
theorem growthExact_closedFirst : ∃ kernel table, closedFirst 10 = .ok kernel ∧
    kernel.table 2 = some table ∧ NoHoleReached table 80 ∧ GrowthExact 2 table 80 := by
  have hreaches := closedFirst_reachesNone
  split at hreaches
  · next kernel hclosed =>
      obtain ⟨table, htable, hholes⟩ := (Option.any_eq_true _ _).mp hreaches
      have hnone := of_decide_eq_true hholes
      exact ⟨kernel, table, hclosed, htable, hnone,
        (growthExact_iff_noHoleReached (closedFirst_run hclosed) htable 80).mpr hnone⟩
  · exact absurd hreaches (by simp)

/-! ## A hole -/

/-- All 64 closed: the second page is in use above a missing first one. -/
def holed : Except Error Kernel := closedFirst 64

/-- What the table with the hole makes of one more handle. -/
def tooSmall (kernel : Kernel) : Bool :=
  (kernel.accounts 2).any fun account =>
    decide (kernel.tableGrowth 2 1 = some 0) &&
    (match installAll 2 kernel [ownBudget] with
      | .ok after =>
        decide ((after.budget 1).pagesUsed = (kernel.budget 1).pagesUsed + 1)
      | .error _ => false) &&
    decide ((kernel.budget account.budget).pagesUsed ≤
      (kernel.budget account.budget).pagesLimit ∧
      kernel.freePages account.budget ≤ kernel.ram) &&
    match kernel.prepare 2 2 0 none 0 ⟨.call, 0, [some ownBudget]⟩ with
    | .stopped => true
    | _ => false

theorem holed_tooSmall :
    (match holed with | .ok kernel => tooSmall kernel | .error _ => false) = true := by
  decide +kernel

/-- A process closes its first 64 handles and is then sent a call with one
handle, with one page left in its budget.  The estimate says that no page is
needed and the call's own page is the last, but the install buys the missing
first page: it charges one page where the budget has it, and the delivery stops
the kernel where it does not. -/
theorem holed_table_growth_too_small : ∃ kernel account, TableRun kernel ∧
    kernel.accounts 2 = some account ∧
    kernel.tableGrowth 2 1 = some 0 ∧
    (∃ after, installAll 2 kernel [ownBudget] = .ok after ∧
      (after.budget 1).pagesUsed = (kernel.budget 1).pagesUsed + 1) ∧
    Ledger kernel 2 account.budget ⟨.call, 0, [some ownBudget]⟩ ∧
    kernel.prepare 2 2 0 none 0 ⟨.call, 0, [some ownBudget]⟩ = .stopped := by
  have hsmall := holed_tooSmall
  split at hsmall
  · next kernel hholed =>
      obtain ⟨account, haccount, hfacts⟩ := (Option.any_eq_true _ _).mp hsmall
      simp only [Bool.and_eq_true, decide_eq_true_eq] at hfacts
      obtain ⟨⟨⟨hgrowth, hinstall⟩, hsolvent, hbacked⟩, hprepare⟩ := hfacts
      refine ⟨kernel, account, closedFirst_run hholed, haccount, hgrowth, ?_,
        ⟨hsolvent, fun _ => Nat.zero_le _, hbacked⟩, ?_⟩
      · split at hinstall
        · next after hafter => exact ⟨after, hafter, of_decide_eq_true hinstall⟩
        · exact absurd hinstall (by simp)
      · split at hprepare
        · next hstopped => exact hstopped
        · exact absurd hprepare (by simp)
  · exact absurd hsmall (by simp)

end Kernel

end Redoubt
