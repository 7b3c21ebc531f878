import Redoubt.Kernel.Counts
import Redoubt.Library.FirstFit

/-!
# What installing handles costs

`table_growth` tells a delivery how many table pages a number of handles will
need.  It counts the free slots of all the pages in use, while `install_handle`
goes to the lowest page that is not full and buys it if it is missing.  The two
agree unless the installs reach a missing page below free slots that would have
held the handles.
-/

namespace Redoubt

open Function List FirstFit HandleTable Option

namespace HandleTable

/-- The pages of a table as the growth estimate sees them. -/
def shape (table : HandleTable) : List (Option ℕ) :=
  (List.range maxHandlePages).map table.pageState

theorem Counted.bounded {table : HandleTable} (hcounted : table.Counted)
    (pages : List ℕ) :
    FirstFit.Bounded handlesPerPage (pages.map table.pageState) := by
  intro held hheld
  obtain ⟨page, -, hstate⟩ := mem_map.mp hheld
  simp only [pageState, map_eq_some_iff] at hstate
  obtain ⟨content, hcontent, rfl⟩ := hstate
  rw [hcounted.used page content hcontent]
  exact filled_le content

end HandleTable

namespace Kernel

variable {kernel before middle after : Kernel}

/-! ## Charges -/

/-- A number of pages was charged to a budget and taken from RAM, and the same
handles are live. -/
structure Paid (before after : Kernel) (frame pages : ℕ) : Prop where
  budget : after.budget frame = { before.budget frame with
      pagesUsed := (before.budget frame).pagesUsed + pages }
  affordable : pages ≤ before.freePages frame
  ram : after.ram + pages = before.ram
  live : after.isLive = before.isLive

theorem Paid.refl (kernel : Kernel) (frame : ℕ) : Paid kernel kernel frame 0 :=
  ⟨rfl, Nat.zero_le _, rfl, rfl⟩

theorem Paid.freePages {frame pages : ℕ} (hpaid : Paid before after frame pages) :
    after.freePages frame + pages = before.freePages frame := by
  have haffordable := hpaid.affordable
  simp only [Kernel.freePages, hpaid.budget, Pages.freePages] at haffordable ⊢
  omega

theorem Paid.trans {frame first second : ℕ} (hfirst : Paid before middle frame first)
    (hsecond : Paid middle after frame second) :
    Paid before after frame (first + second) where
  budget := by rw [hsecond.budget, hfirst.budget, add_assoc]
  affordable := by
    have := hfirst.freePages
    have := hsecond.affordable
    omega
  ram := by
    have := hfirst.ram
    have := hsecond.ram
    omega
  live := hsecond.live.trans hfirst.live

/-- The handles that are live depend on the objects and the budgets' ids. -/
theorem isLive_eq (hbudgets : ∀ frame, (after.budgets frame).map Budget.id =
      (before.budgets frame).map Budget.id)
    (hendpoints : after.endpoints = before.endpoints)
    (hdevices : after.devices = before.devices)
    (hprocesses : after.processes = before.processes) :
    after.isLive = before.isLive := by
  have hbudget : after.isLiveBudget = before.isLiveBudget := by
    funext ref
    have hid := hbudgets ref.frame
    simp only [isLiveBudget]
    cases hafter : after.budgets ref.frame <;>
      cases hbefore : before.budgets ref.frame <;>
        simp_all
  funext handle
  simp only [isLive, hbudget, isLiveEndpoint, hendpoints, isLiveDevice,
    hdevices, isLiveProcess, hprocesses]

theorem isLive_modifyBudget (frame : ℕ) {f : Budget → Budget}
    (hid : ∀ b, (f b).id = b.id) :
    (kernel.modifyBudget frame f).isLive = kernel.isLive := by
  refine isLive_eq (fun other => ?_) rfl rfl rfl
  by_cases hother : other = frame
  · subst hother
    simp only [modifyBudget, update_self, Option.map_map]
    congr 1
    funext b
    exact hid b
  · simp only [modifyBudget, update_of_ne hother]

/-- A charge that takes nothing from RAM. -/
structure ChargedOnly (before after : Kernel) (frame pages : ℕ) : Prop where
  budget : after.budget frame = { before.budget frame with
      pagesUsed := (before.budget frame).pagesUsed + pages }
  ram : after.ram = before.ram
  live : after.isLive = before.isLive

theorem Paid.of_sameSlots {frame : ℕ} (hsame : SameSlots before after) :
    Paid before after frame 0 where
  budget := by simp [Kernel.budget, hsame.budgets]
  affordable := Nat.zero_le _
  ram := by rw [hsame.ram, Nat.add_zero]
  live := isLive_eq (fun _ => by rw [hsame.budgets]) hsame.endpoints hsame.devices
    hsame.processes

/-! ## One install -/

@[simp]
theorem accounts_modifyTable {pid : ℕ} {account : Account}
    (haccount : kernel.accounts pid = some account) (f : HandleTable → HandleTable) :
    (kernel.modifyTable pid f).accounts pid =
      some { account with handles := f account.handles } := by
  simp [modifyTable, modifyAccount, haccount]

/-- A charge that fits changes the one budget's use. -/
theorem charge_ok {frame pages : ℕ} (hfree : pages ≤ kernel.freePages frame) :
    ∃ charged, kernel.charge frame pages = .ok charged ∧
      ChargedOnly kernel charged frame pages ∧
      charged.accounts = kernel.accounts := by
  have hcharge : kernel.charge frame pages =
      .ok (kernel.modifyBudget frame fun b => { b with
        toPages := { (kernel.budget frame).toPages with
          pagesUsed := (kernel.budget frame).pagesUsed + pages } }) := by
    rw [charge, Pages.charge_of_le hfree]
  refine ⟨_, hcharge, ⟨?_, rfl, isLive_modifyBudget frame fun _ => rfl⟩, rfl⟩
  · simp only [modifyBudget, budget, update_self]
    cases hbudget : kernel.budgets frame with
    | some b => rfl
    | none =>
      -- A frame that holds no budget has nothing free.
      rw [freePages, budget, hbudget] at hfree
      have hzero : pages = 0 := Nat.le_zero.mp hfree
      subst hzero
      rfl

/-- Buying a page charges one page and opens it. -/
theorem buyPage_ok {pid page : ℕ} {account : Account}
    (hcounted : kernel.Counted) (haccount : kernel.accounts pid = some account)
    (hmissing : account.handles.slotsOf page = none)
    (hfree : 1 ≤ kernel.freePages account.budget) (hram : 1 ≤ kernel.ram) :
    ∃ bought, kernel.buyPage pid account.budget page = .ok bought ∧
      bought.accounts pid =
        some { account with handles := account.handles.openPage page } ∧
      bought.Counted ∧ Paid kernel bought account.budget 1 := by
  obtain ⟨charged, hcharge, hpaid, haccounts⟩ := charge_ok hfree
  have hram' : ¬ charged.ram = 0 := by
    rw [hpaid.ram]
    omega
  simp only [buyPage, hcharge, allocObjectFrame, hram', bind, Except.bind]
  refine ⟨_, rfl, accounts_modifyTable (haccounts ▸ haccount) _, ?_, ?_⟩
  · refine Counted.modifyTable (fun other account' h => ?_) ?_
    · exact hcounted other account' (haccounts ▸ h)
    · intro account' haccount'
      have h : kernel.accounts pid = some account' := haccounts ▸ haccount'
      rw [haccount, some.injEq] at h
      subst h
      exact (hcounted pid account haccount).openPage hmissing
  · refine ⟨hpaid.budget, hfree, ?_, hpaid.live⟩
    have := hpaid.ram
    simp only [modifyTable, modifyAccount]
    omega

/-- What putting one handle in a table leaves: the process keeps its budget, its
pages are as in `states`, and the counts and charges are right. -/
structure Put (before after : Kernel) (pid : ℕ) (account : Account)
    (states : ℕ → Option ℕ) (price : ℕ) : Prop where
  pages : ∃ installed, after.accounts pid = some installed ∧
    installed.budget = account.budget ∧ installed.handles.pageState = states
  counted : after.Counted
  paid : Paid before after account.budget price

section Put

variable {pid page slot : ℕ} {account : Account} {content : ℕ → Slot}
  (handle : Handle) (hcounted : kernel.Counted)
  (haccount : kernel.accounts pid = some account)
  (hpage : page < maxHandlePages)
include hcounted haccount hpage

/-- Writing a slot and the page's count keeps every table counted. -/
theorem Counted.writeSlot {value : Slot} {f : ℕ → ℕ} (hslot : slot < handlesPerPage)
    (hcontent : account.handles.slotsOf page = some content)
    (hcount : f (account.handles.live page) + (if content slot = .empty then 0 else 1) =
      account.handles.live page + (if value = .empty then 0 else 1)) :
    ((kernel.writeSlot pid (indexAt page slot) value).modifyTable pid
      fun table => table.setLive page (f (table.live page))).Counted := by
  intro other account' haccount'
  by_cases hother : other = pid
  · subst hother
    simp only [Kernel.writeSlot, modifyEntry, Kernel.modifyTable, modifyAccount,
      update_self, haccount, map_some, some.injEq,
      modifyEntry_live] at haccount'
    subst haccount'
    exact (hcounted other account haccount).write hpage hslot hcontent hcount
  · simp only [Kernel.writeSlot, modifyEntry, Kernel.modifyTable, modifyAccount,
      update_of_ne hother] at haccount'
    exact hcounted other account' haccount'

/-- Putting a handle in an empty slot raises its page's count by one. -/
theorem putHandle_spec (hslot : slot < handlesPerPage)
    (hcontent : account.handles.slotsOf page = some content)
    (hempty : content slot = .empty) :
    Put kernel (kernel.putHandle pid account.budget page slot handle) pid account
      (update account.handles.pageState page (some (account.handles.live page + 1)))
      0 := by
  -- The write and the count, before the chains are entered.
  let written := (kernel.writeSlot pid (indexAt page slot)
    (.live handle)).modifyTable pid fun table =>
      table.setLive page (table.live page + 1)
  have hwrittenCounted : written.Counted :=
    hcounted.writeSlot (f := (· + 1)) haccount hpage hslot hcontent (by simp [hempty])
  have hwritten : written.accounts pid = some { account with
      handles := (account.handles.modifyEntry (indexAt page slot) fun entry =>
        { entry with slot := .live handle }).setLive page
          (account.handles.live page + 1) } := by
    simp [written, writeSlot, modifyEntry, haccount]
  have hsame :
      SameSlots written (kernel.putHandle pid account.budget page slot handle) :=
    (SameSlots.enterAt written .object _ pid _).trans
      (SameSlots.enterAt _ .stamp _ pid _)
  obtain ⟨installed, hinstalled, hbudget, -, hslots, hlive⟩ :=
    hsame.account hwritten
  refine ⟨⟨installed, hinstalled, hbudget, ?_⟩, hwrittenCounted.of_sameSlots hsame, ?_⟩
  · have hslots' :=
      hslots.trans (account.handles.slotsOf_write (position_indexAt hpage hslot) _)
    funext other
    by_cases hother : other = page
    · subst hother
      simp [pageState, hslots', hlive, hcontent, setLive]
    · simp [pageState, hslots', hlive, setLive, update_of_ne hother]
  · have hunchanged : Paid kernel written account.budget 0 :=
      ⟨rfl, Nat.zero_le _, rfl, rfl⟩
    exact hunchanged.trans (Paid.of_sameSlots hsame)

/-- A page with room takes the handle. -/
theorem putInPage_ok (hcontent : account.handles.slotsOf page = some content)
    (hroom : account.handles.live page ≠ handlesPerPage) :
    ∃ index after, kernel.putInPage pid account.budget page handle =
      .ok (index, after) ∧
      Put kernel after pid account (update account.handles.pageState
        page (some (account.handles.live page + 1))) 0 := by
  have hfilled := (hcounted pid account haccount).used page content hcontent
  have hle := filled_le content
  obtain ⟨slot, hfind, hslot, hempty⟩ :=
    emptySlot_of_not_full hcontent (by omega)
  refine ⟨indexAt page slot, _, ?_,
    putHandle_spec handle hcounted haccount hpage hslot hcontent hempty⟩
  simp only [putInPage, table, haccount, map_some, bind_some, hfind]

/-- A missing page is bought and takes the handle. -/
theorem putInBought_ok (hmissing : account.handles.slotsOf page = none)
    (hfree : 1 ≤ kernel.freePages account.budget) (hram : 1 ≤ kernel.ram) :
    ∃ index after, (kernel.buyPage pid account.budget page >>= fun bought =>
        bought.putInPage pid account.budget page handle) = .ok (index, after) ∧
      Put kernel after pid account (update account.handles.pageState page (some 1))
        1 := by
  obtain ⟨bought, hbuy, hbought, hboughtCounted, hpaid⟩ :=
    buyPage_ok hcounted haccount hmissing hfree hram
  have hempty : (account.handles.openPage page).slotsOf page = some fun _ =>
      .empty := by
    rw [slotsOf_openPage, update_self]
  have hlive : (account.handles.openPage page).live page = 0 :=
    (hcounted pid account haccount).missing page hmissing
  obtain ⟨index, after, hput, ⟨installed, hinstalled, hbudget, hstate⟩,
    hafter, hfinal⟩ := putInPage_ok handle hboughtCounted hbought hpage hempty
      (by rw [hlive]; decide)
  refine ⟨index, after, by rw [hbuy]; exact hput,
    ⟨installed, hinstalled, hbudget, ?_⟩, hafter, hpaid.trans hfinal⟩
  rw [hstate, hlive]
  funext other
  by_cases hother : other = page
  · subst hother
    simp
  · simp only [update_of_ne hother, pageState, slotsOf_openPage]
    rfl

end Put

/-! ## The walk over the pages -/

section Walk

variable {pid price : ℕ} {account : Account} {placed : List (Option ℕ)}
  (handle : Handle) {pages : List ℕ}

/-- A page in use, as the walk sees it. -/
theorem installFrom_used {page held : ℕ} (rest : List ℕ)
    (hstate : account.handles.pageState page = some held) :
    kernel.installFrom pid account.budget handle account.handles (page :: rest) =
      if account.handles.live page = handlesPerPage then
        kernel.installFrom pid account.budget handle account.handles rest
      else kernel.putInPage pid account.budget page handle := by
  obtain ⟨content, hcontent, -⟩ := map_eq_some_iff.mp hstate
  obtain ⟨slots, hslots, -⟩ := map_eq_some_iff.mp hcontent
  rw [installFrom, hslots]

theorem live_of_pageState {table : HandleTable} {page held : ℕ}
    (hstate : table.pageState page = some held) : table.live page = held := by
  obtain ⟨_, -, hlive⟩ := map_eq_some_iff.mp hstate
  exact hlive

/-- The walk passes over full pages. -/
theorem installFrom_full (full rest : List ℕ)
    (hfull : ∀ page ∈ full, account.handles.pageState page = some handlesPerPage) :
    kernel.installFrom pid account.budget handle account.handles (full ++ rest) =
      kernel.installFrom pid account.budget handle account.handles rest := by
  induction full with
  | nil => rfl
  | cons page full ih =>
    have hpage := hfull page mem_cons_self
    rw [cons_append, installFrom_used handle _ hpage, if_pos (live_of_pageState hpage)]
    exact ih fun other hother => hfull other (mem_cons_of_mem _ hother)

variable (kernel pid) in
/-- Where the placement goes, the walk goes. -/
theorem exists_of_place (hplace : FirstFit.place handlesPerPage
      (pages.map account.handles.pageState) = some (placed, price)) :
    ∃ full page rest, pages = full ++ page :: rest ∧
      placed = full.map account.handles.pageState ++
        some ((account.handles.pageState page).getD 0 + 1) ::
        rest.map account.handles.pageState ∧
      account.handles.pageState page ≠ some handlesPerPage ∧
      price = (if account.handles.pageState page = none then 1 else 0) ∧
      kernel.installFrom pid account.budget handle account.handles pages =
        kernel.installFrom pid account.budget handle account.handles
          (page :: rest) := by
  obtain ⟨count, state, states, hpages, rfl, hroom, rfl⟩ :=
    FirstFit.exists_of_place hplace
  obtain ⟨full, later, rfl, hfull, hlater⟩ := map_eq_append_iff.mp hpages
  obtain ⟨page, rest, rfl, rfl, rfl⟩ := map_eq_cons_iff.mp hlater
  refine ⟨full, page, rest, rfl, by rw [hfull], hroom, rfl,
    installFrom_full handle full _ fun other hother => ?_⟩
  exact eq_of_mem_replicate (hfull ▸ mem_map_of_mem hother)

/-- The walk over the pages places the handle first-fit. -/
theorem installFrom_ok (hcounted : kernel.Counted)
    (haccount : kernel.accounts pid = some account)
    (hdistinct : pages.Nodup) (hrange : ∀ page ∈ pages, page < maxHandlePages)
    (hplace : place handlesPerPage (pages.map account.handles.pageState) =
      some (placed, price))
    (hfree : price ≤ kernel.freePages account.budget) (hram : price ≤ kernel.ram) :
    ∃ index after states, kernel.installFrom pid account.budget handle
      account.handles pages =
        .ok (index, after) ∧
      Put kernel after pid account states price ∧ pages.map states = placed := by
  obtain ⟨full, page, rest, rfl, rfl, hroom, rfl, hwalk⟩ :=
    exists_of_place kernel pid handle hplace
  have hpage : page < maxHandlePages := hrange page (by simp)
  -- The pages around the one that takes the handle keep their state.
  have hmap (state : Option ℕ) : (full ++ page :: rest).map
      (update account.handles.pageState page state) =
      full.map account.handles.pageState ++ state ::
        rest.map account.handles.pageState := by
    have hne : ∀ other ∈ full ++ rest, other ≠ page := by
      grind
    rw [map_append, map_cons, update_self]
    congr 1
    · exact map_congr_left fun other hother =>
        update_of_ne (hne other (mem_append_left _ hother)) ..
    · congr 1
      exact map_congr_left fun other hother =>
        update_of_ne (hne other (mem_append_right _ hother)) ..
  rw [hwalk]
  cases hstate : account.handles.pageState page with
  | none =>
    rw [hstate] at hfree hram
    have hmissing := map_eq_none_iff.mp hstate
    obtain ⟨index, after, hput, hafter⟩ :=
      putInBought_ok handle hcounted haccount hpage hmissing hfree hram
    refine ⟨index, after, _, ?_, hafter, hmap _⟩
    rw [installFrom, map_eq_none_iff.mp hmissing]
    exact hput
  | some held =>
    obtain ⟨content, hcontent, -⟩ := map_eq_some_iff.mp hstate
    have hlive := live_of_pageState hstate
    have hnot : account.handles.live page ≠ handlesPerPage :=
      fun heq => hroom (heq ▸ hlive ▸ hstate)
    obtain ⟨index, after, hput, hafter⟩ :=
      putInPage_ok handle hcounted haccount hpage hcontent hnot
    refine ⟨index, after, _, ?_, hafter, hlive ▸ hmap _⟩
    rw [installFrom_used handle rest hstate, if_neg hnot, hput]

/-- Where no page has room and none is missing, the table is full. -/
theorem installFrom_tooLarge (hplace : place handlesPerPage
      (pages.map account.handles.pageState) = none) :
    kernel.installFrom pid account.budget handle account.handles pages =
      .error .tooLarge := by
  induction pages with
  | nil => rfl
  | cons page rest ih =>
    rw [map_cons] at hplace
    cases hstate : account.handles.pageState page with
    | none => simp [hstate, place] at hplace
    | some held =>
      rw [hstate, place] at hplace
      split at hplace
      · next hfull =>
          rw [installFrom_used handle rest hstate,
            if_pos ((live_of_pageState hstate).trans hfull)]
          exact ih (map_eq_none_iff.mp hplace)
      · cases hplace

end Walk

/-- What installs leave: the process keeps its budget, its pages are the ones
first-fit placement gives, and the counts and charges are right. -/
structure Installed (before after : Kernel) (pid : ℕ) (account : Account)
    (pages : List (Option ℕ)) (price : ℕ) : Prop where
  shape : ∃ installed, after.accounts pid = some installed ∧
    installed.budget = account.budget ∧ installed.handles.shape = pages
  counted : after.Counted
  paid : Paid before after account.budget price

theorem installHandle_ok {pid price : ℕ} {account : Account}
    {placed : List (Option ℕ)} (handle : Handle) (hcounted : kernel.Counted)
    (haccount : kernel.accounts pid = some account)
    (hplace : place handlesPerPage account.handles.shape = some (placed, price))
    (hfree : price ≤ kernel.freePages account.budget) (hram : price ≤ kernel.ram) :
    ∃ index after, kernel.installHandle pid handle = .ok (index, after) ∧
      Installed kernel after pid account placed price := by
  obtain ⟨index, after, states, hinstall, ⟨⟨installed, hinstalled, hbudget, rfl⟩,
    hafter, hpaid⟩, rfl⟩ := installFrom_ok handle hcounted haccount
      nodup_range (fun page h => mem_range.mp h) hplace hfree hram
  refine ⟨index, after, ?_, ⟨installed, hinstalled, hbudget, rfl⟩, hafter, hpaid⟩
  rw [installHandle, haccount]
  exact hinstall

/-! ## Several installs -/

/-- Installs one after the other, up to the first that fails. -/
def installAll (pid : ℕ) : Kernel → List Handle → Except Error Kernel
  | kernel, [] => .ok kernel
  | kernel, handle :: rest =>
    match kernel.installHandle pid handle with
    | .error error => .error error
    | .ok (_, after) => installAll pid after rest

/-- Installs that can be paid for buy the missing pages they reach, and fail
only for want of a place. -/
theorem installAll_spec {pid : ℕ} {account : Account} (handles : List Handle)
    (hcounted : kernel.Counted) (haccount : kernel.accounts pid = some account)
    (hfree : bought handlesPerPage handles.length
      account.handles.shape ≤ kernel.freePages account.budget)
    (hram : bought handlesPerPage handles.length account.handles.shape ≤ kernel.ram) :
    match placeMany handlesPerPage handles.length account.handles.shape with
    | none => installAll pid kernel handles = .error .tooLarge
    | some (placed, price) => ∃ after, installAll pid kernel handles = .ok after ∧
        Installed kernel after pid account placed price := by
  induction handles generalizing kernel account with
  | nil =>
    exact ⟨kernel, rfl, ⟨account, haccount, rfl, rfl⟩, hcounted, Paid.refl kernel _⟩
  | cons handle rest ih =>
    have hbounded := (hcounted pid account haccount).bounded (List.range maxHandlePages)
    cases hplace : place handlesPerPage account.handles.shape with
    | none =>
      have hinstall : kernel.installHandle pid handle = .error .tooLarge := by
        rw [installHandle, haccount]
        exact installFrom_tooLarge handle hplace
      simp only [length_cons, placeMany, hplace, bind_none, installAll, hinstall]
    | some first =>
      obtain ⟨placed, price⟩ := first
      have hbought := bought_succ handlesPerPage_pos rest.length hbounded hplace
      rw [length_cons] at hfree hram
      have hshape : (List.range maxHandlePages).map
          account.handles.pageState = account.handles.shape := rfl
      rw [hshape] at hbought
      obtain ⟨index, middle, hinstall, hmiddle⟩ := installHandle_ok handle
        hcounted haccount hplace (by omega) (by omega)
      obtain ⟨installed, hinstalled, hbudget, hplaced⟩ := hmiddle.shape
      have hpaid := hmiddle.paid.freePages
      have hpaidRam := hmiddle.paid.ram
      have hrest := ih hmiddle.counted hinstalled
        (by rw [hplaced, hbudget]; omega) (by rw [hplaced]; omega)
      rw [hplaced] at hrest
      simp only [length_cons, placeMany, hplace, bind_some, installAll, hinstall]
      cases hmany : placeMany handlesPerPage rest.length placed with
      | none =>
        rw [hmany] at hrest
        exact hrest
      | some result =>
        rw [hmany] at hrest
        obtain ⟨after, hafter, ⟨last, hlast, hlastBudget, hlastShape⟩,
          hlastCounted, hlastPaid⟩ := hrest
        refine ⟨after, hafter, ⟨last, hlast, hlastBudget.trans hbudget,
          hlastShape⟩, hlastCounted, ?_⟩
        rw [hbudget] at hlastPaid
        exact hmiddle.paid.trans hlastPaid

/-! ## The estimate -/

/-- `table_growth` is the estimate from the totals. -/
theorem tableGrowth_eq {pid : ℕ} {account : Account}
    (haccount : kernel.accounts pid = some account) (extra : ℕ) :
    kernel.tableGrowth pid extra =
      if estimate handlesPerPage extra account.handles.shape ≤
          missing account.handles.shape then
        some (estimate handlesPerPage extra account.handles.shape)
      else
        none := by
  have hroom : ∀ pages : List ℕ,
      room handlesPerPage (pages.map account.handles.pageState) =
        (pages.map fun page => if (account.handles.pages page).isSome then
          handlesPerPage - account.handles.live page else 0).sum := by
    intro pages
    induction pages with
    | nil => rfl
    | cons page rest ih =>
      cases hpage : account.handles.pages page <;>
        simp [pageState, slotsOf, hpage, room] at ih ⊢ <;> exact ih
  have hmissing : ∀ pages : List ℕ, missing (pages.map account.handles.pageState) =
        pages.countP fun page => (account.handles.pages page).isNone := by
    intro pages
    induction pages with
    | nil => rfl
    | cons page rest ih =>
      cases hpage : account.handles.pages page <;>
        simp [pageState, slotsOf, hpage, missing] at ih ⊢ <;> exact ih
  simp only [tableGrowth, table, haccount, map_some, shape, estimate, hroom, hmissing]

end Kernel

end Redoubt
