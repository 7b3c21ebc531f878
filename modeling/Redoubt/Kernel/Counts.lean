import Redoubt.Kernel.Handles

/-!
# Handle tables count their entries

Every table page in use counts the slots that are not empty, dead entries
included.  The chain operations move links and leave all of this alone, so the
counting argument is made about what the slots hold and never about the links.
-/

namespace Redoubt

open Function List Option

theorem handlesPerPage_pos : 0 < handlesPerPage := by decide

theorem position_indexAt {page slot : ℕ} (hpage : page < maxHandlePages)
    (hslot : slot < handlesPerPage) :
    position (indexAt page slot) = some (page, slot) := by
  have hdiv : (page * handlesPerPage + slot) / handlesPerPage = page := by
    rw [mul_comm, Nat.mul_add_div handlesPerPage_pos, Nat.div_eq_of_lt hslot, add_zero]
  have hmod : (page * handlesPerPage + slot) % handlesPerPage = slot := by
    rw [mul_comm, Nat.mul_add_mod, Nat.mod_eq_of_lt hslot]
  simp [position, indexAt, hdiv, hmod, hpage]

/-- A position is in range, and the index is the one of that slot. -/
theorem position_eq_some {index page slot : ℕ}
    (hposition : position index = some (page, slot)) :
    page < maxHandlePages ∧ slot < handlesPerPage ∧ index = indexAt page slot := by
  unfold position at hposition
  split at hposition
  · exact absurd hposition (by simp)
  · rename_i hindex
    simp only at hposition
    split at hposition
    · rename_i hpage
      obtain ⟨rfl, rfl⟩ := hposition
      refine ⟨hpage, Nat.mod_lt _ handlesPerPage_pos, ?_⟩
      have hsplit := Nat.div_add_mod (index - 1) handlesPerPage
      rw [indexAt, mul_comm]
      omega
    · exact absurd hposition (by simp)

namespace HandleTable

/-- What the slots of a page in use hold. -/
def slotsOf (table : HandleTable) (page : ℕ) : Option (ℕ → Slot) :=
  (table.pages page).map fun slots slot => (slots slot).slot

def filled (content : ℕ → Slot) : ℕ :=
  (List.range handlesPerPage).countP fun slot => content slot ≠ .empty

/-- Every page in use counts its live and dead entries, and a missing one
counts none. -/
structure Counted (table : HandleTable) : Prop where
  used : ∀ page content, table.slotsOf page = some content →
    table.live page = filled content
  missing : ∀ page, table.slotsOf page = none → table.live page = 0

/-- A page as the growth estimate sees it: missing, or with its count. -/
def pageState (table : HandleTable) (page : ℕ) : Option ℕ :=
  (table.slotsOf page).map fun _ => table.live page

theorem filled_le (content : ℕ → Slot) : filled content ≤ handlesPerPage := by
  have hcount := countP_le_length (p := fun slot => decide (content slot ≠ .empty))
    (l := List.range handlesPerPage)
  rwa [length_range] at hcount

theorem filled_zero : filled (fun _ => .empty) = 0 := by
  simp [filled]

/-- Writing an empty slot fills one more, clearing a filled one fills one
less. -/
theorem filled_update (content : ℕ → Slot) {slot : ℕ} (value : Slot)
    (hslot : slot < handlesPerPage) :
    filled (update content slot value) + (if content slot = .empty then 0 else 1) =
      filled content + (if value = .empty then 0 else 1) := by
  have hmem : slot ∈ List.range handlesPerPage := mem_range.mpr hslot
  have hnodup := nodup_range (n := handlesPerPage)
  have hcount : ∀ slots : List ℕ, slots.Nodup → slot ∈ slots →
      slots.countP (fun at_ => update content slot value at_ ≠ .empty) +
          (if content slot = .empty then 0 else 1) =
        slots.countP (fun at_ => content at_ ≠ .empty) +
        (if value = .empty then 0 else 1) := by
    intro slots
    induction slots with
    | nil => simp
    | cons first rest ih =>
      intro hdistinct hin
      obtain ⟨hfirst, hrest⟩ := nodup_cons.mp hdistinct
      by_cases heq : first = slot
      · subst heq
        have hsame : rest.countP (fun at_ => update content first value at_ ≠ .empty) =
            rest.countP (fun at_ => content at_ ≠ .empty) := by
          apply countP_congr
          intro at_ hat
          have hne : at_ ≠ first := fun h => hfirst (h ▸ hat)
          simp [update_of_ne hne]
        simp only [countP_cons, hsame]
        by_cases hvalue : value = .empty <;>
          by_cases hold : content first = .empty <;> simp [hvalue, hold]
      · have hin' : slot ∈ rest := by
          rcases mem_cons.mp hin with h | h
          · exact absurd h.symm heq
          · exact h
        have htail := ih hrest hin'
        simp only [countP_cons, update_of_ne heq]
        omega
  exact hcount _ hnodup hmem

/-- A page that is not full has an empty slot, and `emptySlot` finds one. -/
theorem emptySlot_of_not_full {table : HandleTable} {page : ℕ}
    {content : ℕ → Slot} (hcontent : table.slotsOf page = some content)
    (hroom : filled content < handlesPerPage) :
    ∃ slot, table.emptySlot page = some slot ∧ slot < handlesPerPage ∧
      content slot = .empty := by
  simp only [slotsOf, map_eq_some_iff] at hcontent
  obtain ⟨slots, hslots, rfl⟩ := hcontent
  simp only [emptySlot, hslots]
  cases hfind : (List.range handlesPerPage).find? fun slot =>
      (slots slot).slot = .empty with
  | some slot =>
    have hempty := find?_some hfind
    exact ⟨slot, rfl, mem_range.mp (mem_of_find?_eq_some hfind), by simpa using hempty⟩
  | none =>
    rw [find?_eq_none] at hfind
    have hfull : filled (fun slot => (slots slot).slot) = handlesPerPage := by
      rw [filled, countP_eq_length.mpr, length_range]
      intro slot hslot
      simpa using hfind slot hslot
    exact absurd hfull hroom.ne

/-- An edit that keeps what the slots hold changes only links. -/
theorem slotsOf_modifyEntry_links (table : HandleTable) (index : ℕ)
    {f : Entry → Entry} (hlinks : ∀ entry, (f entry).slot = entry.slot) :
    (table.modifyEntry index f).slotsOf = table.slotsOf := by
  funext page
  unfold modifyEntry
  cases hposition : position index with
  | none => rfl
  | some at_ =>
    obtain ⟨target, slot⟩ := at_
    simp only [slotsOf]
    by_cases hpage : page = target
    · subst hpage
      rw [update_self, Option.map_map]
      congr 1
      funext slots other
      by_cases hslot : other = slot
      · subst hslot
        simp [hlinks]
      · simp [update_of_ne hslot]
    · rw [update_of_ne hpage]

/-- Writing a slot changes what that slot of that page holds. -/
theorem slotsOf_write (table : HandleTable) {index page slot : ℕ}
    (hposition : position index = some (page, slot)) (value : Slot) :
    (table.modifyEntry index fun entry => { entry with slot := value }).slotsOf =
      update table.slotsOf page ((table.slotsOf page).map fun content =>
          update content slot value) := by
  funext other
  simp only [modifyEntry, hposition, slotsOf]
  by_cases hpage : other = page
  · subst hpage
    simp only [update_self, Option.map_map]
    congr 1
    funext slots at_
    by_cases hslot : at_ = slot
    · subst hslot
      simp
    · simp [update_of_ne hslot]
  · simp only [update_of_ne hpage]
    rfl

@[simp]
theorem modifyEntry_live (table : HandleTable) (index : ℕ)
    (f : Entry → Entry) : (table.modifyEntry index f).live = table.live := by
  unfold modifyEntry
  split <;> rfl

end HandleTable

/-- An account without the links of its table. -/
def Account.skeleton (account : Account) : ℕ × ℕ × (ℕ → Option (ℕ → Slot)) × (ℕ → ℕ) :=
  (account.budget, account.frames, account.handles.slotsOf, account.handles.live)

/-- Two states that differ in chain links, heads and chain counts only. -/
structure SameSlots (before after : Kernel) : Prop where
  accounts : ∀ pid, (after.accounts pid).map Account.skeleton =
    (before.accounts pid).map Account.skeleton
  budgets : after.budgets = before.budgets
  endpoints : after.endpoints = before.endpoints
  devices : after.devices = before.devices
  processes : after.processes = before.processes
  ram : after.ram = before.ram

namespace SameSlots

variable {before middle after : Kernel}

variable (kernel : Kernel)

theorem refl : SameSlots kernel kernel :=
  ⟨fun _ => rfl, rfl, rfl, rfl, rfl, rfl⟩

theorem trans (hfirst : SameSlots before middle)
    (hsecond : SameSlots middle after) : SameSlots before after where
  accounts := fun pid => (hsecond.accounts pid).trans (hfirst.accounts pid)
  budgets := hsecond.budgets.trans hfirst.budgets
  endpoints := hsecond.endpoints.trans hfirst.endpoints
  devices := hsecond.devices.trans hfirst.devices
  processes := hsecond.processes.trans hfirst.processes
  ram := hsecond.ram.trans hfirst.ram

/-- An edit of one table that keeps its slots and counts. -/
theorem modifyTable (pid : ℕ) {f : HandleTable → HandleTable}
    (hslots : ∀ table, (f table).slotsOf = table.slotsOf)
    (hlive : ∀ table, (f table).live = table.live) :
    SameSlots kernel (kernel.modifyTable pid f) := by
  refine ⟨fun other => ?_, rfl, rfl, rfl, rfl, rfl⟩
  simp only [Kernel.modifyTable, Kernel.modifyAccount]
  by_cases hother : other = pid
  · subst hother
    rw [update_self, Option.map_map]
    congr 1
    funext account
    simp [Account.skeleton, hslots, hlive]
  · rw [update_of_ne hother]

theorem setHead (chain : Chain) (frame : ℕ) (first : Link) :
    SameSlots kernel (kernel.setHead chain frame first) :=
  ⟨fun _ => rfl, rfl, rfl, rfl, rfl, rfl⟩

theorem modifyEntry (pid index : ℕ) {f : Entry → Entry}
    (hlinks : ∀ entry, (f entry).slot = entry.slot) :
    SameSlots kernel (kernel.modifyEntry pid index f) :=
  modifyTable kernel pid (fun table => table.slotsOf_modifyEntry_links index hlinks)
    (fun table => table.modifyEntry_live index f)

theorem setPrev (chain : Chain) (pid index : ℕ)
    (link : Link) : SameSlots kernel (kernel.setPrev chain pid index link) :=
  modifyEntry kernel pid index fun _ => rfl

theorem setNext (chain : Chain) (pid index : ℕ)
    (link : Link) : SameSlots kernel (kernel.setNext chain pid index link) :=
  modifyEntry kernel pid index fun _ => rfl

theorem setPrevOf (chain : Chain) (target link : Link) :
    SameSlots kernel (kernel.setPrevOf chain target link) := by
  cases target with
  | none => exact refl kernel
  | head frame => exact refl kernel
  | slot pid index => exact setPrev kernel chain pid index link

theorem modifyChained (pid index : ℕ) (f : ℕ → ℕ) :
    SameSlots kernel (kernel.modifyChained pid index f) := by
  unfold Kernel.modifyChained
  split
  · exact refl kernel
  · exact modifyTable kernel pid (fun _ => rfl) (fun _ => rfl)

theorem enter (chain : Chain) (frame pid index : ℕ) :
    SameSlots kernel (kernel.enter chain frame pid index) := by
  refine trans ?_ (modifyChained _ pid index _)
  refine trans ?_ (setHead _ chain frame _)
  refine trans ?_ (setPrevOf _ chain _ _)
  exact trans (setPrev kernel chain pid index _) (setNext _ chain pid index _)

theorem enterAt (chain : Chain) (head : Option ℕ) (pid index : ℕ) :
    SameSlots kernel (kernel.enterAt chain head pid index) := by
  cases head with
  | none => exact refl kernel
  | some frame => exact enter kernel chain frame pid index

theorem leave (chain : Chain) (pid index : ℕ) :
    SameSlots kernel (kernel.leave chain pid index) := by
  have hunlink : ∀ start : Kernel, ∀ prev next : Link,
      SameSlots start ((((start.setPrevOf chain next prev).setPrev chain pid
        index .none).setNext chain pid index .none).modifyChained pid index
          (· - 1)) := by
    intro start prev next
    refine trans ?_ (modifyChained _ pid index _)
    refine trans ?_ (setNext _ chain pid index _)
    exact trans (setPrevOf start chain _ _) (setPrev _ chain pid index _)
  unfold Kernel.leave
  cases kernel.prevLink chain pid index with
  | none => exact refl kernel
  | head frame => exact trans (setHead kernel chain frame _) (hunlink _ _ _)
  | slot holder at_ =>
    exact trans (setNext kernel chain holder at_ _) (hunlink _ _ _)

/-- The table and the budget of a process, as far as `SameSlots` fixes them. -/
theorem account {pid : ℕ} {account : Account} (hsame : SameSlots before after)
    (haccount : before.accounts pid = some account) :
    ∃ same, after.accounts pid = some same ∧ same.budget = account.budget ∧
      same.frames = account.frames ∧
      same.handles.slotsOf = account.handles.slotsOf ∧
      same.handles.live = account.handles.live := by
  have hskeleton := hsame.accounts pid
  rw [haccount, map_some, map_eq_some_iff] at hskeleton
  obtain ⟨same, hafter, heq⟩ := hskeleton
  simp only [Account.skeleton, Prod.mk.injEq] at heq
  exact ⟨same, hafter, heq.1, heq.2.1, heq.2.2.1, heq.2.2.2⟩

theorem symm (hsame : SameSlots before after) : SameSlots after before where
  accounts := fun pid => (hsame.accounts pid).symm
  budgets := hsame.budgets.symm
  endpoints := hsame.endpoints.symm
  devices := hsame.devices.symm
  processes := hsame.processes.symm
  ram := hsame.ram.symm

end SameSlots

/-! ## Every operation keeps the counts -/

namespace HandleTable

/-- A slot is written and the page's count follows. -/
theorem Counted.write {table : HandleTable} {page slot count : ℕ}
    {content : ℕ → Slot} {value : Slot} (hcounted : table.Counted)
    (hpage : page < maxHandlePages) (hslot : slot < handlesPerPage)
    (hcontent : table.slotsOf page = some content)
    (hcount : count + (if content slot = .empty then 0 else 1) =
      table.live page + (if value = .empty then 0 else 1)) :
    ((table.modifyEntry (indexAt page slot) fun entry =>
      { entry with slot := value }).setLive page count).Counted := by
  have hslots := table.slotsOf_write (position_indexAt hpage hslot) value
  constructor
  · intro other content' hcontent'
    have hcontent' : (table.modifyEntry (indexAt page slot) fun entry =>
        { entry with slot := value }).slotsOf other = some content' := hcontent'
    rw [hslots] at hcontent'
    by_cases hother : other = page
    · subst hother
      rw [update_self, hcontent, map_some, some.injEq] at hcontent'
      subst hcontent'
      have hfilled := filled_update content value hslot
      have hlive := hcounted.used other content hcontent
      simp only [setLive, update_self]
      omega
    · rw [update_of_ne hother] at hcontent'
      simpa [setLive, update_of_ne hother] using hcounted.used other content' hcontent'
  · intro other hmissing
    have hmissing : (table.modifyEntry (indexAt page slot) fun entry =>
        { entry with slot := value }).slotsOf other = none := hmissing
    rw [hslots] at hmissing
    by_cases hother : other = page
    · subst hother
      simp [hcontent] at hmissing
    · rw [update_of_ne hother] at hmissing
      simpa [setLive, update_of_ne hother] using hcounted.missing other hmissing

theorem slotsOf_openPage (table : HandleTable) (page : ℕ) :
    (table.openPage page).slotsOf =
      update table.slotsOf page (some fun _ => .empty) := by
  funext other
  by_cases hother : other = page
  · subst hother
    simp [slotsOf, openPage, Entry.zero]
  · simp [slotsOf, openPage, update_of_ne hother]

theorem slotsOf_closePage (table : HandleTable) (page : ℕ) :
    (table.closePage page).slotsOf = update table.slotsOf page none := by
  funext other
  by_cases hother : other = page
  · subst hother
    simp [slotsOf, closePage]
  · simp [slotsOf, closePage, update_of_ne hother]

theorem Counted.openPage {table : HandleTable} {page : ℕ}
    (hcounted : table.Counted) (hmissing : table.slotsOf page = none) :
    (table.openPage page).Counted := by
  constructor
  · intro other content hcontent
    rw [slotsOf_openPage] at hcontent
    by_cases hother : other = page
    · subst hother
      rw [update_self, some.injEq] at hcontent
      subst hcontent
      exact (hcounted.missing other hmissing).trans filled_zero.symm
    · rw [update_of_ne hother] at hcontent
      exact hcounted.used other content hcontent
  · intro other hother
    rw [slotsOf_openPage] at hother
    by_cases heq : other = page
    · subst heq
      exact hcounted.missing other hmissing
    · rw [update_of_ne heq] at hother
      exact hcounted.missing other hother

theorem Counted.closePage {table : HandleTable} {page : ℕ}
    (hcounted : table.Counted) (hlive : table.live page = 0) :
    (table.closePage page).Counted := by
  constructor
  · intro other content hcontent
    rw [slotsOf_closePage] at hcontent
    by_cases hother : other = page
    · subst hother
      simp at hcontent
    · rw [update_of_ne hother] at hcontent
      exact hcounted.used other content hcontent
  · intro other hother
    by_cases heq : other = page
    · subst heq
      exact hlive
    · rw [slotsOf_closePage, update_of_ne heq] at hother
      exact hcounted.missing other hother

theorem Counted.of_same {table same : HandleTable} (hcounted : table.Counted)
    (hslots : same.slotsOf = table.slotsOf) (hlive : same.live = table.live) :
    same.Counted where
  used := fun page content hcontent => by
    rw [hlive]
    exact hcounted.used page content (hslots ▸ hcontent)
  missing := fun page hmissing => by
    rw [hlive]
    exact hcounted.missing page (hslots ▸ hmissing)

theorem Counted.empty : HandleTable.empty.Counted where
  used := fun _ _ hcontent => by simp [slotsOf, HandleTable.empty] at hcontent
  missing := fun _ _ => rfl

end HandleTable

namespace Kernel

def Counted (kernel : Kernel) : Prop :=
  ∀ pid account, kernel.accounts pid = some account → account.handles.Counted

theorem Counted.of_sameSlots {before after : Kernel}
    (hcounted : before.Counted) (hsame : SameSlots before after) :
    after.Counted := by
  intro pid account haccount
  obtain ⟨old, hold, -, -, hslots, hlive⟩ := hsame.symm.account haccount
  exact (hcounted pid old hold).of_same hslots.symm hlive.symm

/-- An edit of one table keeps the counts if it keeps them in that table. -/
theorem Counted.modifyTable {kernel : Kernel} {pid : ℕ}
    {f : HandleTable → HandleTable} (hcounted : kernel.Counted)
    (hf : ∀ account, kernel.accounts pid = some account → (f account.handles).Counted) :
    (kernel.modifyTable pid f).Counted := by
  intro other account haccount
  by_cases hother : other = pid
  · subst hother
    simp only [Kernel.modifyTable, modifyAccount, update_self,
      map_eq_some_iff] at haccount
    obtain ⟨old, hold, rfl⟩ := haccount
    exact hf old hold
  · simp only [Kernel.modifyTable, modifyAccount, update_of_ne hother] at haccount
    exact hcounted other account haccount

end Kernel

end Redoubt
