import Redoubt.Dma.Invariant

/-!
# Allocation

A new run takes free frames of the pool and is charged to its holder's budget; if it
cannot be mapped, nothing is left of it.
-/

namespace Redoubt.Dma

open Function Finset Option Memory

variable {m : Memory}

/-- The stretch found is free. -/
theorem stretch_spec {held : ℕ → Bool} {npages left i run start : ℕ} (hpos : 0 < npages)
    (hrun : run < npages)
    (hle : run ≤ i) (hfree : ∀ f, i ≤ f + run → f < i → held f = false)
    (hfound : stretch held npages left i run = some start) :
    ∀ f, start ≤ f → f < start + npages → held f = false := by
  induction left generalizing i run with
  | zero => exact nomatch hfound
  | succ left ih =>
    rw [stretch] at hfound
    by_cases hheld : held i = true
    · rw [if_pos hheld, if_neg hpos.ne] at hfound
      exact ih hpos (Nat.zero_le _) (fun f hf hlt => by omega) hfound
    · have hnext (f : ℕ) (hf : i + 1 ≤ f + (run + 1)) (hlt : f < i + 1) :
          held f = false := by
        by_cases heq : f = i
        · rw [heq]
          exact Bool.eq_false_iff.mpr hheld
        · exact hfree f (by omega) (by omega)
      rw [if_neg hheld] at hfound
      split at hfound
      · next hall =>
          cases hfound
          exact fun f hf hlt => hnext f (by omega) (by omega)
      · next hmore => exact ih (by omega) (by omega) hnext hfound

/-- What a charge leaves. -/
theorem charge_spec {b n : ℕ} {m' : Memory} (hcharge : m.charge b n = some m') :
    n ≤ m.freePages b ∧ m' = { m with used := update m.used b (m.used b + n) } := by
  obtain ⟨charged, hcharged, rfl⟩ := Option.map_eq_some_iff.mp hcharge
  obtain ⟨hfits, rfl⟩ := Pages.of_charge hcharged
  exact ⟨hfits, rfl⟩

theorem limit_eq {b : ℕ} {B : Budget} (hB : m.tree.budgets b = some B) :
    m.limit b = B.limit := by
  rw [Memory.limit, hB]
  rfl

theorem freePages_eq {b : ℕ} {B : Budget} (hB : m.tree.budgets b = some B) :
    m.freePages b = B.limit - m.used b :=
  congrArg (· - m.used b) (limit_eq hB)

/-- What a new run is and what it leaves. -/
theorem newRun_spec {pid slot npages start : ℕ} {m' : Memory} (hpos : 0 < npages)
    (hnew : m.newRun pid slot npages = some (start, m')) :
    ∃ k a, m.runs (slot, k) = none ∧ k < maxRuns ∧ m.accounts pid = some a ∧
      npages ≤ m.freePages a.budget ∧
      (∀ f, start ≤ f → f < start + npages → m.held f = false) ∧
      m' = { m with
        used := update m.used a.budget (m.used a.budget + npages)
        held := fun f => if start ≤ f ∧ f < start + npages then true else m.held f
        runs := update m.runs (slot, k)
          (some ⟨start, npages, some pid, some a.budget, false, a.budget⟩)
        log := m.log ++ [.taken (start, npages)] } := by
  obtain ⟨k, hk, hnew⟩ := bind_eq_some_iff.mp hnew
  obtain ⟨a, ha, hnew⟩ := bind_eq_some_iff.mp hnew
  obtain ⟨m₁, hcharge, hnew⟩ := bind_eq_some_iff.mp hnew
  obtain ⟨start', hstretch, hnew⟩ := bind_eq_some_iff.mp hnew
  obtain ⟨hfits, rfl⟩ := charge_spec hcharge
  cases hnew
  have hentry := List.find?_some hk
  refine ⟨k, a, of_decide_eq_true hentry,
    List.mem_range.mp (List.mem_of_find?_eq_some hk), ha,
    hfits, ?_, rfl⟩
  exact stretch_spec hpos hpos le_rfl (fun f hf hlt => absurd hlt (Nat.not_lt_zero f))
    hstretch

theorem Kept.newRun (h : Kept m) {pid slot npages start : ℕ} {m' : Memory}
    (hpos : 0 < npages)
    (hslot : slot < m.devices) (hnew : m.newRun pid slot npages = some (start, m')) :
    Kept m' := by
  obtain ⟨k, a, hentry, hk, ha, hfits, hfree, rfl⟩ := newRun_spec hpos hnew
  obtain ⟨-, hbudget, -⟩ := h.accounts pid a ha
  obtain ⟨A, hA⟩ := isSome_iff_exists.mp hbudget
  have hplace : (slot, k) ∈ entries m.devices :=
    mem_product.mpr ⟨mem_range.mpr hslot, mem_range.mpr hk⟩
  let r : Run := ⟨start, npages, some pid, some a.budget, false, a.budget⟩
  have hrun {q : ℕ × ℕ} {s : Run} (hq : update m.runs (slot, k) (some r) q = some s) :
      q = (slot, k) ∧ s = r ∨ m.runs q = some s := by
    rw [update_apply] at hq
    split at hq
    · next heq => exact .inl ⟨heq, (some.inj hq).symm⟩
    · exact .inr hq
  -- no run had any of its frames
  have hnew' {q : ℕ × ℕ} {s : Run} {f : ℕ} (hq : m.runs q = some s) (hs : s.Has f) :
      ¬ r.Has f := by
    intro hr
    have hheld := (h.held f).mpr ⟨q, s, hq, hs⟩
    rw [hfree f hr.1 hr.2] at hheld
    exact nomatch hheld
  exact { h with
    placed := by
      intro q s hq
      rcases hrun hq with ⟨rfl, rfl⟩ | hq
      · exact ⟨hplace, hpos, h.tree.known a.budget A hA⟩
      · exact h.placed q s hq
    apart := by
      intro q q' s s' f hq hq' hs hs'
      rcases hrun hq with ⟨rfl, rfl⟩ | hq <;> rcases hrun hq' with ⟨rfl, rfl⟩ | hq'
      · rfl
      · exact absurd hs (hnew' hq' hs')
      · exact absurd hs' (hnew' hq hs)
      · exact h.apart q q' s s' f hq hq' hs hs'
    held := by
      intro f
      dsimp only
      split
      · next hhas =>
          exact ⟨fun _ => ⟨(slot, k), r, update_self _ _ _, hhas⟩, fun _ => rfl⟩
      · next hnot =>
          refine (h.held f).trans ⟨fun ⟨q, s, hq, hs⟩ => ⟨q, s, ?_, hs⟩,
            fun ⟨q, s, hq, hs⟩ => ?_⟩
          · have hne : q ≠ (slot, k) := by
              rintro rfl
              exact nomatch hentry.symm.trans hq
            rw [update_of_ne hne]
            exact hq
          · rcases hrun hq with ⟨-, rfl⟩ | hq
            · exact absurd hs hnot
            · exact ⟨q, s, hq, hs⟩
    live := by
      intro q s hq hs
      rcases hrun hq with ⟨-, rfl⟩ | hq
      · exact ⟨pid, a, rfl, ha, rfl, rfl⟩
      · exact h.live q s hq hs
    survivor := by
      intro q s hq
      rcases hrun hq with ⟨-, rfl⟩ | hq
      · exact .here hbudget
      · exact h.survivor q s hq
    paid := by
      intro b B hB
      have hpaid := h.paid b B hB
      have hcharges := charges_setRun hplace (some r) b
      have hnone : costOf b none = 0 := rfl
      rw [hentry, hnone, add_zero] at hcharges
      change update m.used a.budget (m.used a.budget + npages) b =
        m.elsewhere b + (m.setRun (slot, k) (some r)).charges b + m.tree.carved b ∧
          update m.used a.budget (m.used a.budget + npages) b ≤ B.limit
      rw [hcharges, update_apply, costOf]
      by_cases heq : b = a.budget
      · subst heq
        rw [freePages_eq hA] at hfits
        cases hA.symm.trans hB
        rw [if_pos rfl, if_pos rfl]
        change m.used a.budget + npages = m.elsewhere a.budget +
          (m.charges a.budget + npages) + _ ∧ _
        omega
      · rw [if_neg heq, if_neg fun hsome => heq (some.inj hsome).symm]
        exact hpaid }

/-- A run that could not be mapped leaves nothing but its two events. -/
theorem dropRun_newRun (h : Kept m) {pid slot npages start : ℕ} {m' : Memory}
    (hpos : 0 < npages)
    (hslot : slot < m.devices) (hnew : m.newRun pid slot npages = some (start, m')) :
    m'.dropRun slot start =
      { m with
        log := m.log ++ [.taken (start, npages)] ++ [.dropped (start, npages)] } := by
  have hkept := h.newRun hpos hslot hnew
  obtain ⟨k, a, hentry, hk, ha, -, hfree, rfl⟩ := newRun_spec hpos hnew
  obtain ⟨-, hbudget, -⟩ := h.accounts pid a ha
  generalize hr : (⟨start, npages, some pid, some a.budget, false, a.budget⟩ : Run) =
    r at hkept ⊢
  generalize hm : ({ m with used := _, held := _, runs := _, log := _ } : Memory) =
    m' at hkept ⊢
  have hrun : m'.runs (slot, k) = some r := by
    rw [← hm]
    exact update_self _ _ _
  -- the entry found by its first frame is the new one
  have hfound :
      ((List.range maxRuns).find? fun k => (m'.runs (slot, k)).any (·.start = start)) =
        some k := by
    cases hfind : (List.range maxRuns).find? fun k =>
      (m'.runs (slot, k)).any (·.start = start) with
    | none =>
      have hnone := List.find?_eq_none.mp hfind k (List.mem_range.mpr hk)
      rw [hrun, ← hr] at hnone
      exact absurd (decide_eq_true rfl) hnone
    | some k' =>
      have hstart := List.find?_some hfind
      obtain ⟨r', hr', hsame⟩ := (any_eq_true _ _).mp hstart
      have hhas : r'.Has start := by
        have hsame' := of_decide_eq_true hsame
        have hpos' := (hkept.placed _ r' hr').2.1
        exact ⟨hsame'.le, by omega⟩
      have hhas' : r.Has start := by
        rw [← hr]
        exact ⟨le_rfl, Nat.lt_add_of_pos_right hpos⟩
      have heq := hkept.apart _ _ r' r start hr' hrun hhas hhas'
      exact congrArg some (congrArg Prod.snd heq)
  have hlive (b : ℕ) (hb : r.charged = some b) :
      ((m'.setRun (slot, k) none).tree.budgets b).isSome = true := by
    rw [← hr] at hb
    cases hb
    rw [← hm]
    exact hbudget
  rw [dropRun, hfound]
  dsimp only
  rw [hrun]
  dsimp only
  rw [pool_eq hlive, ← hm, ← hr]
  have hruns : update (update m.runs (slot, k) (some r)) (slot, k) none = m.runs := by
    rw [update_idem, ← hentry, update_eq_self]
  have hheld : (fun f => if start ≤ f ∧ f < start + npages then false
      else if start ≤ f ∧ f < start + npages then true else m.held f) = m.held := by
    funext f
    split
    · next hin => exact (hfree f hin.1 hin.2).symm
    · rfl
  have hused :
      (fun b => update m.used a.budget (m.used a.budget + npages) b -
        costOf b (some r)) = m.used := by
    funext b
    rw [update_apply, costOf, ← hr]
    by_cases heq : b = a.budget
    · rw [if_pos heq, if_pos (heq ▸ rfl), heq, Nat.add_sub_cancel]
    · rw [if_neg heq, if_neg fun hsome => heq (some.inj hsome).symm, Nat.sub_zero]
  rw [← hr] at hruns hused
  simp only [note, setRun, hruns, hheld, hused, Run.frames]

/-- A call refused, a run handed out, or one that came and went. -/
theorem dmaAlloc_cases (h : Kept m) (pid slot npages : ℕ) (mapped : Bool) :
    m.dmaAlloc pid slot npages mapped = m ∨
    ∃ start m', 0 < npages ∧ slot < m.devices ∧
      m.newRun pid slot npages = some (start, m') ∧
      (m.dmaAlloc pid slot npages mapped =
        m'.note (.allocated pid slot (start, npages)) ∨
        m.dmaAlloc pid slot npages mapped =
          { m with
            log := m.log ++ [.taken (start, npages)] ++
            [.dropped (start, npages)] }) := by
  rw [dmaAlloc]
  split
  · exact .inl rfl
  · next hasked =>
      obtain ⟨hne, hslot⟩ := not_or.mp hasked
      have hpos := Nat.pos_of_ne_zero hne
      have hslot := Nat.lt_of_not_le hslot
      cases hnew : m.newRun pid slot npages with
      | none => exact .inl rfl
      | some found =>
        refine .inr ⟨found.1, found.2, hpos, hslot, rfl, ?_⟩
        dsimp only
        split
        · exact .inl rfl
        · exact .inr (dropRun_newRun h hpos hslot hnew)

theorem Kept.dmaAlloc (h : Kept m) (pid slot npages : ℕ) (mapped : Bool) :
    Kept (m.dmaAlloc pid slot npages mapped) := by
  rcases dmaAlloc_cases h pid slot npages mapped with heq | ⟨start, m', hpos, hslot,
    hnew, heq | heq⟩
  · exact heq.symm ▸ h
  · exact heq.symm ▸ (h.newRun hpos hslot hnew).logged _
  · exact heq.symm ▸ h.logged _

theorem dmaAlloc_tree (h : Kept m) (pid slot npages : ℕ) (mapped : Bool) :
    (m.dmaAlloc pid slot npages mapped).tree = m.tree := by
  rcases dmaAlloc_cases h pid slot npages mapped with heq | ⟨start, m', hpos, -,
    hnew, heq | heq⟩
  · rw [heq]
  · obtain ⟨k, a, -, -, -, -, -, rfl⟩ := newRun_spec hpos hnew
    rw [heq, note]
  · rw [heq]

/-! ### Processes -/

/-- An account opened, or changed in its budget. -/
theorem Kept.account (h : Kept m) {pid : ℕ} {a : Account} (hpid : pid < maxPids)
    (hbudget : (m.tree.budgets a.budget).isSome = true)
    (hslots : ∀ slot ∈ a.mapped, slot < m.devices)
    (hsame : ∀ old, m.accounts pid = some old → old.budget = a.budget) :
    Kept { m with accounts := update m.accounts pid (some a) } := by
  exact { h with
    accounts := by
      intro pid' a' ha'
      change update m.accounts pid (some a) pid' = some a' at ha'
      rw [update_apply] at ha'
      split at ha'
      · next heq =>
          cases ha'
          exact ⟨heq ▸ hpid, hbudget, hslots⟩
      · exact h.accounts pid' a' ha'
    live := by
      intro p r hp hr
      obtain ⟨pid', a', hholder, ha', hcharged, horigin⟩ := h.live p r hp hr
      by_cases heq : pid' = pid
      · subst heq
        have hbudgets := hsame a' ha'
        exact ⟨pid', a, hholder, update_self _ _ _, hbudgets ▸ hcharged,
          hbudgets ▸ horigin⟩
      · exact ⟨pid', a', hholder, (update_of_ne heq _ _).trans ha', hcharged, horigin⟩ }

theorem Kept.mapDevice (h : Kept m) (pid slot : ℕ) (mapped : Bool) :
    Kept (m.mapDevice pid slot mapped) := by
  rw [Memory.mapDevice]
  split
  · exact h
  · next a ha =>
      obtain ⟨hpid, hbudget, hslots⟩ := h.accounts pid a ha
      split
      · next hmapped =>
          refine (h.account (a := { a with mapped := insert slot a.mapped }) hpid
            hbudget (fun i hi => ?_)
            fun old hold => ?_).logged _
          · rcases Finset.mem_insert.mp hi with rfl | hi
            · exact hmapped.2
            · exact hslots i hi
          · cases ha.symm.trans hold
            rfl
      · exact h

theorem Kept.start (h : Kept m) (pid b : ℕ) : Kept (m.start pid b) := by
  rw [Memory.start]
  split
  · next hfree =>
      refine (h.account (a := ⟨b, ∅⟩) hfree.1 hfree.2.2 (fun i hi => ?_) fun old hold =>
        ?_).logged _
      · exact absurd hi (notMem_empty i)
      · exact nomatch hfree.2.1.symm.trans hold
  · exact h

end Redoubt.Dma
