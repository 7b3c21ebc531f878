import Redoubt.Admission.Holdings

/-!
# What admission lets be held altogether

Sized for the worst case: each override's slot at the larger of its cap and the
default, and every other slot at the default.  That counts an override's cap once,
so it bounds what is held as long as no two buckets that hold anything at once have
the same override.  A root badge's override covers the buckets of all its label sets.
-/

namespace Redoubt.Admission

open Table List Option

variable {a b : Admission} {key key' : AdmitKey} {share : ℕ} {r : Resource}
    {fixed memory : Bool}
  {limits : Limits} {overrides : List Override} {cost : Cost}

def openCalls (a : Admission) : ℕ := tally (fun _ c => c.held .inFlight) a.buckets

/-- What a bucket's holdings cost. -/
def Counts.bytes (c : Counts) (cost : Cost) : ℕ :=
  (Resource.all.map fun r => c.held r * cost.of r).sum

def bytes (a : Admission) (cost : Cost) : ℕ := tally (fun _ c => c.bytes cost) a.buckets

/-- No bucket that holds something shares an account-0 override with `key`'s. -/
def Apart (a : Admission) (key : AdmitKey) : Prop :=
  ∀ o ∈ a.overrides, o.account = 0 → o.covers key = true →
    ∀ key' ∈ a.buckets.keys, o.covers key' = true → key' = key

/-- A call that takes something keeps the overridden buckets apart. -/
def Call.Apart (a : Admission) : Call → Prop
  | .admitShared key _ _ _ => a.Apart key
  | .admitFixed key _ _ _ => a.Apart key
  | .release _ _ _ => True
  | .releaseFixed _ _ _ => True

/-- So does each call of a run. -/
def RunApart : Admission → List Call → Prop
  | _, [] => True
  | a, step :: rest => step.Apart a ∧ RunApart (a.call step) rest

instance (a : Admission) (key : AdmitKey) : Decidable (a.Apart key) :=
  inferInstanceAs (Decidable (∀ o ∈ a.overrides, o.account = 0 → o.covers key = true →
    ∀ key' ∈ a.buckets.keys, o.covers key' = true → key' = key))

instance (a : Admission) : (step : Call) → Decidable (step.Apart a)
  | .admitShared key _ _ _ => inferInstanceAs (Decidable (a.Apart key))
  | .admitFixed key _ _ _ => inferInstanceAs (Decidable (a.Apart key))
  | .release _ _ _ => inferInstanceAs (Decidable True)
  | .releaseFixed _ _ _ => inferInstanceAs (Decidable True)

instance decidableRunApart : (a : Admission) → (calls : List Call) →
    Decidable (RunApart a calls)
  | _, [] => inferInstanceAs (Decidable True)
  | a, step :: rest =>
    have := decidableRunApart (a.call step) rest
    inferInstanceAs (Decidable (step.Apart a ∧ RunApart (a.call step) rest))

/-- At most as many buckets as may be, each within its caps, no two with one
override. -/
structure Sized (a : Admission) : Prop where
  few : a.buckets.entries.length ≤ a.limits.buckets.toNat
  capped : ∀ key c, a.buckets.lookup key = some c → ∀ r, c.held r ≤ a.cap key r
  own : ∀ o ∈ a.overrides, ∀ key ∈ a.buckets.keys, ∀ key' ∈ a.buckets.keys,
    o.covers key = true → o.covers key' = true → key = key'

/-- An account's override covers one bucket. -/
theorem Override.key_eq {o : Override} (haccount : o.account ≠ 0)
    (hkey : o.covers key = true)
    (hkey' : o.covers key' = true) : key = key' := by
  simp only [Override.covers] at hkey hkey'
  cases key
  cases key'
  simp_all

theorem Sized.held_le_cap (hsized : Sized a) (key : AdmitKey) (r : Resource) :
    a.held key r ≤ a.cap key r := by
  rw [held, bucketCounts, value]
  cases hlookup : a.buckets.lookup key with
  | none => exact Nat.zero_le _
  | some c => exact hsized.capped key c hlookup r

theorem Sized.take (hsized : Sized a) (hapart : a.Apart key)
    (htake : a.take key share r fixed memory = some b) : Sized b := by
  obtain ⟨hroom, hbucket, _, rfl⟩ := take_eq_some htake
  have hheld : ∀ r', ((a.bucketCounts key).plus r fixed).held r' ≤ a.cap key r' := by
    intro r'
    change Function.update (a.bucketCounts key).held r ((a.bucketCounts key).held r + 1)
      r' ≤ _
    by_cases hr : r' = r
    · subst hr
      rw [Function.update_self]
      exact hroom
    · rw [Function.update_of_ne hr]
      exact hsized.held_le_cap key r'
  have hkeys : ∀ {key'},
      key' ∈ (a.buckets.insert key ((a.bucketCounts key).plus r fixed)).keys →
      key' = key ∨ key' ∈ a.buckets.keys := by
    intro key' hkey'
    rwa [← AList.mem_keys, AList.mem_insert] at hkey'
  refine ⟨?_, ?_, ?_⟩
  · change (a.buckets.insert key _).entries.length ≤ a.limits.buckets.toNat
    cases hlookup : a.buckets.lookup key with
    | some c =>
      rw [length_insert_of_lookup hlookup]
      exact hsized.few
    | none =>
      rw [length_insert_of_lookup_none hlookup]
      rw [hlookup] at hbucket
      exact hbucket.resolve_left Bool.false_ne_true
  · intro key' c hlookup r'
    rw [lookup_insert] at hlookup
    split_ifs at hlookup with hkey
    · rw [hkey, ← some.inj hlookup]
      exact hheld r'
    · exact hsized.capped key' c hlookup r'
  · intro o ho key₁ hkey₁ key₂ hkey₂ hcovers₁ hcovers₂
    by_cases haccount : o.account = 0
    · rcases hkeys hkey₁ with rfl | hold₁ <;> rcases hkeys hkey₂ with rfl | hold₂
      · rfl
      · exact (hapart o ho haccount hcovers₁ key₂ hold₂ hcovers₂).symm
      · exact hapart o ho haccount hcovers₂ key₁ hold₁ hcovers₁
      · exact hsized.own o ho key₁ hold₁ key₂ hold₂ hcovers₁ hcovers₂
    · exact Override.key_eq haccount hcovers₁ hcovers₂

theorem Sized.give (hsized : Sized a) : Sized (a.give key share r fixed) := by
  rw [Admission.give]
  split
  · rename_i bucket entry hbucket _
    by_cases hzero : (if fixed then entry.fixed r else entry.working r) = 0
    · rw [if_pos hzero]
      exact hsized
    rw [if_neg hzero]
    have hlookup : ∀ {key' c},
        (settle a.buckets key (bucket.minus r fixed)).lookup key' = some c →
        ∃ c', a.buckets.lookup key' = some c' ∧ ∀ r', c.held r' ≤ c'.held r' :=
      lookup_settle_le hbucket fun _ => held_minus_le bucket
    have hkeys : ∀ {key'}, key' ∈ (settle a.buckets key (bucket.minus r fixed)).keys →
        key' ∈ a.buckets.keys := by
      intro key' hkey'
      rw [← AList.mem_keys, ← AList.lookup_isSome] at hkey' ⊢
      obtain ⟨c, hc⟩ := isSome_iff_exists.mp hkey'
      obtain ⟨c', hc', _⟩ := hlookup hc
      rw [hc']
      rfl
    refine ⟨(length_settle_le hbucket).trans hsized.few, ?_, ?_⟩
    · intro key' c hc r'
      obtain ⟨c', hc', hle⟩ := hlookup hc
      exact (hle r').trans (hsized.capped key' c' hc' r')
    · intro o ho key₁ hkey₁ key₂ hkey₂
      exact hsized.own o ho key₁ (hkeys hkey₁) key₂ (hkeys hkey₂)
  · exact hsized

theorem Sized.call (hsized : Sized a) {step : Call} (hapart : step.Apart a) :
    Sized (a.call step) := by
  have htake : ∀ key share r fixed memory, a.Apart key →
      Sized ((a.take key share r fixed memory).getD a) := by
    intro key share r fixed memory hapart
    cases hresult : a.take key share r fixed memory with
    | none => exact hsized
    | some b => exact hsized.take hapart hresult
  cases step with
  | admitShared key share r memory => exact htake key share r false memory hapart
  | admitFixed key share r memory => exact htake key share r true memory hapart
  | release key share r => exact hsized.give
  | releaseFixed key share r => exact hsized.give

theorem Sized.run (hsized : Sized a) {calls : List Call} (hapart : RunApart a calls) :
    Sized (a.run calls) := by
  induction calls generalizing a with
  | nil => exact hsized
  | cons step calls ih => exact ih (hsized.call hapart.1) hapart.2

theorem sized_of_empty (hbuckets : a.buckets = ∅) : Sized a := by
  refine ⟨?_, fun key c hlookup => ?_, fun o _ key hkey => ?_⟩
  · rw [hbuckets]
    exact Nat.zero_le _
  · rw [hbuckets] at hlookup
    exact nomatch hlookup
  · rw [hbuckets] at hkey
    exact nomatch hkey

/-! ### The sum over all buckets -/

/-- A bucket's slot: its override's, if it has one. -/
def slot (a : Admission) (key : AdmitKey) : Option Override :=
  a.overrides.find? fun o => o.covers key

theorem slot_covers {o : Override} (hslot : a.slot key = some o) :
    o.covers key = true :=
  find?_some (p := fun o : Override => o.covers key) hslot

/-- What buckets weigh together, each no more than its slot allows. -/
theorem Sized.tally_le (hsized : Sized a)
    (hlength : a.overrides.length ≤ a.limits.buckets.toNat)
    {weight : Counts → ℕ} {big : Override → ℕ} {small : ℕ} (hbig : ∀ o, small ≤ big o)
    (hweight : ∀ key c, a.buckets.lookup key = some c →
      weight c ≤ ((a.slot key).map big).getD small) :
    tally (fun _ c => weight c) a.buckets ≤
      (a.overrides.map big).sum + (a.limits.buckets.toNat - a.overrides.length) *
      small := by
  refine tally_le_slots (fun o _ => hbig o)
    (fun key o hslot => mem_of_find?_eq_some hslot) ?_
    hweight hsized.few hlength
  intro key₁ key₂ o hkey₁ hkey₂ hslot₁ hslot₂
  exact hsized.own o (mem_of_find?_eq_some hslot₁) key₁ hkey₁ key₂ hkey₂
    (slot_covers hslot₁) (slot_covers hslot₂)

/-- A bucket's open calls are within its slot's. -/
theorem Sized.inFlight_le (hsized : Sized a) {c : Counts}
    (hlookup : a.buckets.lookup key = some c) :
    c.held .inFlight ≤
      ((a.slot key).map fun o => max o.inFlight.toNat a.limits.inFlight.toNat).getD
        a.limits.inFlight.toNat := by
  have hcap := hsized.capped key c hlookup .inFlight
  rw [cap, ← slot] at hcap
  cases hslot : a.slot key with
  | none =>
    rw [hslot] at hcap
    exact hcap
  | some o =>
    rw [hslot] at hcap
    exact hcap.trans (le_max_left _ _)

/-! ### What it costs -/

/-- What one bucket at these caps costs. -/
def Limits.costOne (limits : Limits) (cost : Cost) (inFlight files state : ℕ) : ℕ :=
  inFlight * cost.inFlight.toNat + files * cost.file.toNat + state * cost.state.toNat +
    (limits.requests.toNat * cost.request.toNat + limits.pages.toNat * cost.page.toNat)

theorem eq_of_checkedAdd {x y n : ℕ} (hsum : checkedAdd x y = some n) : n = x + y := by
  rw [checkedAdd] at hsum
  split at hsum
  · exact (some.inj hsum).symm
  · exact nomatch hsum

theorem eq_of_checkedMul {x y n : ℕ} (hproduct : checkedMul x y = some n) :
    n = x * y := by
  rw [checkedMul] at hproduct
  split at hproduct
  · exact (some.inj hproduct).symm
  · exact nomatch hproduct

theorem eq_of_needOne {inFlight files state n : ℕ}
    (hneed : limits.needOne cost inFlight files state = some n) :
    n = limits.costOne cost inFlight files state := by
  simp only [Limits.needOne, bind_eq_bind, bind_eq_some_iff] at hneed
  obtain ⟨calls, hcalls, filed, hfiled, two, htwo, states, hstates, three,
    hthree, requests,
    hrequests, pages, hpages, multiplexed, hmultiplexed, htotal⟩ := hneed
  rw [eq_of_checkedAdd htotal, eq_of_checkedAdd hthree, eq_of_checkedAdd htwo,
    eq_of_checkedMul hcalls, eq_of_checkedMul hfiled, eq_of_checkedMul hstates,
    eq_of_checkedAdd hmultiplexed, eq_of_checkedMul hrequests, eq_of_checkedMul hpages,
    Limits.costOne]

/-- What an override's slot costs at worst. -/
def costOverride (limits : Limits) (cost : Cost) (o : Override) : ℕ :=
  limits.costOne cost (max o.inFlight.toNat limits.inFlight.toNat)
    (max o.files.toNat limits.files.toNat) (max o.state.toNat limits.state.toNat)

theorem eq_of_needOverrides {start n : ℕ}
    (hneed : overrides.foldlM
      (fun sum o => do checkedAdd sum (← a.needOverride cost o)) start = some n) :
    n = start + (overrides.map (costOverride a.limits cost)).sum := by
  induction overrides generalizing start with
  | nil => exact (some.inj hneed).symm
  | cons o rest ih =>
    simp only [foldlM_cons, bind_eq_bind, bind_eq_some_iff] at hneed
    obtain ⟨next, ⟨one, hone, hnext⟩, hrest⟩ := hneed
    rw [ih hrest, eq_of_checkedAdd hnext, eq_of_needOne hone, map_cons, add_assoc]
    rfl

theorem eq_of_need {n : ℕ} (hneed : a.need cost = some n) :
    n = (a.overrides.map (costOverride a.limits cost)).sum +
      (a.limits.buckets.toNat - a.overrides.length) *
        a.limits.costOne cost a.limits.inFlight.toNat a.limits.files.toNat
          a.limits.state.toNat := by
  simp only [need, bind_eq_bind, bind_eq_some_iff] at hneed
  obtain ⟨named, hnamed, one, hone, others, hothers, htotal⟩ := hneed
  rw [eq_of_checkedAdd htotal, eq_of_needOverrides hnamed, zero_add,
    eq_of_checkedMul hothers,
    eq_of_needOne hone, mul_comm]

theorem costOne_mono {inFlight files state inFlight' files' state' : ℕ}
    (hinFlight : inFlight ≤ inFlight') (hfiles : files ≤ files')
    (hstate : state ≤ state') :
    limits.costOne cost inFlight files state ≤
      limits.costOne cost inFlight' files' state' := by
  have hcalls := Nat.mul_le_mul_right cost.inFlight.toNat hinFlight
  have hfiled := Nat.mul_le_mul_right cost.file.toNat hfiles
  have hstates := Nat.mul_le_mul_right cost.state.toNat hstate
  rw [Limits.costOne, Limits.costOne]
  omega

/-- Within its caps a bucket costs no more than they do. -/
theorem bytes_le_costOne {c : Counts} {inFlight files state : ℕ}
    (hinFlight : c.held .inFlight ≤ inFlight)
    (hfiles : c.held .files ≤ files) (hstate : c.held .state ≤ state)
    (hrequests : c.held .requests ≤ limits.requests.toNat)
    (hpages : c.held .pages ≤ limits.pages.toNat) :
    c.bytes cost ≤ limits.costOne cost inFlight files state := by
  have hcalls := Nat.mul_le_mul_right cost.inFlight.toNat hinFlight
  have hfiled := Nat.mul_le_mul_right cost.file.toNat hfiles
  have hstates := Nat.mul_le_mul_right cost.state.toNat hstate
  have hsends := Nat.mul_le_mul_right cost.request.toNat hrequests
  have hbrought := Nat.mul_le_mul_right cost.page.toNat hpages
  simp only [Counts.bytes, Resource.all, map_cons, map_nil, sum_cons, sum_nil,
    Cost.of, Limits.costOne]
  omega

theorem Sized.bytes_le (hsized : Sized a) {c : Counts}
    (hlookup : a.buckets.lookup key = some c) :
    c.bytes cost ≤ ((a.slot key).map (costOverride a.limits cost)).getD
      (a.limits.costOne cost a.limits.inFlight.toNat a.limits.files.toNat
        a.limits.state.toNat) := by
  have hcap : ∀ r,
      c.held r ≤ ((a.slot key).bind fun o => o.of r).getD (a.limits.of r) :=
    hsized.capped key c hlookup
  cases hslot : a.slot key with
  | none =>
    rw [hslot] at hcap
    exact bytes_le_costOne (hcap .inFlight) (hcap .files) (hcap .state) (hcap .requests)
      (hcap .pages)
  | some o =>
    rw [hslot] at hcap
    exact (bytes_le_costOne (hcap .inFlight) (hcap .files) (hcap .state)
      (hcap .requests)
      (hcap .pages)).trans
      (costOne_mono (le_max_left _ _) (le_max_left _ _) (le_max_left _ _))

/-- Whatever is called, as long as no two buckets that hold anything have one account-0
override, the open calls leave the headroom and what is held costs no more than
`need`. -/
theorem held_within_worst_case (hnew : withOverrides limits overrides = some a)
    {calls : List Call}
    (hapart : RunApart a calls) :
    (a.run calls).openCalls ≤ maxOpenCalls - openCallHeadroom ∧
      ∀ cost n, a.need cost = some n → (a.run calls).bytes cost ≤ n := by
  obtain ⟨hempty, _, hlength, hworst⟩ := withOverrides_eq_some hnew
  have hsized : Sized (a.run calls) :=
    Sized.run (sized_of_empty (by rw [hempty])) hapart
  obtain ⟨hlimits, hoverrides⟩ := run_rules a calls
  have hlength' : (a.run calls).overrides.length ≤
      (a.run calls).limits.buckets.toNat := by
    rw [hlimits, hoverrides, hempty]
    exact hlength
  constructor
  · refine (hsized.tally_le hlength' (fun o => le_max_right _ _)
      fun _ _ hlookup => hsized.inFlight_le hlookup).trans ?_
    rw [hlimits, hoverrides, hempty]
    exact hworst
  · intro cost n hneed
    refine (hsized.tally_le hlength'
      (fun o => costOne_mono (le_max_right _ _) (le_max_right _ _) (le_max_right _ _))
      fun _ _ hlookup => hsized.bytes_le hlookup).trans ?_
    rw [hlimits, hoverrides, eq_of_need hneed]
    exact le_rfl

/-- Two slots, one of them a root badge's with nearly every open call there is. -/
def twoSlots : Limits :=
  { buckets := 2, inFlight := 2, files := 2, state := 2, requests := 2, pages := 2 }

def rootOverride : Override :=
  { account := 0, badge := 1, inFlight := 190, files := 2, state := 2 }

def rootAdmission : Admission :=
  { limits := twoSlots, overrides := [rootOverride], buckets := ∅, shares := ∅ }

/-- Callers of account 0 on that badge, without a label and with one. -/
def plainKey : AdmitKey := AdmitKey.of { badge := 1, account := 0, labels := [] }

def labelledKey : AdmitKey := AdmitKey.of { badge := 1, account := 0, labels := [7] }

/-- An account of its own, which no override covers. -/
def userKey : AdmitKey := AdmitKey.of { badge := 4, account := 5, labels := [7] }

/-- The override's bucket and another admit in turn; the labelled one begins when the
plain one has given everything back. -/
def keptApart : List Call :=
  [.admitShared plainKey 1 .inFlight true, .admitShared userKey 2 .inFlight true,
    .admitShared plainKey 1 .inFlight true, .admitFixed plainKey 3 .files true,
    .admitFixed userKey 2 .inFlight true, .releaseFixed plainKey 3 .files,
    .release plainKey 1 .inFlight, .release plainKey 1 .inFlight,
    .admitShared labelledKey 1 .inFlight true,
    .admitShared labelledKey 1 .inFlight true]

theorem rootAdmission_within_worst_case :
    withOverrides twoSlots [rootOverride] = some rootAdmission ∧
      RunApart rootAdmission keptApart ∧
      (rootAdmission.run (keptApart.take 5)).buckets.keys = [userKey, plainKey] ∧
      (rootAdmission.run keptApart).openCalls = 4 ∧
      (rootAdmission.run keptApart).openCalls ≤ maxOpenCalls - openCallHeadroom := by
  have hnew : withOverrides twoSlots [rootOverride] = some rootAdmission := rfl
  have hapart : RunApart rootAdmission keptApart := by decide +kernel
  refine ⟨hnew, hapart, ?_, ?_, (held_within_worst_case hnew hapart).1⟩
  · decide +kernel
  · decide +kernel

/-- Both: the override's cap is given to each of the two buckets. -/
def bothKeys : List Call :=
  List.replicate 190 (.admitShared plainKey 1 .inFlight true) ++
    List.replicate 3 (.admitShared labelledKey 1 .inFlight true)

theorem labelled_root_badge_exceeds_headroom :
    withOverrides twoSlots [rootOverride] = some rootAdmission ∧
      (rootAdmission.run bothKeys).openCalls = 193 ∧
      maxOpenCalls - openCallHeadroom = 192 := by
  refine ⟨rfl, ?_, rfl⟩
  decide +kernel

end Redoubt.Admission
