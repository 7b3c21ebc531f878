import Redoubt.Admission.State

/-!
# What is held

How each call changes what a bucket and its shares hold, and that a bucket holds
what its shares hold together.
-/

namespace Redoubt.Admission

open Table Option Counts

variable {a b : Admission} {key key' : AdmitKey} {share share' : ℕ} {r r' : Resource}
  {fixed memory : Bool} {c : Counts}

/-! ### Counts -/

theorem Counts.held_eq_zero (hnothing : c.nothing = true) (r : Resource) :
    c.held r = 0 := by
  have hall := List.all_eq_true.mp hnothing r r.mem_all
  exact of_decide_eq_true hall

/-- No more fixed costs than there are. -/
def Counts.Proper (c : Counts) : Prop := ∀ r, c.fixed r ≤ c.held r

theorem Counts.proper_default : (default : Counts).Proper := fun _ => le_rfl

/-- Counts of nothing are the default ones. -/
theorem Counts.Proper.eq_default (hproper : c.Proper) (hnothing : c.nothing = true) :
    c = default := by
  obtain ⟨held, fixed⟩ := c
  have hheld : held = fun _ => 0 := funext fun r => held_eq_zero hnothing r
  have hfixed : fixed = fun _ => 0 := by
    funext r
    exact Nat.le_zero.mp ((hproper r).trans (held_eq_zero hnothing r).le)
  subst hheld hfixed
  rfl

theorem Counts.Proper.plus (hproper : c.Proper) : (c.plus r fixed).Proper := by
  intro r'
  have hle := hproper r'
  by_cases hr : r' = r
  · subst hr
    cases fixed <;> simp [plus] <;> omega
  · cases fixed <;> simpa [plus, Function.update_of_ne hr] using hle

/-- What is taken back of a resource is there. -/
def Counts.Has (c : Counts) (r : Resource) (fixed : Bool) : Prop :=
  (if fixed then c.fixed r else c.working r) ≠ 0

theorem Counts.Proper.minus (hproper : c.Proper) (hhas : c.Has r fixed) :
    (c.minus r fixed).Proper := by
  intro r'
  have hle := hproper r'
  by_cases hr : r' = r
  · subst hr
    cases fixed <;> simp [minus, Counts.Has, working] at hhas ⊢ <;> omega
  · cases fixed <;> simpa [minus, Function.update_of_ne hr] using hle

/-- All that is held of a resource, or the fixed part of it. -/
def Counts.part (c : Counts) (r : Resource) (fixed : Bool) : ℕ :=
  if fixed then c.fixed r else c.held r

/-- What one unit of `r`, fixed or not, adds to a part. -/
def unit (r : Resource) (fixed : Bool) (r' : Resource) (fixed' : Bool) : ℕ :=
  if r' = r ∧ (fixed' = true → fixed = true) then 1 else 0

theorem Counts.part_plus (c : Counts) (r r' : Resource) (fixed fixed' : Bool) :
    (c.plus r fixed).part r' fixed' = c.part r' fixed' + unit r fixed r' fixed' := by
  by_cases hr : r' = r
  · subst hr
    cases fixed <;> cases fixed' <;> simp [plus, part, unit]
  · cases fixed <;> cases fixed' <;>
      simp [plus, part, unit, hr]

theorem Counts.part_minus (c : Counts) {r r' : Resource} {fixed fixed' : Bool}
    (hunit : unit r fixed r' fixed' ≤ c.part r' fixed') :
    (c.minus r fixed).part r' fixed' + unit r fixed r' fixed' = c.part r' fixed' := by
  by_cases hr : r' = r
  · subst hr
    cases fixed <;> cases fixed' <;> simp_all [minus, part, unit]
  · cases fixed <;> cases fixed' <;>
      simp [minus, part, unit, hr]

theorem Counts.Proper.unit_le (hproper : c.Proper) (hhas : c.Has r fixed)
    (r' : Resource)
    (fixed' : Bool) : unit r fixed r' fixed' ≤ c.part r' fixed' := by
  have hle := hproper r
  by_cases hr : r' = r
  · subst hr
    cases fixed <;> cases fixed' <;>
      simp [unit, part, Counts.Has, working] at hhas ⊢ <;> omega
  · simp [unit, hr]

theorem update_pred_le (count : Resource → ℕ) (r r' : Resource) :
    Function.update count r' (count r' - 1) r ≤ count r := by
  rw [Function.update_apply]
  split
  · rename_i heq
    rw [heq]
    exact Nat.sub_le _ _
  · exact le_rfl

theorem held_minus_le (c : Counts) : (c.minus r' fixed).held r ≤ c.held r :=
  update_pred_le c.held r r'

theorem fixed_minus_le (c : Counts) : (c.minus r' fixed).fixed r ≤ c.fixed r := by
  rw [minus]
  split
  · exact update_pred_le c.fixed r r'
  · exact le_rfl

/-! ### Tables of counts -/

section Settle

variable {κ : Type} [DecidableEq κ] {table : AList fun _ : κ => Counts} {k j : κ}

theorem value_settle (hproper : c.Proper) :
    value (settle table k c) j = if j = k then c else value table j := by
  rw [settle]
  split
  · rename_i hnothing
    rw [value_erase, hproper.eq_default hnothing]
  · exact value_insert

theorem lookup_settle : (settle table k c).lookup j =
      if j = k then (if c.nothing then none else some c) else table.lookup j := by
  rw [settle, apply_ite (AList.lookup j), lookup_erase, lookup_insert]
  split_ifs <;> rfl

theorem tally_settle {weight : κ → Counts → ℕ} (hproper : c.Proper)
    (hzero : weight k default = 0) :
    tally weight (settle table k c) = weight k c + tally weight (table.erase k) := by
  rw [settle]
  split
  · rename_i hnothing
    rw [hproper.eq_default hnothing, hzero, zero_add]
  · exact tally_insert

/-- What stays in the table holds something. -/
theorem nothing_of_lookup_settle {c' : Counts}
    (hlookup : (settle table k c).lookup j = some c')
    (hold : ∀ j c', table.lookup j = some c' → c'.nothing = false) :
    c'.nothing = false := by
  rw [lookup_settle] at hlookup
  split_ifs at hlookup with hj hnothing
  · exact some.inj hlookup ▸ Bool.eq_false_iff.mpr hnothing
  · exact hold j c' hlookup

/-- Settling an entry that was there on less leaves no more anywhere. -/
theorem lookup_settle_le {c₀ c' : Counts} (hentry : table.lookup k = some c₀)
    (hle : ∀ r, c.held r ≤ c₀.held r)
    (hlookup : (settle table k c).lookup j = some c') :
    ∃ c'', table.lookup j = some c'' ∧ ∀ r, c'.held r ≤ c''.held r := by
  rw [lookup_settle] at hlookup
  split_ifs at hlookup with hj
  · exact ⟨c₀, hj ▸ hentry, some.inj hlookup ▸ hle⟩
  · exact ⟨c', hlookup, fun _ => le_rfl⟩

theorem length_settle_le {c₀ : Counts} (hentry : table.lookup k = some c₀) :
    (settle table k c).entries.length ≤ table.entries.length := by
  rw [settle]
  split
  · exact length_erase_le
  · exact (length_insert_of_lookup hentry).le

/-- A table of what holds something has an entry exactly for that. -/
theorem isSome_lookup_iff (hholds : ∀ k c, table.lookup k = some c →
      c.nothing = false) :
    (table.lookup k).isSome ↔ ∃ r, (value table k).held r ≠ 0 := by
  rw [value]
  cases hlookup : table.lookup k with
  | none => simp [default]
  | some c =>
    have hsome := hholds k c hlookup
    rw [← Bool.not_eq_true, nothing, List.all_eq_true, not_forall] at hsome
    simpa [Resource.mem_all] using hsome

end Settle

/-! ### A bucket holds what its shares hold -/

/-- What a share adds to a part of a bucket. -/
def inBucket (key : AdmitKey) (r : Resource) (fixed : Bool) (k : AdmitKey × ℕ)
    (c : Counts) : ℕ :=
  if k.1 = key then c.part r fixed else 0

structure Balanced (a : Admission) : Prop where
  total : ∀ key r fixed, (a.bucketCounts key).part r fixed =
    tally (inBucket key r fixed) a.shares
  proper : ∀ key share, (a.shareCounts key share).Proper
  bucketsHold : ∀ key c, a.buckets.lookup key = some c → c.nothing = false
  sharesHold : ∀ k c, a.shares.lookup k = some c → c.nothing = false

theorem inBucket_default (key : AdmitKey) (r : Resource) (fixed : Bool)
    (k : AdmitKey × ℕ) :
    inBucket key r fixed k default = 0 := by
  cases fixed <;> simp [inBucket, part, default]

theorem Balanced.entry_proper (hbalanced : Balanced a) {k : AdmitKey × ℕ}
    (hlookup : a.shares.lookup k = some c) : c.Proper := by
  have hproper := hbalanced.proper k.1 k.2
  rw [shareCounts, value_of_lookup hlookup] at hproper
  exact hproper

theorem tally_fixed_le {shares : AList fun _ : AdmitKey × ℕ => Counts}
    (hproper : ∀ k c, shares.lookup k = some c → c.Proper) (key : AdmitKey)
    (r : Resource) :
    tally (inBucket key r true) shares ≤ tally (inBucket key r false) shares := by
  refine List.sum_le_sum fun entry hentry => ?_
  simp only [inBucket]
  split
  · exact hproper entry.1 entry.2 (AList.mem_lookup_iff.mpr hentry) r
  · exact le_rfl

/-- A share holds no more than its bucket. -/
theorem Balanced.share_le (hbalanced : Balanced a) (key : AdmitKey) (share : ℕ)
    (r : Resource)
    (fixed : Bool) :
    (a.shareCounts key share).part r fixed ≤ (a.bucketCounts key).part r fixed := by
  rw [hbalanced.total, tally_eq_value_add (inBucket_default key r fixed (key, share))]
  simp only [inBucket]
  exact Nat.le_add_right _ _

/-- Both tables changed at one share and its bucket, by the same amounts. -/
theorem Balanced.change (hbalanced : Balanced a) {bucket entry : Counts}
    {a' : Admission}
    (hbuckets : ∀ key', a'.bucketCounts key' = if key' = key then bucket
      else a.bucketCounts key')
    (hshares : ∀ weight : AdmitKey × ℕ → Counts → ℕ, weight (key, share) default = 0 →
      tally weight a'.shares = weight (key, share) entry +
      tally weight (a.shares.erase (key, share)))
    (hpart : ∀ r fixed, bucket.part r fixed + (a.shareCounts key share).part r fixed =
      (a.bucketCounts key).part r fixed + entry.part r fixed)
    (key' : AdmitKey) (r : Resource) (fixed : Bool) :
    (a'.bucketCounts key').part r fixed = tally (inBucket key' r fixed) a'.shares := by
  have hzero := inBucket_default key' r fixed (key, share)
  have htotal := hbalanced.total key' r fixed
  rw [tally_eq_value_add hzero] at htotal
  rw [hshares _ hzero, hbuckets key']
  by_cases hkey : key' = key
  · subst hkey
    have hparts := hpart r fixed
    simp only [inBucket, if_true] at htotal ⊢
    rw [shareCounts] at hparts
    omega
  · have hkey' : ¬ key = key' := fun heq => hkey heq.symm
    rw [if_neg hkey, htotal]
    simp only [inBucket, if_neg hkey']

/-! ### Taking -/

/-- What an admission needed, and what it changes. -/
theorem take_eq_some (htake : a.take key share r fixed memory = some b) :
    a.held key r < a.cap key r ∧
      ((a.buckets.lookup key).isSome ∨
        a.buckets.entries.length < a.limits.buckets.toNat) ∧
      (fixed = true ∨ key.perBadge = true ∨
        (a.shareCounts key share).working r < a.fairShare key share r) ∧
      b = { a with
        buckets := a.buckets.insert key ((a.bucketCounts key).plus r fixed)
        shares := a.shares.insert (key, share) ((a.shareCounts key share).plus r fixed)
          } := by
  rw [take] at htake
  split at htake
  · exact nomatch htake
  · rename_i hroom
    split at htake
    · exact nomatch htake
    · rename_i hfair
      split at htake
      · exact nomatch htake
      · rw [not_or, not_and_or, not_le, not_le] at hroom
        refine ⟨hroom.1, hroom.2.imp_left fun hsome => ?_, ?_, (some.inj htake).symm⟩
        · exact isSome_iff_ne_none.mpr fun heq => hsome (by rw [heq, isNone_none])
        · by_cases hfixed : fixed = true
          · exact Or.inl hfixed
          · by_cases hbadge : key.perBadge = true
            · exact Or.inr (Or.inl hbadge)
            · rw [Bool.not_eq_true] at hfixed hbadge
              refine Or.inr (Or.inr (not_le.mp fun hge => hfair ⟨hfixed, hbadge, hge⟩))

theorem bucketCounts_take (htake : a.take key share r fixed memory = some b)
    (key' : AdmitKey) :
    b.bucketCounts key' =
      if key' = key then (a.bucketCounts key).plus r fixed
      else a.bucketCounts key' := by
  obtain ⟨_, _, _, rfl⟩ := take_eq_some htake
  exact value_insert

theorem shareCounts_take (htake : a.take key share r fixed memory = some b)
    (key' : AdmitKey)
    (share' : ℕ) :
    b.shareCounts key' share' =
      if key' = key ∧ share' = share then (a.shareCounts key share).plus r fixed
      else a.shareCounts key' share' := by
  obtain ⟨_, _, _, rfl⟩ := take_eq_some htake
  simp only [← Prod.mk.injEq]
  exact value_insert

theorem plus_nothing (c : Counts) : (c.plus r fixed).nothing = false := by
  rw [Bool.eq_false_iff]
  intro hnothing
  have hzero := held_eq_zero hnothing r
  simp [plus] at hzero

theorem Balanced.take (hbalanced : Balanced a)
    (htake : a.take key share r fixed memory = some b) :
    Balanced b := by
  have hbuckets := bucketCounts_take htake
  have hshares := shareCounts_take htake
  obtain ⟨_, _, _, rfl⟩ := take_eq_some htake
  refine ⟨hbalanced.change hbuckets (fun _ _ => tally_insert) ?_, ?_, ?_, ?_⟩
  · intro r' fixed'
    rw [part_plus, part_plus]
    omega
  · intro key' share'
    rw [hshares]
    split
    · exact (hbalanced.proper key share).plus
    · exact hbalanced.proper key' share'
  · intro key' c hlookup
    rw [lookup_insert] at hlookup
    split_ifs at hlookup
    · exact some.inj hlookup ▸ plus_nothing _
    · exact hbalanced.bucketsHold key' c hlookup
  · intro k c hlookup
    rw [lookup_insert] at hlookup
    split_ifs at hlookup
    · exact some.inj hlookup ▸ plus_nothing _
    · exact hbalanced.sharesHold k c hlookup

/-! ### Giving back -/

theorem not_has_default : ¬ (default : Counts).Has r fixed := by
  cases fixed <;> simp [Counts.Has, working, default]

/-- What a share gives back it has, and so has its bucket. -/
theorem Balanced.bucket_unit_le (hbalanced : Balanced a)
    (hhas : (a.shareCounts key share).Has r fixed) (r' : Resource) (fixed' : Bool) :
    unit r fixed r' fixed' ≤ (a.bucketCounts key).part r' fixed' :=
  ((hbalanced.proper key share).unit_le hhas r' fixed').trans
    (hbalanced.share_le key share r' fixed')

theorem give_of_not_has (hhas : ¬ (a.shareCounts key share).Has r fixed) :
    a.give key share r fixed = a := by
  rw [give]
  split
  · rename_i bucket entry _ hentry
    rw [shareCounts, value_of_lookup hentry, Counts.Has, not_not] at hhas
    rw [if_pos hhas]
  · rfl

theorem Balanced.give_of_has (hbalanced : Balanced a)
    (hhas : (a.shareCounts key share).Has r fixed) :
    a.give key share r fixed =
      { a with
        buckets := settle a.buckets key ((a.bucketCounts key).minus r fixed)
        shares := settle a.shares (key, share) ((a.shareCounts key share).minus r fixed)
          } := by
  have hunit := hbalanced.bucket_unit_le hhas r fixed
  cases hentry : a.shares.lookup (key, share) with
  | none =>
    rw [shareCounts, value, hentry] at hhas
    exact absurd hhas not_has_default
  | some entry =>
    cases hbucket : a.buckets.lookup key with
    | none =>
      rw [bucketCounts, value, hbucket] at hunit
      cases fixed <;> simp [unit, part, default] at hunit
    | some bucket =>
      have hshare : a.shareCounts key share = entry := value_of_lookup hentry
      have hbucket' : a.bucketCounts key = bucket := value_of_lookup hbucket
      rw [hshare] at hhas ⊢
      rw [hbucket', give]
      simp only [hbucket, hentry]
      exact if_neg hhas

/-- A unit a share has its bucket has too, working or fixed as it is. -/
theorem Balanced.bucket_has (hbalanced : Balanced a)
    (hhas : (a.shareCounts key share).Has r fixed) :
    (a.bucketCounts key).Has r fixed := by
  have hfixed := hbalanced.total key r true
  have hheld := hbalanced.total key r false
  have hrest : tally (inBucket key r true) (a.shares.erase (key, share)) ≤
      tally (inBucket key r false) (a.shares.erase (key, share)) := by
    refine tally_fixed_le (fun k c hlookup => ?_) key r
    rw [lookup_erase] at hlookup
    split_ifs at hlookup
    exact hbalanced.entry_proper hlookup
  rw [tally_eq_value_add (inBucket_default key r _ (key, share))] at hfixed hheld
  simp only [inBucket, part] at hfixed hheld hrest
  rw [shareCounts] at hhas
  cases fixed <;>
    simp only [Counts.Has, working, if_true, Bool.false_eq_true, if_false] at * <;>
    omega

theorem Balanced.bucket_proper (hbalanced : Balanced a) (key : AdmitKey) :
    (a.bucketCounts key).Proper := by
  intro r
  have hfixed := hbalanced.total key r true
  have hheld := hbalanced.total key r false
  simp only [part, if_true, Bool.false_eq_true, if_false] at hfixed hheld
  rw [hfixed, hheld]
  exact tally_fixed_le (fun _ _ hlookup => hbalanced.entry_proper hlookup) key r

section GiveBack

variable (hbalanced : Balanced a) (hhas : (a.shareCounts key share).Has r fixed)
include hbalanced hhas

theorem Balanced.bucketCounts_give (key' : AdmitKey) :
    (a.give key share r fixed).bucketCounts key' =
      if key' = key then (a.bucketCounts key).minus r fixed
      else a.bucketCounts key' := by
  rw [hbalanced.give_of_has hhas]
  exact value_settle ((hbalanced.bucket_proper key).minus (hbalanced.bucket_has hhas))

theorem Balanced.shareCounts_give (key' : AdmitKey) (share' : ℕ) :
    (a.give key share r fixed).shareCounts key' share' =
      if key' = key ∧ share' = share then (a.shareCounts key share).minus r fixed
      else a.shareCounts key' share' := by
  rw [hbalanced.give_of_has hhas]
  simp only [← Prod.mk.injEq]
  exact value_settle ((hbalanced.proper key share).minus hhas)

end GiveBack

theorem Balanced.give (hbalanced : Balanced a) :
    Balanced (a.give key share r fixed) := by
  by_cases hhas : (a.shareCounts key share).Has r fixed
  · have hbuckets := hbalanced.bucketCounts_give hhas
    have hshares := hbalanced.shareCounts_give hhas
    have hproper := (hbalanced.proper key share).minus hhas
    rw [hbalanced.give_of_has hhas] at hbuckets hshares ⊢
    refine ⟨hbalanced.change hbuckets (fun _ hzero => tally_settle hproper hzero) ?_,
      ?_, ?_, ?_⟩
    · intro r' fixed'
      have hbucket := part_minus _ (hbalanced.bucket_unit_le hhas r' fixed')
      have hshare := part_minus _ ((hbalanced.proper key share).unit_le hhas r' fixed')
      omega
    · intro key' share'
      rw [hshares]
      split
      · exact hproper
      · exact hbalanced.proper key' share'
    · exact fun _ _ hlookup => nothing_of_lookup_settle hlookup hbalanced.bucketsHold
    · exact fun _ _ hlookup => nothing_of_lookup_settle hlookup hbalanced.sharesHold
  · rw [give_of_not_has hhas]
    exact hbalanced

/-! ### Whole runs -/

theorem Balanced.call (hbalanced : Balanced a) (step : Call) :
    Balanced (a.call step) := by
  have htake : ∀ key share r fixed memory,
      Balanced ((a.take key share r fixed memory).getD a) := by
    intro key share r fixed memory
    cases hresult : a.take key share r fixed memory with
    | none => exact hbalanced
    | some b => exact hbalanced.take hresult
  cases step with
  | admitShared key share r memory => exact htake key share r false memory
  | admitFixed key share r memory => exact htake key share r true memory
  | release key share r => exact hbalanced.give
  | releaseFixed key share r => exact hbalanced.give

theorem Balanced.run (hbalanced : Balanced a) (calls : List Call) :
    Balanced (a.run calls) := by
  induction calls generalizing a with
  | nil => exact hbalanced
  | cons step calls ih => exact ih (hbalanced.call step)

/-- No call changes the caps. -/
theorem call_rules (a : Admission) (step : Call) :
    (a.call step).limits = a.limits ∧ (a.call step).overrides = a.overrides := by
  have htake : ∀ key share r fixed memory,
      ((a.take key share r fixed memory).getD a).limits = a.limits ∧
        ((a.take key share r fixed memory).getD a).overrides = a.overrides := by
    intro key share r fixed memory
    cases hresult : a.take key share r fixed memory with
    | none => exact ⟨rfl, rfl⟩
    | some b =>
      obtain ⟨_, _, _, rfl⟩ := take_eq_some hresult
      exact ⟨rfl, rfl⟩
  have hgive : ∀ key share r fixed, (a.give key share r fixed).limits = a.limits ∧
        (a.give key share r fixed).overrides = a.overrides := by
    intro key share r fixed
    rw [Admission.give]
    split
    · rename_i bucket entry _ _
      by_cases hzero : (if fixed then entry.fixed r else entry.working r) = 0
      · rw [if_pos hzero]
        exact ⟨rfl, rfl⟩
      · rw [if_neg hzero]
        exact ⟨rfl, rfl⟩
    · exact ⟨rfl, rfl⟩
  cases step with
  | admitShared key share r memory => exact htake key share r false memory
  | admitFixed key share r memory => exact htake key share r true memory
  | release key share r => exact hgive key share r false
  | releaseFixed key share r => exact hgive key share r true

theorem run_rules (a : Admission) (calls : List Call) :
    (a.run calls).limits = a.limits ∧ (a.run calls).overrides = a.overrides := by
  induction calls generalizing a with
  | nil => exact ⟨rfl, rfl⟩
  | cons step calls ih =>
    obtain ⟨hlimits, hoverrides⟩ := call_rules a step
    obtain ⟨hlimits', hoverrides'⟩ := ih (a.call step)
    exact ⟨hlimits'.trans hlimits, hoverrides'.trans hoverrides⟩

theorem run_cap (a : Admission) (calls : List Call) : (a.run calls).cap = a.cap := by
  obtain ⟨hlimits, hoverrides⟩ := run_rules a calls
  funext key r
  rw [cap, hlimits, hoverrides, cap]

/-- What `with_overrides` checked, and that it opens with nothing held. -/
theorem withOverrides_eq_some {limits : Limits} {overrides : List Override}
    (hnew : withOverrides limits overrides = some a) :
    a = { limits := limits, overrides := overrides, buckets := ∅, shares := ∅ } ∧
      overridesOk [] overrides = true ∧ overrides.length ≤ limits.buckets.toNat ∧
      (overrides.map fun o => max o.inFlight.toNat limits.inFlight.toNat).sum +
        (limits.buckets.toNat - overrides.length) * limits.inFlight.toNat ≤
          maxOpenCalls - openCallHeadroom := by
  simp only [withOverrides, new, bind_eq_bind, bind_eq_some_iff, pure_def,
    guard_eq_some', some.injEq] at hnew
  obtain ⟨admission, hadmission, _, hoverrides, _, hlength, _, hworst, rfl⟩ := hnew
  split at hadmission
  · exact nomatch hadmission
  · split at hadmission
    · exact nomatch hadmission
    · obtain rfl := some.inj hadmission
      exact ⟨rfl, hoverrides, hlength, hworst⟩

/-- Nothing is held at first. -/
theorem balanced_of_empty (hbuckets : a.buckets = ∅) (hshares : a.shares = ∅) :
    Balanced a := by
  refine ⟨fun key r fixed => ?_, fun key share => ?_, fun key c hlookup => ?_,
    fun k c hlookup => ?_⟩
  · rw [bucketCounts, hbuckets, hshares]
    cases fixed <;> rfl
  · rw [shareCounts, hshares]
    exact proper_default
  · rw [hbuckets] at hlookup
    exact nomatch hlookup
  · rw [hshares] at hlookup
    exact nomatch hlookup

/-- Whatever the limits, in every run a bucket holds what its shares hold together, of
each resource and of its fixed part, and each table has an entry exactly for what holds
something. -/
theorem accounts_balance (limits : Limits) (overrides : List Override)
    (calls : List Call) (key : AdmitKey) :
    let a := run { limits, overrides, buckets := ∅, shares := ∅ } calls
    (∀ r fixed, (a.bucketCounts key).part r fixed =
      tally (inBucket key r fixed) a.shares) ∧
    ((a.buckets.lookup key).isSome ↔ ∃ r, a.held key r ≠ 0) ∧
    ∀ share, ((a.shares.lookup (key, share)).isSome ↔ ∃ r, a.heldBy key share r ≠ 0) ∧
      ∀ r, (a.shareCounts key share).fixed r ≤ a.heldBy key share r := by
  intro a
  have hbalanced : Balanced a := (balanced_of_empty rfl rfl).run calls
  exact ⟨hbalanced.total key, isSome_lookup_iff hbalanced.bucketsHold,
    fun share => ⟨isSome_lookup_iff hbalanced.sharesHold, hbalanced.proper key share⟩⟩

end Redoubt.Admission
