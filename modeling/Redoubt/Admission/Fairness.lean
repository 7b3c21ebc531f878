import Redoubt.Admission.Holdings

/-!
# Fair shares

In a bucket of an account, where every unit is taken under the fair share, few
shares hold much: of any `j` shares one holds no more than a `j + 1`-st of the cap.
Whoever crossed that mark last had at most `j - 2` others beside it.
-/

namespace Redoubt.Admission

open Table

variable {a b : Admission} {key key' : AdmitKey} {share share' : ℕ} {r r' : Resource}
  {fixed memory : Bool} {limit mark : ℕ}

/-- How many shares of a bucket hold more than `mark` of a resource. -/
def sharesAbove (a : Admission) (key : AdmitKey) (r : Resource) (mark : ℕ) : ℕ :=
  (a.shares.entries.filter fun e => e.1.1 = key ∧ mark < e.2.held r).length

def above (key : AdmitKey) (r : Resource) (mark : ℕ) (k : AdmitKey × ℕ)
    (c : Counts) : ℕ :=
  if k.1 = key ∧ mark < c.held r then 1 else 0

theorem sharesAbove_eq_tally :
    a.sharesAbove key r mark = tally (above key r mark) a.shares :=
  length_filter_eq_tally fun (k : AdmitKey × ℕ) (c : Counts) => k.1 = key ∧
    mark < c.held r

theorem above_default (k : AdmitKey × ℕ) : above key r mark k default = 0 := by
  simp [above, default]

theorem sharesAbove_eq_add (key' : AdmitKey) (share : ℕ) : a.sharesAbove key r mark =
      above key r mark (key', share) (a.shareCounts key' share) +
        tally (above key r mark) (a.shares.erase (key', share)) := by
  rw [sharesAbove_eq_tally, tally_eq_value_add (above_default (key', share)),
    shareCounts]

/-- A cap is a `u32`. -/
theorem cap_lt (a : Admission) (key : AdmitKey) (r : Resource) :
    a.cap key r < 2 ^ 32 := by
  have hlimit : a.limits.of r < 2 ^ 32 := by
    cases r <;> exact UInt32.toNat_lt _
  rw [cap]
  cases a.overrides.find? fun o => o.covers key with
  | none => exact hlimit
  | some o => cases r <;> exact UInt32.toNat_lt _

/-- The divisor saturates only where the quotient is at most one anyway. -/
theorem fairShare_le :
    a.fairShare key share r ≤ max (a.cap key r / (a.others key share r + 2)) 1 := by
  have hcap := a.cap_lt key r
  simp only [fairShare]
  generalize a.others key share r = others
  by_cases hfew : others + 2 ≤ 2 ^ 32 - 1
  · have hdivisor : min (min others (2 ^ 32 - 1) + 2) (2 ^ 32 - 1) = others + 2 := by
      omega
    rw [hdivisor]
    exact max_le_max (Nat.div_le_div_right (Nat.sub_le _ _)) le_rfl
  · have hdivisor : min (min others (2 ^ 32 - 1) + 2) (2 ^ 32 - 1) = 2 ^ 32 - 1 := by
      omega
    rw [hdivisor]
    refine (max_le ?_ le_rfl).trans (le_max_right _ _)
    exact (Nat.div_le_div_right (Nat.sub_le _ _)).trans (by omega)

/-- At most `j - 1` shares hold more than a `j + 1`-st of the cap, for every `j`. -/
structure Fair (key : AdmitKey) (r : Resource) (a : Admission) : Prop where
  few : ∀ j, 1 ≤ j → a.sharesAbove key r (max 1 (a.cap key r / (j + 1))) ≤ j - 1
  unfixed : ∀ share, (a.shareCounts key share).fixed r = 0

/-- Whether a share counts among the others. -/
def other (key : AdmitKey) (share : ℕ) (r : Resource) (k : AdmitKey × ℕ)
    (c : Counts) : ℕ :=
  if k.1 = key ∧ k.2 ≠ share ∧ 0 < c.working r then 1 else 0

theorem others_eq_tally :
    a.others key share r = tally (other key share r) (a.shares.erase (key, share)) := by
  have hself : ∀ c, other key share r (key, share) c = 0 := fun c =>
    if_neg fun h => h.2.1 rfl
  have hothers : a.others key share r = tally (other key share r) a.shares :=
    length_filter_eq_tally fun (k : AdmitKey × ℕ) (c : Counts) =>
      k.1 = key ∧ k.2 ≠ share ∧ 0 < c.working r
  rw [hothers, tally_eq_value_add (hself default), hself, zero_add]

/-- With no fixed costs, the others that hold more than some mark hold working units. -/
theorem above_le_others (hunfixed : ∀ share, (a.shareCounts key share).fixed r = 0) :
    tally (above key r mark) (a.shares.erase (key, share)) ≤ a.others key share r := by
  rw [others_eq_tally]
  refine tally_le fun k c hlookup => ?_
  rw [lookup_erase] at hlookup
  split_ifs at hlookup with hk
  by_cases habove : k.1 = key ∧ mark < c.held r
  · have hfixed := hunfixed k.2
    rw [← habove.1, shareCounts, value_of_lookup hlookup] at hfixed
    have hne : k.2 ≠ share := fun heq => hk (Prod.ext habove.1 heq)
    have hworking : 0 < c.working r := by
      rw [Counts.working]
      omega
    rw [above, if_pos habove, other, if_pos ⟨habove.1, hne, hworking⟩]
  · rw [above, if_neg habove]
    exact Nat.zero_le _

/-- A share that passes the mark of `j` has at most `j - 2` others beside it. -/
theorem others_lt_of_passes {units cap others j : ℕ}
    (hshare : units + 1 ≤ max (cap / (others + 2)) 1)
    (hpasses : max 1 (cap / (j + 1)) < units + 1) : others + 1 ≤ j - 1 := by
  by_contra hmany
  have hle : cap / (others + 2) ≤ cap / (j + 1) :=
    Nat.div_le_div_left (by omega) (Nat.succ_pos j)
  omega

/-- Only a share of the bucket that takes this resource can pass the mark. -/
theorem above_plus_le {k : AdmitKey × ℕ} {c : Counts}
    (hstays : ¬ (k.1 = key ∧ r' = r ∧ mark < c.held r + 1)) :
    above key r mark k (c.plus r' fixed) ≤ above key r mark k c := by
  by_cases habove : k.1 = key ∧ mark < (c.plus r' fixed).held r
  · have hold : mark < c.held r := by
      by_cases hr : r = r'
      · subst hr
        have hheld : (c.plus r fixed).held r = c.held r + 1 :=
          Function.update_self _ _ _
        exact absurd ⟨habove.1, rfl, hheld ▸ habove.2⟩ hstays
      · have hheld : (c.plus r' fixed).held r = c.held r := Function.update_of_ne hr _ _
        exact hheld ▸ habove.2
    rw [above, if_pos habove, above, if_pos ⟨habove.1, hold⟩]
  · rw [above, if_neg habove]
    exact Nat.zero_le _

theorem sharesAbove_take (htake : a.take key' share r' fixed memory = some b) :
    b.sharesAbove key r mark =
      above key r mark (key', share) ((a.shareCounts key' share).plus r' fixed) +
        tally (above key r mark) (a.shares.erase (key', share)) := by
  obtain ⟨_, _, _, rfl⟩ := take_eq_some htake
  rw [sharesAbove_eq_tally]
  exact tally_insert

theorem cap_take (htake : a.take key' share r' fixed memory = some b) :
    b.cap = a.cap := by
  obtain ⟨_, _, _, rfl⟩ := take_eq_some htake
  rfl

/-- The share that takes a unit under the fair share, and the others, stay few. -/
theorem Fair.few_take (hfair : Fair key r a) (hkey : key.account ≠ 0) {j : ℕ}
    (htake : a.take key share r false memory = some b)
    (hpasses : max 1 (a.cap key r / (j + 1)) < (a.shareCounts key share).held r + 1) :
    b.sharesAbove key r (max 1 (a.cap key r / (j + 1))) ≤ j - 1 := by
  have hroom : (a.shareCounts key share).held r < a.fairShare key share r := by
    obtain ⟨_, _, htrue | htrue | hroom, _⟩ := take_eq_some htake
    · exact nomatch htrue
    · exact absurd (beq_iff_eq.mp htrue) hkey
    · rwa [Counts.working, hfair.unfixed] at hroom
  have hfew :=
    others_lt_of_passes ((Nat.succ_le_of_lt hroom).trans fairShare_le) hpasses
  rw [sharesAbove_take htake]
  calc
    _ ≤ 1 + a.others key share r := by
      refine Nat.add_le_add ?_ (above_le_others hfair.unfixed)
      rw [above]
      split <;> omega
    _ ≤ j - 1 := by omega

theorem fixed_plus {c : Counts} (hworking : r' = r → fixed = false) :
    (c.plus r' fixed).fixed r = c.fixed r := by
  rw [Counts.plus]
  split
  · rename_i hfixed
    exact Function.update_of_ne
      (fun heq => by cases (hworking heq.symm).symm.trans hfixed) _ _
  · rfl

theorem Fair.take (hfair : Fair key r a) (hkey : key.account ≠ 0)
    (hworking : key' = key → r' = r → fixed = false)
    (htake : a.take key' share r' fixed memory = some b) : Fair key r b := by
  constructor
  · intro j hj
    rw [cap_take htake]
    by_cases hpasses : key' = key ∧ r' = r ∧
        max 1 (a.cap key r / (j + 1)) < (a.shareCounts key' share).held r + 1
    · obtain ⟨rfl, rfl, hpasses⟩ := hpasses
      obtain rfl := hworking rfl rfl
      exact hfair.few_take hkey htake hpasses
    · refine le_trans ?_ (hfair.few j hj)
      rw [sharesAbove_take htake, sharesAbove_eq_add key' share]
      exact Nat.add_le_add_right (above_plus_le hpasses) _
  · intro share'
    rw [shareCounts_take htake]
    split
    · rename_i hsame
      rw [fixed_plus (hworking hsame.1.symm), ← hsame.1]
      exact hfair.unfixed share
    · exact hfair.unfixed share'

theorem above_minus_le (k : AdmitKey × ℕ) (c : Counts) :
    above key r mark k (c.minus r' fixed) ≤ above key r mark k c := by
  by_cases habove : k.1 = key ∧ mark < (c.minus r' fixed).held r
  · rw [above, if_pos habove, above,
      if_pos ⟨habove.1, habove.2.trans_le (held_minus_le c)⟩]
  · rw [above, if_neg habove]
    exact Nat.zero_le _

theorem Fair.give (hfair : Fair key r a) (hbalanced : Balanced a) :
    Fair key r (a.give key' share r' fixed) := by
  by_cases hhas : (a.shareCounts key' share).Has r' fixed
  · have hshares := hbalanced.shareCounts_give hhas
    have hproper := (hbalanced.proper key' share).minus hhas
    rw [hbalanced.give_of_has hhas] at hshares ⊢
    constructor
    · intro j hj
      refine le_trans ?_ (hfair.few j hj)
      rw [sharesAbove_eq_tally, sharesAbove_eq_add key' share]
      refine (tally_settle hproper (above_default (key', share))).trans_le ?_
      exact Nat.add_le_add_right (above_minus_le (key', share) _) _
    · intro share'
      rw [hshares]
      split
      · rename_i hsame
        refine Nat.le_zero.mp ((fixed_minus_le _).trans ?_)
        rw [← hsame.1]
        exact (hfair.unfixed share).le
      · exact hfair.unfixed share'
  · rw [give_of_not_has hhas]
    exact hfair

/-! ### Whole runs -/

/-- No unit of the resource is taken as a fixed cost in the bucket. -/
def NoFixed (key : AdmitKey) (r : Resource) (calls : List Call) : Prop :=
  ∀ share memory, Call.admitFixed key share r memory ∉ calls

theorem Fair.call (hfair : Fair key r a) (hbalanced : Balanced a)
    (hkey : key.account ≠ 0)
    {step : Call} (hstep : ∀ share memory, step ≠ .admitFixed key share r memory) :
    Fair key r (a.call step) := by
  have htake : ∀ key' share r' fixed memory, (key' = key → r' = r → fixed = false) →
      Fair key r ((a.take key' share r' fixed memory).getD a) := by
    intro key' share r' fixed memory hworking
    cases hresult : a.take key' share r' fixed memory with
    | none => exact hfair
    | some b => exact hfair.take hkey hworking hresult
  cases step with
  | admitShared key' share r' memory =>
    exact htake key' share r' false memory fun _ _ => rfl
  | admitFixed key' share r' memory =>
    refine htake key' share r' true memory fun heq hr => ?_
    subst heq hr
    exact absurd rfl (hstep share memory)
  | release key' share r' => exact hfair.give hbalanced
  | releaseFixed key' share r' => exact hfair.give hbalanced

theorem Fair.run (hfair : Fair key r a) (hbalanced : Balanced a)
    (hkey : key.account ≠ 0)
    {calls : List Call} (hcalls : NoFixed key r calls) : Fair key r (a.run calls) := by
  induction calls generalizing a with
  | nil => exact hfair
  | cons step calls ih =>
    refine ih (hfair.call hbalanced hkey ?_) (hbalanced.call step) ?_
    · intro share memory heq
      exact hcalls share memory (heq ▸ List.mem_cons_self)
    · intro share memory hmem
      exact hcalls share memory (List.mem_cons_of_mem _ hmem)

/-- Nothing is held at first. -/
theorem fair_of_empty (hshares : a.shares = ∅) : Fair key r a := by
  refine ⟨fun j _ => ?_, fun share => ?_⟩
  · rw [sharesAbove, hshares]
    exact Nat.zero_le _
  · rw [shareCounts, hshares]
    rfl

/-- A share that holds more than the mark is one of those counted. -/
theorem one_le_sharesAbove (habove : mark < a.heldBy key share r) :
    1 ≤ a.sharesAbove key r mark := by
  rw [sharesAbove_eq_add key share, above, if_pos ⟨rfl, habove⟩]
  exact Nat.le_add_right _ _

theorem Fair.heldBy_le_half (hfair : Fair key r a) (hcap : 2 ≤ a.cap key r)
    (share : ℕ) :
    a.heldBy key share r ≤ a.cap key r / 2 := by
  by_contra hmore
  have hmark : max 1 (a.cap key r / 2) < a.heldBy key share r := by omega
  have hfew : a.sharesAbove key r (max 1 (a.cap key r / 2)) ≤ 0 := hfair.few 1 le_rfl
  have hone := one_le_sharesAbove hmark
  omega

/-- While at most two shares hold anything, they leave room in the bucket. -/
theorem Fair.held_lt_cap (hfair : Fair key r a) (hbalanced : Balanced a)
    (hcap : 3 ≤ a.cap key r)
    (htwo : a.sharesAbove key r 0 ≤ 2) : a.held key r < a.cap key r := by
  have hhalf := hfair.heldBy_le_half (by omega)
  have hfew := hfair.few 2 (by decide)
  generalize hmark : max 1 (a.cap key r / (2 + 1)) = mark at hfew
  generalize hhalf' : a.cap key r / 2 = half at hhalf
  have hheld : a.held key r = tally (inBucket key r false) a.shares :=
    hbalanced.total key r false
  -- each share holds at most the mark, but for one at most that holds up to half
  have hshares : tally (inBucket key r false) a.shares ≤
      mark * a.sharesAbove key r 0 + (half - mark) * a.sharesAbove key r mark := by
    rw [sharesAbove_eq_tally, sharesAbove_eq_tally, ← tally_mul,
      ← tally_mul, ← tally_add]
    refine tally_le fun k c hlookup => ?_
    by_cases hk : k.1 = key
    · have hshare := hhalf k.2
      rw [heldBy, ← hk, shareCounts, value_of_lookup hlookup] at hshare
      simp only [inBucket, above, hk, true_and, if_true, Counts.part,
        Bool.false_eq_true, if_false]
      by_cases hzero : 0 < c.held r
      · by_cases hmore : mark < c.held r
        · rw [if_pos hzero, if_pos hmore]
          omega
        · rw [if_pos hzero]
          omega
      · omega
    · rw [inBucket, if_neg hk]
      exact Nat.zero_le _
  have hbound : mark * a.sharesAbove key r 0 + (half - mark) *
      a.sharesAbove key r mark ≤
      mark * 2 + (half - mark) * 1 :=
    Nat.add_le_add (Nat.mul_le_mul_left _ htwo) (Nat.mul_le_mul_left _ hfew)
  omega

/-- A share that holds nothing is refused only for want of a bucket or of memory. -/
theorem Fair.refused (hfair : Fair key r a) (hbalanced : Balanced a)
    (hcap : 3 ≤ a.cap key r)
    (hnone : a.heldBy key share r = 0) (htwo : a.sharesAbove key r 0 ≤ 2)
    (hrefused : a.admitShared key share r memory = none) :
    (a.buckets.lookup key = none ∧ a.limits.buckets.toNat ≤ a.buckets.entries.length) ∨
      memory = false := by
  have hroom := hfair.held_lt_cap hbalanced hcap htwo
  have hworking : (a.shareCounts key share).working r = 0 := by
    rw [Counts.working, show (a.shareCounts key share).held r = 0 from hnone,
      Nat.zero_sub]
  have hshare : ¬ (a.shareCounts key share).working r ≥ a.fairShare key share r := by
    rw [hworking]
    exact not_le.mpr (lt_of_lt_of_le Nat.zero_lt_one (le_max_right _ _))
  rw [admitShared, Admission.take] at hrefused
  split at hrefused
  · rename_i hfull
    rcases hfull with hfull | hfull
    · exact absurd hroom (not_lt.mpr hfull)
    · exact Or.inl ⟨Option.isNone_iff_eq_none.mp hfull.1, hfull.2⟩
  · split at hrefused
    · rename_i hunfair
      exact absurd hunfair.2.2 hshare
    · split at hrefused
      · rename_i hmemory
        exact Or.inr hmemory.1
      · cases hrefused

/-- In a bucket of an account with no fixed costs of the resource, after any calls: few
shares hold much, none more than half, and one that holds nothing is refused beside two
others only if its bucket would be one too many or there is no memory for it. -/
theorem shares_stay_fair {limits : Limits} {overrides : List Override}
    (hnew : withOverrides limits overrides = some a) (hkey : key.account ≠ 0)
    {calls : List Call}
    (hcalls : NoFixed key r calls) :
    (∀ j, 1 ≤ j →
      (a.run calls).sharesAbove key r (max 1 (a.cap key r / (j + 1))) ≤ j - 1) ∧
      (2 ≤ a.cap key r → ∀ share, (a.run calls).heldBy key share r ≤ a.cap key r / 2) ∧
      (3 ≤ a.cap key r → ∀ share memory, (a.run calls).heldBy key share r = 0 →
        (a.run calls).sharesAbove key r 0 ≤ 2 →
          (a.run calls).admitShared key share r memory = none →
            ((a.run calls).buckets.lookup key = none ∧
              a.limits.buckets.toNat ≤ (a.run calls).buckets.entries.length) ∨
              memory = false) := by
  obtain ⟨hempty, _⟩ := withOverrides_eq_some hnew
  have hbalanced : Balanced a := balanced_of_empty (by rw [hempty]) (by rw [hempty])
  have hfair : Fair key r (a.run calls) :=
    Fair.run (fair_of_empty (by rw [hempty])) hbalanced hkey hcalls
  have hcap : (a.run calls).cap key r = a.cap key r := by rw [run_cap]
  refine ⟨?_, ?_, ?_⟩
  · rw [← hcap]
    exact hfair.few
  · rw [← hcap]
    exact hfair.heldBy_le_half
  · intro hthree share memory hnone htwo hrefused
    rw [← hcap] at hthree
    rw [← (run_rules a calls).1]
    exact hfair.refused (hbalanced.run calls) hthree hnone htwo hrefused

/-- Room for two buckets. -/
def smallLimits : Limits :=
  { buckets := 2, inFlight := 3, files := 3, state := 3, requests := 3, pages := 3 }

def smallAdmission : Admission :=
  { limits := smallLimits, overrides := [], buckets := ∅, shares := ∅ }

def twoBuckets : List Call :=
  [.admitShared ⟨1, 0, []⟩ 1 .state true, .admitShared ⟨2, 0, []⟩ 2 .state true]

/-- Three shares of one bucket ask for more than it may hold, beside another
bucket's. -/
def competing : List Call :=
  [.admitShared ⟨1, 0, []⟩ 1 .state true, .admitShared ⟨1, 0, []⟩ 1 .state true,
    .admitShared ⟨2, 0, []⟩ 4 .state true, .admitShared ⟨1, 0, []⟩ 2 .state true,
    .admitShared ⟨1, 0, []⟩ 2 .state true, .release ⟨1, 0, []⟩ 1 .state,
    .admitShared ⟨1, 0, []⟩ 1 .state true]

theorem competing_shares_fair : withOverrides smallLimits [] = some smallAdmission ∧
      (smallAdmission.run competing).heldBy ⟨1, 0, []⟩ 1 .state = 1 ∧
      (smallAdmission.run competing).heldBy ⟨1, 0, []⟩ 2 .state = 1 ∧
      (∀ share, (smallAdmission.run competing).heldBy ⟨1, 0, []⟩ share .state ≤
        smallAdmission.cap ⟨1, 0, []⟩ .state / 2) ∧
      (smallAdmission.run competing).admitShared ⟨1, 0, []⟩ 3 .state true ≠ none := by
  have hnew : withOverrides smallLimits [] = some smallAdmission := rfl
  have hcalls : NoFixed ⟨1, 0, []⟩ .state competing := by simp [NoFixed, competing]
  obtain ⟨-, hhalf, hspare⟩ := shares_stay_fair hnew (by decide) hcalls
  refine ⟨hnew, by decide, by decide, hhalf (by decide), fun hrefused => ?_⟩
  -- The bucket is there, so only a want of memory could refuse the third share.
  rcases hspare (by decide) 3 true (by decide) (by decide) hrefused with
    ⟨hnone, -⟩ | hmemory
  · exact absurd hnone (by decide)
  · exact absurd hmemory (by decide)

/-- A share that holds nothing is refused, though no other share of its bucket holds
anything: its bucket would be the third of two. -/
theorem third_bucket_refused : withOverrides smallLimits [] = some smallAdmission ∧
      (smallAdmission.run twoBuckets).heldBy ⟨3, 0, []⟩ 3 .state = 0 ∧
      (smallAdmission.run twoBuckets).sharesAbove ⟨3, 0, []⟩ .state 0 = 0 ∧
      3 ≤ smallAdmission.cap ⟨3, 0, []⟩ .state ∧
      ((smallAdmission.run twoBuckets).admitShared ⟨3, 0, []⟩ 3 .state true).isNone =
      true := by
  refine ⟨rfl, ?_, ?_, ?_, ?_⟩ <;> decide

end Redoubt.Admission
