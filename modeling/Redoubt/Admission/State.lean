import Redoubt.Library.Table

/-!
# Admission

`libs/rt/src/server/admit.rs`: what one client may hold in a shared server at
once.  Buckets are kept per account and label set, and per badge for account 0;
a share of a bucket is one badge's.  The tables are searched by key and their
order says nothing, so they are association lists.
-/

namespace Redoubt.Admission

/-- `MAX_LABELS`, `MAX_OPEN_CALLS` and the open calls a server keeps free. -/
def maxLabels : ℕ := 16

def maxOpenCalls : ℕ := 256

def openCallHeadroom : ℕ := maxOpenCalls / 4

/-- The smallest useful non-zero cap. -/
def smallestCap : ℕ := 2

/-- Badges from here on are minted by the server itself. -/
def firstMintedBadge : ℕ := 2 ^ 63

/-- A message's sender, as the kernel names it. -/
structure Caller where
  badge : ℕ
  account : ℕ
  labels : List ℕ
deriving DecidableEq, Repr

/-- What admission is keyed by.  `badge` is 0 unless the account is; the labels are
sorted and without duplicates. -/
structure AdmitKey where
  account : ℕ
  badge : ℕ
  labels : List ℕ
deriving DecidableEq, Repr

/-- The first `maxLabels` labels, each once, sorted. -/
def labelSet (labels : List ℕ) : List ℕ :=
  (labels.foldl (fun kept label =>
    if label ∉ kept ∧ kept.length < maxLabels then kept ++ [label] else kept)
      []).insertionSort (· ≤ ·)

/-- The key of a message's sender. -/
def AdmitKey.of (caller : Caller) : AdmitKey :=
  { account := caller.account
    badge := if caller.account = 0 then caller.badge else 0
    labels := labelSet caller.labels }

/-- An account-0 key moved to the bucket of the badge it was minted through. -/
def AdmitKey.rooted (key : AdmitKey) (root : ℕ) : AdmitKey := { key with badge := root }

/-- Whether the bucket is one badge's alone. -/
def AdmitKey.perBadge (key : AdmitKey) : Bool := key.account == 0

/-- The kinds of thing admission counts. -/
inductive Resource
  | inFlight
  | files
  | state
  | requests
  | pages
deriving DecidableEq, Repr

def Resource.all : List Resource := [inFlight, files, state, requests, pages]

theorem Resource.mem_all (r : Resource) : r ∈ all := by
  cases r <;> simp [all]

/-- The most of each resource one bucket may hold, and how many buckets may hold
anything at once. -/
structure Limits where
  buckets : UInt32
  inFlight : UInt32
  files : UInt32
  state : UInt32
  requests : UInt32
  pages : UInt32
deriving DecidableEq, Repr

def Limits.of (limits : Limits) : Resource → ℕ
  | .inFlight => limits.inFlight.toNat
  | .files => limits.files.toNat
  | .state => limits.state.toNat
  | .requests => limits.requests.toNat
  | .pages => limits.pages.toNat

/-- The calls every bucket at its cap holds open together. -/
def Limits.openCalls (limits : Limits) : ℕ :=
  limits.buckets.toNat * limits.inFlight.toNat

/-- What one of each resource costs the server, in bytes. -/
structure Cost where
  inFlight : UInt64
  file : UInt64
  state : UInt64
  request : UInt64
  page : UInt64
deriving DecidableEq, Repr

def Cost.of (cost : Cost) : Resource → ℕ
  | .inFlight => cost.inFlight.toNat
  | .files => cost.file.toNat
  | .state => cost.state.toNat
  | .requests => cost.request.toNat
  | .pages => cost.page.toNat

/-- Caps for one bucket in place of the default ones.  Multiplexed requests and their
pages keep the default. -/
structure Override where
  account : ℕ
  badge : ℕ
  inFlight : UInt32
  files : UInt32
  state : UInt32
deriving DecidableEq, Repr

/-- Whether a key's bucket is this override's. -/
def Override.covers (o : Override) (key : AdmitKey) : Bool :=
  key.account == o.account && key.badge == o.badge &&
    (o.account == 0 || key.labels.length == 0)

def Override.of (o : Override) : Resource → Option ℕ
  | .inFlight => some o.inFlight.toNat
  | .files => some o.files.toNat
  | .state => some o.state.toNat
  | .requests | .pages => none

/-- What a bucket or a share holds of each resource: all of it, and the part that is a
fixed cost, outside the fair share. -/
structure Counts where
  held : Resource → ℕ := fun _ => 0
  fixed : Resource → ℕ := fun _ => 0

instance : Inhabited Counts := ⟨{}⟩

namespace Counts

variable (c : Counts)

/-- What is held under the fair share. -/
def working (r : Resource) : ℕ := c.held r - c.fixed r

def nothing : Bool := Resource.all.all fun r => c.held r == 0

def plus (r : Resource) (fixed : Bool) : Counts where
  held := Function.update c.held r (c.held r + 1)
  fixed := if fixed then Function.update c.fixed r (c.fixed r + 1) else c.fixed

def minus (r : Resource) (fixed : Bool) : Counts where
  held := Function.update c.held r (c.held r - 1)
  fixed := if fixed then Function.update c.fixed r (c.fixed r - 1) else c.fixed

end Counts

end Redoubt.Admission

/-- What each bucket, and each share within it, holds.  What holds nothing has no
entry. -/
structure Redoubt.Admission where
  limits : Redoubt.Admission.Limits
  overrides : List Redoubt.Admission.Override
  buckets : AList fun _ : Redoubt.Admission.AdmitKey => Redoubt.Admission.Counts
  shares : AList fun _ : Redoubt.Admission.AdmitKey × ℕ => Redoubt.Admission.Counts

namespace Redoubt.Admission

/-- A cap in use that is too small for a fair share to mean anything. -/
def tooSmall (cap : UInt32) : Bool := 1 ≤ cap.toNat && cap.toNat < smallestCap

/-- Admission under `limits`; nothing if they break a sizing rule (`Unsized`). -/
def new (limits : Limits) : Option Admission :=
  if limits.openCalls > maxOpenCalls - openCallHeadroom then none
  else if [limits.buckets, limits.inFlight, limits.files, limits.state, limits.requests,
      limits.pages].any tooSmall then none
  else some { limits := limits, overrides := [], buckets := ∅, shares := ∅ }

/-- An override names a root badge with account 0, or an account with badge 0. -/
def Override.named (o : Override) : Bool :=
  (o.account == 0 && o.badge != 0 && decide (o.badge < firstMintedBadge)) ||
    (o.account != 0 && o.badge == 0)

/-- Each override names a bucket, none twice, with caps that are not too small.
`earlier` are those before. -/
def overridesOk : List Override → List Override → Bool
  | _, [] => true
  | earlier, o :: rest =>
    o.named && !(earlier.any fun p => p.account == o.account && p.badge == o.badge) &&
      !([o.inFlight, o.files, o.state].any tooSmall) &&
        overridesOk (earlier ++ [o]) rest

/-- Admission under `limits` with `overrides`, if the worst case leaves the headroom:
each override's slot at the larger of its cap and the default, every other at the
default. -/
def withOverrides (limits : Limits) (overrides : List Override) : Option Admission := do
  let admission ← new limits
  guard (overridesOk [] overrides)
  guard (overrides.length ≤ limits.buckets.toNat)
  let rest := limits.buckets.toNat - overrides.length
  let worst := (overrides.map fun o => max o.inFlight.toNat limits.inFlight.toNat).sum +
    rest * limits.inFlight.toNat
  guard (worst ≤ maxOpenCalls - openCallHeadroom)
  pure { admission with overrides := overrides }

/-! ### What the worst case costs -/

/-- Nothing past `u64`. -/
def checkedAdd (a b : ℕ) : Option ℕ := if a + b < 2 ^ 64 then some (a + b) else none

def checkedMul (a b : ℕ) : Option ℕ := if a * b < 2 ^ 64 then some (a * b) else none

/-- What one bucket at these caps costs, with the default of multiplexed requests. -/
def Limits.needOne (limits : Limits) (cost : Cost) (inFlight files state : ℕ) :
    Option ℕ := do
  let total ← checkedMul inFlight cost.inFlight.toNat
  let total ← checkedAdd total (← checkedMul files cost.file.toNat)
  let total ← checkedAdd total (← checkedMul state cost.state.toNat)
  let requests ← checkedMul limits.requests.toNat cost.request.toNat
  let pages ← checkedMul limits.pages.toNat cost.page.toNat
  checkedAdd total (← checkedAdd requests pages)

variable (a : Admission)

def needOverride (cost : Cost) (o : Override) : Option ℕ :=
  a.limits.needOne cost (max o.inFlight.toNat a.limits.inFlight.toNat)
    (max o.files.toNat a.limits.files.toNat) (max o.state.toNat a.limits.state.toNat)

def need (cost : Cost) : Option ℕ := do
  let named ← a.overrides.foldlM
    (fun sum o => do checkedAdd sum (← a.needOverride cost o)) 0
  let one ← a.limits.needOne cost a.limits.inFlight.toNat a.limits.files.toNat
    a.limits.state.toNat
  let others ← checkedMul one (a.limits.buckets.toNat - a.overrides.length)
  checkedAdd named others

/-! ### Taking and giving back -/

/-- A key's cap: an override's, for a bucket that has one. -/
def cap (key : AdmitKey) (r : Resource) : ℕ :=
  ((a.overrides.find? fun o => o.covers key).bind fun o => o.of r).getD (a.limits.of r)

/-- What a bucket holds, and what a share of it does. -/
def bucketCounts (key : AdmitKey) : Counts := Table.value a.buckets key

def shareCounts (key : AdmitKey) (share : ℕ) : Counts :=
  Table.value a.shares (key, share)

/-- How much of a resource a bucket holds, and one share of it, fixed costs included. -/
def held (key : AdmitKey) (r : Resource) : ℕ := (a.bucketCounts key).held r

def heldBy (key : AdmitKey) (share : ℕ) (r : Resource) : ℕ :=
  (a.shareCounts key share).held r

/-- The other shares of the bucket that hold working units of a resource. -/
def others (key : AdmitKey) (share : ℕ) (r : Resource) : ℕ :=
  (a.shares.entries.filter fun e => e.1.1 = key ∧ e.1.2 ≠ share ∧
    0 < e.2.working r).length

/-- What a share may hold: of the cap less the bucket's fixed costs, among the shares
holding some, this one included, and room for one more; at least one. -/
def fairShare (key : AdmitKey) (share : ℕ) (r : Resource) : ℕ :=
  let pool := a.cap key r - (a.bucketCounts key).fixed r
  let divisor := min (min (a.others key share r) (2 ^ 32 - 1) + 2) (2 ^ 32 - 1)
  max (pool / divisor) 1

/-- Takes one of a resource, or refuses.  `memory`: whether the tables can grow. -/
def take (key : AdmitKey) (share : ℕ) (r : Resource) (fixed memory : Bool) :
    Option Admission :=
  if a.held key r ≥ a.cap key r ∨
      (a.buckets.lookup key).isNone ∧
      a.buckets.entries.length ≥ a.limits.buckets.toNat then none
  else if fixed = false ∧ key.perBadge = false ∧
      (a.shareCounts key share).working r ≥ a.fairShare key share r then none
  else if memory = false ∧
      ((a.buckets.lookup key).isNone ∨ (a.shares.lookup (key, share)).isNone) then none
  else
    some { a with
      buckets := a.buckets.insert key ((a.bucketCounts key).plus r fixed)
      shares := a.shares.insert (key, share) ((a.shareCounts key share).plus r fixed) }

/-- Under the fair share, and as a fixed cost. -/
def admitShared (key : AdmitKey) (share : ℕ) (r : Resource) (memory : Bool) :
    Option Admission :=
  a.take key share r false memory

def admitFixed (key : AdmitKey) (share : ℕ) (r : Resource) (memory : Bool) :
    Option Admission :=
  a.take key share r true memory

/-- A table's entry, which goes once it holds nothing. -/
def settle {κ : Type} [DecidableEq κ] (table : AList fun _ : κ => Counts) (k : κ)
    (c : Counts) :
    AList fun _ : κ => Counts := if c.nothing then table.erase k else table.insert k c

/-- Gives back one of a resource; what was never taken changes nothing. -/
def give (key : AdmitKey) (share : ℕ) (r : Resource) (fixed : Bool) : Admission :=
  match a.buckets.lookup key, a.shares.lookup (key, share) with
  | some bucket, some entry =>
    if (if fixed then entry.fixed r else entry.working r) = 0 then a
    else
      { a with
        buckets := settle a.buckets key (bucket.minus r fixed)
        shares := settle a.shares (key, share) (entry.minus r fixed) }
  | _, _ => a

def release (key : AdmitKey) (share : ℕ) (r : Resource) : Admission :=
  a.give key share r false

def releaseFixed (key : AdmitKey) (share : ℕ) (r : Resource) : Admission :=
  a.give key share r true

/-- A call of the server's. -/
inductive Call
  | admitShared (key : AdmitKey) (share : ℕ) (r : Resource) (memory : Bool)
  | admitFixed (key : AdmitKey) (share : ℕ) (r : Resource) (memory : Bool)
  | release (key : AdmitKey) (share : ℕ) (r : Resource)
  | releaseFixed (key : AdmitKey) (share : ℕ) (r : Resource)

/-- A refused call changes nothing. -/
def call : Call → Admission
  | .admitShared key share r memory => (a.admitShared key share r memory).getD a
  | .admitFixed key share r memory => (a.admitFixed key share r memory).getD a
  | .release key share r => a.release key share r
  | .releaseFixed key share r => a.releaseFixed key share r

def run (calls : List Call) : Admission := calls.foldl call a

end Redoubt.Admission
