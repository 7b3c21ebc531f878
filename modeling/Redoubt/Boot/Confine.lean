import Redoubt.Boot.Check

/-!
# The confinement check

`servers/init/src/confine.rs`: with `confined` set, two domains with differing label
sets share nothing.  Each sharing kind is its own pass: endpoint, volume, network,
device, server.
-/

namespace Redoubt.Boot

open Checks

def network : List String := ["ipd", "netd"]

/-- The programs that serve every domain by design. -/
def exemptPrograms : List String := ["steward", "sshd"]

/-- Repeats next to one another taken out. -/
def dedup : List String → List String
  | a :: b :: rest => if a = b then dedup (b :: rest) else a :: dedup (b :: rest)
  | labels => labels

/-- A label set, sorted, so that two spellings of one set compare equal. -/
def set (labels : List String) : List String := dedup (sorted labels)

variable (m : Manifest)

/-- Every domain a principal works in: its unlabelled set and each of its label sets. -/
def principalSets : List (ℕ × List String) :=
  m.principals.zipIdx.flatMap fun (p, i) => (i, []) :: p.labelSets.map fun s =>
    (i, set s.labels)

def exempt (s : Server) : Bool := exemptPrograms.contains s.program

def shared (s : Server) : Bool := s.args.any fun a => startsWith a bucketsArg

/-- Whether `t` attaches the volume that `s` verifies. -/
def readsThrough (s t : Server) : Bool :=
  (verified m s).any fun v => t.volume = some v.name

/-- Whether `t` uses `s`: it holds a range at it, or is handed one of its endpoints. -/
def uses (s t : Server) : Bool :=
  (s.program = blkdProgram && m.volumes.any fun v =>
    onDisk m v s && holdsRange m v t) || readsThrough m s t ||
    t.handed.any fun h => s.receives.contains h.endpoint

/-- The label sets that use a server: its own, every server's that uses it and, if it is
shared, every principal domain with its own set. -/
def users (s : Server) : List (List String) :=
  set s.labels :: ((m.servers.filter fun t => !exempt t && uses m s t).map fun t =>
    set t.labels) ++
    if shared s = true then (principalSets m).map Prod.snd |>.filter (· = set s.labels)
      else []

/-- Whether any two that follow one another differ. -/
def differ : List (List String) → Bool
  | a :: b :: rest => a ≠ b || differ (b :: rest)
  | _ => false

/-- The label sets at the endpoint `e` that `s` receives on in place `k`. -/
def endpointSets (s : Server) (k : ℕ) (e : String) : List (List String) :=
  set s.labels :: (m.servers.filter fun t =>
    !exempt t && ((t.handed.any fun h => h.endpoint = e) ||
      (k = 0 && readsThrough m s t))).map fun t => set t.labels

/-- The label sets at a volume: its own, every server's attaching it and, for a
principal whose home is on it, the principal's unlabelled domain alone. -/
def volumeSets (v : Volume) : List (List String) :=
  set v.labels :: ((m.servers.filter fun s => s.volume = some v.name).map fun s =>
    set s.labels) ++
    (((principalSets m).filter fun d => d.2 = []).filter fun d =>
      ((m.principals[d.1]?).bind homeOf).any fun home => home.1 = v.name).map Prod.snd

/-- R34 for a manifest with `confined` set. -/
def confine : Checked := do
  each m.servers fun i s => provided (exempt s = false) <| each s.receives fun k e =>
    refuse (differ (endpointSets m s k e) = true)
      (.confined s!"servers[{i}].receives[{k}]" .endpoint)
  each m.volumes fun i v => refuse (differ (volumeSets m v) = true)
    (.confined s!"volumes[{i}]" .volume)
  each m.servers fun i s => provided (exempt s = false) <|
    refuse (s.program ∈ network ∧ differ (users m s) = true)
      (.confined s!"servers[{i}]" .network)
  each (principalSets m) fun _ (p, domain) =>
    refuse (domain ≠ [] ∧ (m.principals[p]?).any (fun p => p.net ≠ []) = true)
      (.confined s!"principals[{p}].net" .network)
  each m.servers fun i s => provided (exempt s = false) <|
    refuse (s.devices ≠ [] ∧ differ (users m s) = true)
      (.confined s!"servers[{i}].devices" .device)
  each m.servers fun i s => provided (exempt s = false) <|
    refuse (differ (users m s) = true) (.confined s!"servers[{i}]" .server)

/-- The manifest is one that `init` boots. -/
def check (machine : Machine) : Checked := do
  names m
  references m machine
  initCalls m
  volumes m
  machine.quotas m
  verifiers m
  machine.fits m
  provided (m.confined = true) (confine m)
  machine.bound m

end Redoubt.Boot
