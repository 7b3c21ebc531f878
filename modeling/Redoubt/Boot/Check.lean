import Redoubt.Boot.Manifest

/-!
# The manifest checked whole

`servers/init/src/check.rs`: the names, the references, the servers `init` calls, the
volumes and the verifiers.  What else the check looks at (home quotas, devices, budgets,
startup blocks, keys, buckets, and what the boot costs) is given, whatever it refuses.
-/

namespace Redoubt.Boot

open Checks Server

/-- What is wrong with one value. -/
inductive Why
  | notAName | accountName | reserved | twice | unknown | deviceName | receivedTwice
    | budgetHandle | badge
  | tooManyLabels | argument | value | noKeyd | consoledRoot | noBlkd | noDisk
  | blkdHanded | blkdEndpoint
  | notVerityd | verityMode | noVolume | verifier | verifierLabels | verifierHanded
  | second (program : String)
deriving DecidableEq, Repr

/-- What two label sets would share. -/
inductive Sharing
  | endpoint | volume | network | device | server
deriving DecidableEq, Repr

/-- A boot `init` will not run; `elsewhere`: refused by what is not modelled. -/
inductive Refusal
  | wrong (path : String) (why : Why)
  | confined (path : String) (sharing : Sharing)
  | elsewhere
deriving DecidableEq, Repr

abbrev Checked := Except Refusal Unit

inductive IpVersion
  | v4 | v6
deriving DecidableEq, Repr

/-- What the check takes from elsewhere: the bundle's entries, how an address is read,
and the checks that do not look at what is connected. -/
structure Machine where
  entries : List String
  parseIp : String → Option IpVersion
  quotas : Manifest → Checked
  fits : Manifest → Checked
  bound : Manifest → Checked

/-! ### Names -/

/-- The kinds of names that differ among themselves. -/
inductive Kind
  | devices | labels | volumes | principals | servers | endpoints
deriving DecidableEq, Repr

abbrev Naming := Seeing (Kind × String) Refusal Unit

def budgetNames : List String := ["root", "system", "users"]

def irqSuffix : String := "-irq"

def nameRule (n path : String) : Checked := refuse (validName n = false)
      (.wrong path .notAName)

def accountRule (n path : String) : Checked := do
  nameRule n path
  refuse (accountName n = false) (.wrong path .accountName)

def deviceRule (n path : String) : Checked := do
  nameRule n path
  refuse (60 < n.utf8ByteSize ∨ endsWith n irqSuffix = true) (.wrong path .deviceName)

/-- Never a budget's. -/
def endpointRule (e path : String) : Checked := do
  nameRule e path
  refuse (e ∈ budgetNames) (.wrong path .budgetHandle)

def serverNames (s : Server) (i : ℕ) : Checked :=
  Except.map (fun _ => ()) <| (do
    each s.receives fun k e => do
      plain (endpointRule e s!"servers[{i}].receives[{k}]")
      add e (.wrong s!"servers[{i}].receives[{k}]" .twice)
    each s.handed fun k h => do
      plain (endpointRule h.endpoint s!"servers[{i}].handed[{k}].endpoint")
      add h.endpoint (.wrong s!"servers[{i}].handed[{k}].endpoint" .twice)
    each s.devices fun k d => do
      plain (deviceRule d.name s!"servers[{i}].devices[{k}].as")
      add d.name (.wrong s!"servers[{i}].devices[{k}].as" .twice)
      add (d.name ++ irqSuffix) (.wrong s!"servers[{i}].devices[{k}].as" .twice) :
        Seeing String Refusal Unit) []

variable (m : Manifest)

/-- Every name follows the rule, and names of one kind differ. -/
def naming : Naming := do
  each m.devices fun i d => do
    plain (deviceRule d.name s!"devices[{i}].name")
    add (.devices, d.name) (.wrong s!"devices[{i}].name" .twice)
  each m.labels fun i l => do
    plain (accountRule l.name s!"labels[{i}].name")
    add (.labels, l.name) (.wrong s!"labels[{i}].name" .twice)
  plain (each m.labels fun i l =>
    refuse (l.id ∈ (m.labels.take i).map Label.id) (.wrong s!"labels[{i}].id" .twice))
  each m.volumes fun i v => do
    plain (nameRule v.name s!"volumes[{i}].name")
    add (.volumes, v.name) (.wrong s!"volumes[{i}].name" .twice)
  each m.principals fun i p => do
    plain (accountRule p.name s!"principals[{i}].name")
    plain (refuse (p.name = "approve") (.wrong s!"principals[{i}].name" .reserved))
    add (.principals, p.name) (.wrong s!"principals[{i}].name" .twice)
  each m.servers fun i s => do
    plain (nameRule s.name s!"servers[{i}].name")
    add (.servers, s.name) (.wrong s!"servers[{i}].name" .twice)
    plain (nameRule s.program s!"servers[{i}].program")
    plain (serverNames s i)
    each s.receives fun k e =>
      add (.endpoints, e) (.wrong s!"servers[{i}].receives[{k}]" .receivedTwice)

def names : Checked := (naming m []).map fun _ => ()

/-! ### References -/

def maxLabels : ℕ := 16

def bucketsArg : String := "buckets="

/-- `init`'s root badge at the steward. -/
def stewardInitBadge : ℕ := 3

/-- Below every badge a server mints. -/
def firstMintedBadge : ℕ := 2 ^ 63

/-- The most rules a scope `ipd` grants holds. -/
def ipdRules : ℕ := 8

/-- A list of labels: known, each once, no more than a budget holds. -/
def labelReferences (list : List String) (path : ℕ → String) : Checked := do
  refuse (maxLabels < list.length) (.wrong (path 0) .tooManyLabels)
  each list fun k n => refuse (n ∉ m.labels.map Label.name) (.wrong (path k) .unknown)
  each list fun k n => refuse (n ∈ list.take k) (.wrong (path k) .twice)

/-- Pinned, or signed, with both its members. -/
def verityMode (verity : Verity) (path : String) : Checked :=
  match verity.root, verity.blocks, verity.key, verity.floor with
  | some root, some blocks, none, none => do
      refuse (isHex root = false) (.wrong (path ++ ".root") .value)
      refuse ((Verity.Geometry.new blocks).isNone = true)
        (.wrong (path ++ ".blocks") .value)
  | none, none, some key, some _ =>
    refuse (key ≠ "bundle" ∧ isHex key = false) (.wrong (path ++ ".key") .value)
  | _, _, _, _ => .error (.wrong path .verityMode)

def volumeReferences (i : ℕ) (v : Volume) : Checked := do
  labelReferences m v.labels fun k => s!"volumes[{i}].labels[{k}]"
  refuse (¬ (0 ≤ v.partition ∧ v.partition ≤ 255))
    (.wrong s!"volumes[{i}].partition" .value)
  refuse (v.disk.isSome = true ∧ blkd m v = none)
    (.wrong s!"volumes[{i}].disk" .unknown)
  match v.verity with
  | none => .ok ()
  | some verity => do
      refuse (verifier m v = none) (.wrong s!"volumes[{i}].verity.server" .unknown)
      verityMode verity s!"volumes[{i}].verity"

/-- A root badge, held once at its endpoint, and not `init`'s own. -/
def badgeRule (i k : ℕ) (s : Server) (h : Handed) : Prop :=
  h.badge ≠ 0 ∧ h.badge < firstMintedBadge ∧
    h ∉ (m.servers.take i).flatMap handed ++ s.handed.take k ∧
    ¬ (h.badge = stewardInitBadge ∧ ∃ t ∈ m.servers, isSteward m t = true ∧
      t.receives.head? = some h.endpoint)

instance (m : Manifest) (i k : ℕ) (s : Server) (h : Handed) :
    Decidable (badgeRule m i k s h) :=
  inferInstanceAs (Decidable (_ ∧ _ ∧ _ ∧ _))

variable (machine : Machine)

def serverReferences (i : ℕ) (s : Server) : Checked := do
  refuse (s.program ∉ machine.entries ∨ s.program = "manifest")
    (.wrong s!"servers[{i}].program" .unknown)
  labelReferences m s.labels fun k => s!"servers[{i}].labels[{k}]"
  refuse (s.volume.any (fun v => v ∉ m.volumes.map Volume.name) = true)
    (.wrong s!"servers[{i}].volume" .unknown)
  each s.handed fun k h => do
    refuse (h.endpoint ∉ m.servers.flatMap receives)
      (.wrong s!"servers[{i}].handed[{k}].endpoint" .unknown)
    refuse (¬ badgeRule m i k s h) (.wrong s!"servers[{i}].handed[{k}].badge" .badge)
  each s.args fun k a => refuse (a.toList.any (fun c => c.toNat = 0) = true)
    (.wrong s!"servers[{i}].args[{k}]" .argument)

/-- The volume and the path of a principal's home. -/
def homeOf (p : Principal) : Option (String × String) := p.home.bind (splitOnce ':')

/-- IPv4 connect rules, one per port or one for every port. -/
def stewardNet (p : Principal) : Prop :=
  (p.net.map fun n => max n.ports.length 1).sum ≤ ipdRules ∧
    ∀ n ∈ p.net,
      (splitOnce '/' n.addresses).any (fun a => machine.parseIp a.1 = some .v4) = true

instance (machine : Machine) (p : Principal) : Decidable (stewardNet machine p) :=
  inferInstanceAs (Decidable (_ ∧ _))

/-- Each home's and vault's server is one the steward is handed. -/
def stewardReferences (st : Steward) : Checked :=
  match m.servers.findIdx? (·.name = st.server) with
  | none => .error (.wrong "steward.server" .unknown)
  | some i => do
      let own := (m.servers[i]?).elim [] args
      let handed := ((m.servers[i]?).elim [] handed).map Handed.endpoint
      each own fun k a => refuse (startsWith a bucketsArg = false)
        (.wrong s!"servers[{i}].args[{k}]" .argument)
      each m.principals fun j p => do
        refuse (¬ stewardNet machine p) (.wrong s!"principals[{j}].net" .value)
        refuse ((homeOf p).any (fun home => (volumeHandle m home.1).all fun e =>
          e ∉ handed) = true)
          (.wrong s!"principals[{j}].home" .unknown)
        each p.labelSets fun k set =>
          refuse ((vaultHandle m set.labels).any (fun e => e ∉ handed) = true)
          (.wrong s!"principals[{j}].label_sets[{k}]" .unknown)

/-- A decimal number below 256, as the machine reads one. -/
def parseU8 (text : String) : Option ℕ :=
  let digits := if text.toList.head? = some '+' then text.toList.tail else text.toList
  let value := digits.foldl (fun n c => 10 * n + (c.toNat - '0'.toNat)) 0
  if digits ≠ [] ∧ digits.all isAsciiDigit = true ∧ value < 256 then
    some value else none

/-- An IP prefix, `ADDRESS/LENGTH`, the length within the address's bits. -/
def isPrefix (text : String) : Bool :=
  (splitOnce '/' text).any fun (address, len) =>
    (machine.parseIp address).any fun version =>
      (len = "0" || (!startsWith len "0" && len ≠ "")) &&
        (parseU8 len).any (· ≤ if version = .v4 then 32 else 128)

def principalReferences (i : ℕ) (p : Principal) : Checked := do
  refuse (p.account = 0) (.wrong s!"principals[{i}].account" .value)
  refuse (p.account ∈ (m.principals.take i).map Principal.account)
    (.wrong s!"principals[{i}].account" .twice)
  labelReferences m p.labels fun k => s!"principals[{i}].labels[{k}]"
  each p.labels fun k n => refuse (¬ ∃ l ∈ m.labels, l.name = n ∧ l.owner = p.name)
    (.wrong s!"principals[{i}].labels[{k}]" .unknown)
  each p.labelSets fun j set => labelReferences m set.labels fun k =>
    s!"principals[{i}].label_sets[{j}].labels[{k}]"
  refuse (p.home.isSome = true ∧
    (homeOf p).any (fun home => home.1 ∈ m.volumes.map Volume.name ∧
      isCleanAbsolute home.2 = true) = false)
    (.wrong s!"principals[{i}].home" .value)
  each p.net fun j n => do
    refuse (isPrefix machine n.addresses = false)
      (.wrong s!"principals[{i}].net[{j}].prefix" .value)
    each n.ports fun k port => refuse (¬ (1 ≤ port ∧ port ≤ 65535))
      (.wrong s!"principals[{i}].net[{j}].ports[{k}]" .value)

/-- Every reference names something the manifest or the bundle holds. -/
def references : Checked := do
  each m.labels fun i l => refuse (l.owner ∉ m.principals.map Principal.name)
    (.wrong s!"labels[{i}].owner" .unknown)
  each m.volumes (volumeReferences m)
  each m.servers (serverReferences m machine)
  m.steward.elim (.ok ()) (stewardReferences m machine)
  refuse (m.console.any (fun c => m.steward.isNone || c ∉
    m.principals.map Principal.name) = true)
    (.wrong "console" .unknown)
  each m.principals (principalReferences m machine)

/-! ### The servers `init` calls -/

/-- The programs `init` calls itself. -/
def initCallsPrograms : List String := ["keyd", "consoled", "bootfsd"]

def receivedBy (program : String) : List String :=
  (m.servers.filter (·.program = program)).flatMap receives

/-- No server is handed an endpoint that a program's servers receive on. -/
def unhanded (program : String) (why : Why) : Checked :=
  each m.servers fun i s => each s.handed fun k h =>
    refuse (h.endpoint ∈ receivedBy m program)
      (.wrong s!"servers[{i}].handed[{k}].endpoint" why)

/-- Each receives on an endpoint and runs once, and there is a `keyd`. -/
def initCalls : Checked := do
  each m.servers fun i s =>
    refuse (s.program ∈ initCallsPrograms ∧ s.receives = [])
      (.wrong s!"servers[{i}].receives" .unknown)
  each m.servers fun i s =>
    refuse (s.program ∈ initCallsPrograms ∧ s.program ∈ (m.servers.take i).map program)
      (.wrong s!"servers[{i}].program" (.second s.program))
  unhanded m "consoled" .consoledRoot
  refuse ("keyd" ∉ m.servers.map program) (.wrong "servers" .noKeyd)

/-! ### Volumes -/

def labelsArg : String := "labels="

def rangeLabelsArg : String := "labels."

def endpointArg : String := "endpoint="

/-- The `blkd` of a volume's disk receives on an endpoint. -/
def served (v : Volume) : Bool := (blkd m v).any fun b => !b.receives.isEmpty

/-- The argument that `init` passes itself. -/
def ownArgument (s : Server) : Option String :=
  if s.program = blkdProgram then some rangeLabelsArg
  else if s.volume.isSome = true then some labelsArg
  else none

/-- A `blkd` receives where its one `endpoint=` says. -/
def blkdEndpoint (i : ℕ) (s : Server) : Checked :=
  match s.args.zipIdx.filter fun a => startsWith a.1 endpointArg with
  | [] => .error (.wrong s!"servers[{i}].args" .blkdEndpoint)
  | [(a, k)] =>
    refuse (some a ≠ s.receives.head?.map (endpointArg ++ ·))
      (.wrong s!"servers[{i}].args[{k}]" .blkdEndpoint)
  | _ :: (_, k) :: _ => .error (.wrong s!"servers[{i}].args[{k}]" .blkdEndpoint)

/-- Each volume is one entry of its disk, served by at most one server. -/
def volumes (m : Manifest) : Checked := do
  each m.volumes fun i v => do
    refuse (1 < (m.servers.filter (·.program = blkdProgram)).length ∧ v.disk = none)
      (.wrong s!"volumes[{i}].disk" .noDisk)
    refuse (∃ w ∈ m.volumes.take i, w.partition = v.partition ∧
      (blkd m w).map Server.name = (blkd m v).map Server.name)
      (.wrong s!"volumes[{i}].partition" .twice)
  each m.servers fun i s => match s.volume with
    | none => .ok ()
    | some volume => do
        refuse (some volume ∈ (m.servers.take i).map Server.volume)
          (.wrong s!"servers[{i}].volume" .twice)
        refuse (¬ ∃ v ∈ m.volumes, v.name = volume ∧ served m v = true)
          (.wrong s!"servers[{i}].volume" .noBlkd)
  unhanded m blkdProgram .blkdHanded
  each m.servers fun i s => (ownArgument s).elim (.ok ()) fun own =>
    each s.args fun k a => refuse (startsWith a own = true)
      (.wrong s!"servers[{i}].args[{k}]" .argument)
  each m.servers fun i s => provided (s.program = blkdProgram) (blkdEndpoint i s)

/-! ### Verifiers -/

/-- A `verityd` verifies one volume and takes it from `init` alone. -/
def verifierRule (i : ℕ) (s : Server) : Checked :=
  match verified m s with
  | none => .error (.wrong s!"servers[{i}]" .noVolume)
  | some v => do
      refuse (s.volume.isSome = true) (.wrong s!"servers[{i}].volume" .verifier)
      refuse (s.receives = []) (.wrong s!"servers[{i}].receives" .verifier)
      refuse (s.args ≠ []) (.wrong s!"servers[{i}].args[0]" .argument)
      refuse (sorted s.labels ≠ sorted v.labels)
        (.wrong s!"servers[{i}].labels" .verifierLabels)
      refuse (served m v = false) (.wrong s!"servers[{i}]" .noBlkd)

/-- Each verified volume names a `verityd` that no other volume names. -/
def verifiers : Checked := do
  each m.volumes fun i v => match v.verity with
    | none => .ok ()
    | some verity => do
        refuse ((verifier m v).all (·.program ≠ veritydProgram) = true)
          (.wrong s!"volumes[{i}].verity.server" .notVerityd)
        refuse (∃ w ∈ m.volumes.take i, w.verity.any (·.server = verity.server) = true)
          (.wrong s!"volumes[{i}].verity.server" .twice)
  each m.servers fun i s => provided (s.program = veritydProgram) (verifierRule m i s)
  unhanded m veritydProgram .verifierHanded

end Redoubt.Boot
