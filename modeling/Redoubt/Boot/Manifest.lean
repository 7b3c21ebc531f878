import Redoubt.Library.Checks
import Redoubt.Verity.Tree

/-!
# The boot manifest

`servers/init/src/manifest.rs`, with the lookups of `servers/init/src/check.rs` that say
what `init` will connect.
-/

namespace Redoubt.Boot

/-! ### The entries -/

structure Device where
  name : String
deriving DecidableEq, Repr

structure Label where
  name : String
  owner : String
  id : ℕ
deriving DecidableEq, Repr

/-- A verified volume's verifier and what it checks against, pinned (the root and the
blocks) or signed (the key and the floor). -/
structure Verity where
  server : String
  root : Option String
  blocks : Option ℕ
  key : Option String
  floor : Option ℕ
deriving DecidableEq, Repr

/-- `disk`: the `blkd` serving the volume's disk. -/
structure Volume where
  name : String
  partition : ℤ
  labels : List String
  disk : Option String
  verity : Option Verity
deriving DecidableEq, Repr

/-- A device a server gets, and the name the program looks it up by. -/
structure DeviceUse where
  device : String
  name : String
deriving DecidableEq, Repr

/-- An endpoint a server is handed, and the root badge minted for it there. -/
structure Handed where
  endpoint : String
  badge : ℕ
deriving DecidableEq, Repr

structure Server where
  name : String
  program : String
  labels : List String
  devices : List DeviceUse
  volume : Option String
  receives : List String
  handed : List Handed
  args : List String
deriving DecidableEq, Repr

/-- A label set a principal works under. -/
structure LabelSet where
  labels : List String
deriving DecidableEq, Repr

/-- A network scope: an IP address range and the ports in it. -/
structure Net where
  addresses : String
  ports : List ℤ
deriving DecidableEq, Repr

structure Principal where
  name : String
  account : ℕ
  labels : List String
  labelSets : List LabelSet
  home : Option String
  net : List Net
deriving DecidableEq, Repr

structure Steward where
  server : String
deriving DecidableEq, Repr

structure Manifest where
  confined : Bool
  devices : List Device
  labels : List Label
  volumes : List Volume
  servers : List Server
  principals : List Principal
  steward : Option Steward
  console : Option String
deriving DecidableEq, Repr

/-! ### Texts -/

def startsWith (text start : String) : Bool := start.toList.isPrefixOf text.toList

def endsWith (text tail : String) : Bool := tail.toList.isSuffixOf text.toList

/-- What is before and what is after the first `sep`. -/
def splitOnce (sep : Char) (text : String) : Option (String × String) :=
  match text.toList.dropWhile (· ≠ sep) with
  | [] => none
  | _ :: rest =>
    some (String.ofList (text.toList.takeWhile (· ≠ sep)), String.ofList rest)

/-- The pieces between every two `sep`. -/
def split (sep : Char) (text : String) : List String :=
  (text.toList.splitOn sep).map String.ofList

def isAsciiLowercase (c : Char) : Bool := 'a' ≤ c ∧ c ≤ 'z'

def isAsciiDigit (c : Char) : Bool := '0' ≤ c ∧ c ≤ '9'

/-- A name of the startup block (`libs/rt/src/startup.rs`). -/
def validName (name : String) : Bool :=
  name.toList.head?.any isAsciiLowercase && name.utf8ByteSize ≤ 64 &&
    name.toList.all fun c => isAsciiLowercase c || isAsciiDigit c ||
      "_:+-".toList.contains c

/-- A principal's or a label's name (`libs/steward/src/manifest.rs`). -/
def accountName (name : String) : Bool :=
  name.utf8ByteSize ≤ 64 && name.toList.head?.any isAsciiLowercase &&
    name.toList.all fun c => isAsciiLowercase c || isAsciiDigit c ||
      "_-".toList.contains c

/-- One component of a path (`libs/rt/src/path.rs`). -/
def validComponent (name : String) : Bool :=
  name ≠ "" && name.utf8ByteSize ≤ 255 && name ≠ "." && name ≠ ".." &&
    !name.toList.any fun c => c = '/' || c.toNat = 0

def isCleanAbsolute (path : String) : Bool :=
  match path.toList with
  | '/' :: rest =>
    rest = [] || (split '/' (String.ofList rest)).all validComponent &&
      (split '/' (String.ofList rest)).length ≤ 64
  | _ => false

/-- 64 lowercase hex digits (`libs/verity/src/lib.rs`). -/
def isHex (text : String) : Bool :=
  text.utf8ByteSize = 64 && text.toList.all fun c =>
    isAsciiDigit c || ('a' ≤ c && c ≤ 'f')

/-! ### What `init` will connect -/

def blkdProgram : String := "blkd"

def veritydProgram : String := "verityd"

/-- The one badge a `verityd` serves. -/
def verifiedBadge : ℤ := 1

variable (m : Manifest)

/-- The `blkd` serving a volume's disk: the one its `disk` names, or the only one. -/
def blkd (v : Volume) : Option Server :=
  match v.disk, m.servers.filter (·.program = blkdProgram) with
  | some disk, found => found.find? (·.name = disk)
  | none, [only] => some only
  | none, _ => none

/-- Whether a volume is on the disk that `s` serves. -/
def onDisk (v : Volume) (s : Server) : Bool := (blkd m v).any (·.name = s.name)

/-- The entry verifying a volume. -/
def verifier (v : Volume) : Option Server :=
  v.verity.bind fun verity => m.servers.find? (·.name = verity.server)

def verified (s : Server) : Option Volume :=
  m.volumes.find? fun v => v.verity.any (·.server = s.name)

/-- A volume's range at its disk's `blkd`. -/
def atBlkd (v : Volume) : Option (String × ℤ) :=
  ((blkd m v).bind fun b => b.receives.head?).map fun e => (e, v.partition + 1)

/-- Where `init` mints a server's `volume` handle, and its badge there. -/
def range (s : Server) : Option (String × ℤ) :=
  match s.volume.bind fun name => m.volumes.find? (·.name = name) with
  | some v =>
    match verifier m v with
    | some verifier => verifier.receives.head?.map fun e => (e, verifiedBadge)
    | none => atBlkd m v
  | none => (verified m s).bind (atBlkd m)

/-- Whether a server holds a volume's range at its disk's `blkd`. -/
def holdsRange (v : Volume) (t : Server) : Bool :=
  match verifier m v with
  | some verifier => verifier.name = t.name
  | none => t.volume = some v.name

def isSteward (s : Server) : Bool := m.steward.any (·.server = s.name)

/-- The server attaching a volume, by the named handle its first endpoint is handed
as. -/
def volumeHandle (name : String) : Option String :=
  (m.servers.find? (·.volume = some name)).bind fun s => s.receives.head?

def sorted (labels : List String) : List String := labels.insertionSort (· ≤ ·)

/-- The labelled volume whose label set is `labels`. -/
def vaultVolume (labels : List String) : Option Volume :=
  m.volumes.find? fun v => v.labels ≠ [] ∧ sorted v.labels = sorted labels

def vaultHandle (labels : List String) : Option String :=
  (vaultVolume m labels).bind fun v => volumeHandle m v.name

end Redoubt.Boot
