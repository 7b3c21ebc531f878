import Redoubt.Admission.State
import Redoubt.Library.Actions
import Redoubt.Ninep.Wire

/-!
# What a file server is asked

`libs/rt/src/server/ninep.rs` serves 9P for any `FileServer`; here are the questions it
asks one, the errors it answers with, the names it lets through (`path.rs`) and the
label check (`label.rs`).
-/

namespace Redoubt.Ninep

open Actions Admission

/-! ### Errors -/

/-- What an `Rerror` says: one of the skeleton's texts, or a file server's own. -/
inductive NineError
  | badMessage | badMode | badName | badOffset | busy | fidInUse | isOpen
    | notDir | notFound
  | notOpen | notSupported | noAuth | noConnection | noId | noMemory
  | permission | timeout
  | tooDeep | tooMany | tooSmall | unknownFid
  | other (text : Text)
deriving DecidableEq, Repr

def ascii (s : String) : Text := s.toList.map fun c => UInt8.ofNat c.toNat

def NineError.text : NineError → Text
  | badMessage => ascii "malformed message"
  | badMode => ascii "bad open mode"
  | badName => ascii "bad file name"
  | badOffset => ascii "bad offset"
  | busy => ascii "busy"
  | fidInUse => ascii "fid already in use"
  | isOpen => ascii "fid is open"
  | notDir => ascii "not a directory"
  | notFound => ascii "file does not exist"
  | notOpen => ascii "fid not open for this"
  | notSupported => ascii "not supported"
  | noAuth => ascii "authentication not required"
  | noConnection => ascii "no such connection"
  | noId => ascii "no connection id"
  | noMemory => ascii "out of memory"
  | permission => ascii "permission denied"
  | timeout => ascii "timeout"
  | tooDeep => ascii "path too deep"
  | tooMany => ascii "too many open files"
  | tooSmall => ascii "count too small"
  | unknownFid => ascii "unknown fid"
  | other text => text

/-! ### Names -/

def maxName : ℕ := 255

/-- The most components of a path, and the deepest a fid may be below its root. -/
def maxComponents : ℕ := 64

def slash : UInt8 := 47

def dot : Text := ascii "."

def dotDot : Text := ascii ".."

/-- Whether a name can be one component. -/
def validName (name : Text) : Bool :=
  !name.isEmpty && decide (name.length ≤ maxName) && name != dot && name != dotDot &&
    !name.any fun b => b == slash || b == 0

inductive PathError
  | badName | tooDeep
deriving DecidableEq, Repr

/-- One component more, after those in `out`. -/
def cleanStep (out : List Text) (name : Text) : Except PathError (List Text) :=
  if name = [] ∨ name = dot then .ok out
  else if name = dotDot then .ok out.dropLast
  else if validName name then
    if out.length = maxComponents then .error .tooDeep else .ok (out ++ [name])
  else .error .badName

/-- A path's components: `..` takes the one before it away, and nothing at the root. -/
def clean (path : Text) : Except PathError (List Text) :=
  (path.splitOn slash).foldlM cleanStep []

/-! ### Labels -/

inductive Access
  | read | write
deriving DecidableEq, Repr

def subset (a b : List ℕ) : Bool := a.all b.contains

/-- A read needs the object's labels among the caller's, a write the same set. -/
def check (callerLabels objectLabels : List ℕ) : Access → Bool
  | .read => subset objectLabels callerLabels
  | .write => subset objectLabels callerLabels && subset callerLabels objectLabels

/-! ### Files -/

/-- `Qid.kind` of a directory, and `Stat.mode`'s bit. -/
def qtDir : UInt8 := 0x80

def dmDir : UInt32 := 0x80000000

def Qid.isDir (q : Qid) : Bool := q.kind &&& qtDir != 0

/-- Open modes: the access in the low two bits, then flags. -/
def oRead : UInt8 := 0

def oWrite : UInt8 := 1

def oRdwr : UInt8 := 2

def oExec : UInt8 := 3

def oTrunc : UInt8 := 0x10

def readable (mode : UInt8) : Bool :=
  mode &&& 3 == oRead || mode &&& 3 == oRdwr || mode &&& 3 == oExec

def writable (mode : UInt8) : Bool := mode &&& 3 == oWrite || mode &&& 3 == oRdwr

/-- Refuses unknown mode bits, and anything but plain reading for a directory. -/
def checkMode (mode : UInt8) (isDir : Bool) : Bool :=
  !(mode &&& ~~~(3 ||| oTrunc) != 0 || isDir && mode != oRead)

/-- What a file reports about itself. -/
structure FileStat where
  qid : Qid
  mode : UInt32
  mtime : UInt32
  length : UInt64
  name : Text
deriving DecidableEq, Repr

def FileStat.wire (s : FileStat) : Stat :=
  { kind := 0, dev := 0, qid := s.qid, mode := s.mode, atime := s.mtime,
    mtime := s.mtime
    length := s.length, name := s.name, uid := [], gid := [], muid := [] }

/-- `done n out`: `n` bytes were put in the buffer, which now begins with `out`. -/
inductive Read
  | done (n : ℕ) (out : List UInt8)
  | wait

inductive Write
  | done (n : ℕ)
  | wait

/-- The files: each question may change the server's state `σ`. -/
structure FileServer (σ Node : Type) where
  attach : Caller → Text → Action σ NineError (Node × Qid)
  /-- The requester, the badge and id of its new connection, its root and its quota. -/
  minted : Caller → ℕ → ℕ → Node → ℕ → Action σ NineError Unit
  disconnected : ℕ → σ → σ
  labels : σ → Node → List ℕ
  walk : Caller → Node → Text → Action σ NineError (Node × Qid)
  openNode : Caller → Node → UInt8 → Action σ NineError Qid
  /-- At an offset, into a buffer of so many bytes. -/
  read : Caller → Node → ℕ → ℕ → Action σ NineError Read
  writeOrWait : Caller → Node → ℕ → List UInt8 → Action σ NineError Write
  stat : Caller → Node → Action σ NineError FileStat
  dirEntry : Caller → Node → ℕ → Action σ NineError (Option (Node × FileStat))
  create : Caller → Node → Text → UInt32 → UInt8 → Action σ NineError (Node × Qid)
  remove : Caller → Node → Action σ NineError Unit
  /-- Around each multiplexed request: what the file server charges itself. -/
  serving : Caller → AdmitKey × ℕ → σ × Admission → σ × Admission
  served : σ × Admission → σ × Admission
  clunk : Node → σ → σ

end Redoubt.Ninep
