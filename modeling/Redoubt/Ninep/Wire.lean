import Redoubt.Library.LittleEndian

/-!
# 9P messages

`libs/wire/src/ninep.rs` and `codec.rs`: `size[4] type[1] tag[2]` and a body whose
fields follow one another.  A text is its UTF-8 bytes.
-/

namespace Redoubt.Ninep

open LittleEndian

/-- The largest message, the header's bytes, the room kept around read or written data,
the most names of a walk, and the tag and fid that name nothing. -/
def msize : ℕ := 64 * 1024

def headerSize : ℕ := 7

def ioHdrSz : ℕ := 24

def maxWElem : ℕ := 16

def noTag : UInt16 := 0xffff

def noFid : UInt32 := 0xffffffff

abbrev Text := List UInt8

/-- A file's identity; `kind` is 9P's `type`. -/
structure Qid where
  kind : UInt8 := 0
  version : UInt32 := 0
  path : UInt64 := 0
deriving DecidableEq, Repr, Inhabited

/-- A directory entry. -/
structure Stat where
  kind : UInt16
  dev : UInt32
  qid : Qid
  mode : UInt32
  atime : UInt32
  mtime : UInt32
  length : UInt64
  name : Text
  uid : Text
  gid : Text
  muid : Text
deriving DecidableEq, Repr

/-- The messages of the table, by their types. -/
inductive Body
  | tversion (msize : UInt32) (version : Text)
  | rversion (msize : UInt32) (version : Text)
  | tauth (afid : UInt32) (uname aname : Text)
  | rauth (aqid : Qid)
  | tattach (fid afid : UInt32) (uname aname : Text)
  | rattach (qid : Qid)
  | rerror (ename : Text)
  | tflush (oldtag : UInt16)
  | rflush
  | twalk (fid newfid : UInt32) (wnames : List Text)
  | rwalk (qids : List Qid)
  | topen (fid : UInt32) (mode : UInt8)
  | ropen (qid : Qid) (iounit : UInt32)
  | tcreate (fid : UInt32) (name : Text) (perm : UInt32) (mode : UInt8)
  | rcreate (qid : Qid) (iounit : UInt32)
  | tread (fid : UInt32) (offset : UInt64) (count : UInt32)
  | rread (data : List UInt8)
  | twrite (fid : UInt32) (offset : UInt64) (data : List UInt8)
  | rwrite (count : UInt32)
  | tclunk (fid : UInt32)
  | rclunk
  | tremove (fid : UInt32)
  | rremove
  | tstat (fid : UInt32)
  | rstat (stat : Stat)
  | twstat (fid : UInt32) (stat : Stat)
  | rwstat
deriving DecidableEq, Repr

structure Message where
  tag : UInt16
  body : Body
deriving DecidableEq, Repr

/-! ### Reading -/

/-- Whether bytes are UTF-8: no overlong form, no surrogate, nothing above U+10FFFF. -/
def validUtf8 : List UInt8 → Bool
  | [] => true
  | a :: rest =>
    if a < 0x80 then validUtf8 rest
    else
      let tail (b : UInt8) := 0x80 ≤ b && b ≤ 0xbf
      match rest with
      | [] => false
      | b :: rest =>
        if 0xc2 ≤ a && a ≤ 0xdf then tail b && validUtf8 rest
        else
          match rest with
          | [] => false
          | c :: rest =>
            if 0xe0 ≤ a && a ≤ 0xef then
              tail b && tail c && (a != 0xe0 || 0xa0 ≤ b) && (a != 0xed || b ≤ 0x9f) &&
                validUtf8 rest
            else
              match rest with
              | [] => false
              | d :: rest =>
                0xf0 ≤ a && a ≤ 0xf4 && tail b && tail c && tail d &&
                  (a != 0xf0 || 0x90 ≤ b) && (a != 0xf4 || b ≤ 0x8f) && validUtf8 rest

/-- Reads fields from the front of bytes. -/
abbrev Reader := StateT (List UInt8) Option

namespace Reader

/-- The next `n` bytes. -/
def take (n : ℕ) : Reader (List UInt8) := fun buf =>
  if n ≤ buf.length then some (buf.take n, buf.drop n) else none

def u8 : Reader UInt8 := do return UInt8.ofNat (leNat (← take 1))

def u16 : Reader UInt16 := do return UInt16.ofNat (leNat (← take 2))

def u32 : Reader UInt32 := do return UInt32.ofNat (leNat (← take 4))

def u64 : Reader UInt64 := do return UInt64.ofNat (leNat (← take 8))

/-- A length and that many bytes of UTF-8. -/
def text : Reader Text := do
  let bytes ← take (← u16).toNat
  guard (validUtf8 bytes)
  return bytes

def bytes : Reader (List UInt8) := do take (← u32).toNat

/-- Every byte was read. -/
def finish : Reader Unit := fun buf => if buf.isEmpty then some ((), buf) else none

/-- A field framed by a length before it, which it fills. -/
def framed {α : Type} (field : Reader α) : Reader α := do
  let inner ← take (← u16).toNat
  let (value, rest) ← field inner
  guard rest.isEmpty
  return value

def qid : Reader Qid := do return { kind := ← u8, version := ← u32, path := ← u64 }

/-- A stat whose leading size covers exactly its fields. -/
def entry : Reader Stat := framed do
  return {
    kind := ← u16, dev := ← u32, qid := ← qid, mode := ← u32, atime :=
      ← u32, mtime := ← u32
    length := ← u64, name := ← text, uid := ← text, gid := ← text, muid := ← text }

/-- As a message's field: once more behind its length. -/
def stat : Reader Stat := framed entry

def times {α : Type} (field : Reader α) : ℕ → Reader (List α)
  | 0 => return []
  | n + 1 => do return (← field) :: (← times field n)

/-- A count and that many fields, no more than a walk may have. -/
def elements {α : Type} (field : Reader α) : Reader (List α) := do
  let n := (← u16).toNat
  guard (n ≤ maxWElem)
  times field n

/-- The fields of a message's type, in the table's order. -/
def body (kind : UInt8) : Reader Body :=
  match kind.toNat with
  | 100 => do return .tversion (← u32) (← text)
  | 101 => do return .rversion (← u32) (← text)
  | 102 => do return .tauth (← u32) (← text) (← text)
  | 103 => do return .rauth (← qid)
  | 104 => do return .tattach (← u32) (← u32) (← text) (← text)
  | 105 => do return .rattach (← qid)
  | 107 => do return .rerror (← text)
  | 108 => do return .tflush (← u16)
  | 109 => return .rflush
  | 110 => do return .twalk (← u32) (← u32) (← elements text)
  | 111 => do return .rwalk (← elements qid)
  | 112 => do return .topen (← u32) (← u8)
  | 113 => do return .ropen (← qid) (← u32)
  | 114 => do return .tcreate (← u32) (← text) (← u32) (← u8)
  | 115 => do return .rcreate (← qid) (← u32)
  | 116 => do return .tread (← u32) (← u64) (← u32)
  | 117 => do return .rread (← bytes)
  | 118 => do return .twrite (← u32) (← u64) (← bytes)
  | 119 => do return .rwrite (← u32)
  | 120 => do return .tclunk (← u32)
  | 121 => return .rclunk
  | 122 => do return .tremove (← u32)
  | 123 => return .rremove
  | 124 => do return .tstat (← u32)
  | 125 => do return .rstat (← stat)
  | 126 => do return .twstat (← u32) (← stat)
  | 127 => return .rwstat
  | _ => failure

end Reader

/-- The size of the message at the front of bytes, from its size field. -/
def messageSize (buf : List UInt8) : Option ℕ := do
  let (size, _) ← Reader.u32 buf
  guard (headerSize ≤ size.toNat ∧ size.toNat ≤ msize)
  guard (size.toNat ≤ buf.length)
  return size.toNat

theorem of_guard {p : Prop} [Decidable p] {u : Unit}
    (hguard : (guard p : Option Unit) = some u) : p := by
  by_contra hp
  rw [guard, if_neg hp] at hguard
  exact nomatch hguard

theorem messageSize_bounds {buf : List UInt8} {size : ℕ}
    (hsize : messageSize buf = some size) :
    headerSize ≤ size ∧ size ≤ buf.length := by
  obtain ⟨⟨size', rest⟩, -, hsize⟩ := Option.bind_eq_some_iff.mp hsize
  obtain ⟨_, hbounds, hsize⟩ := Option.bind_eq_some_iff.mp hsize
  obtain ⟨_, hle, hsize⟩ := Option.bind_eq_some_iff.mp hsize
  cases hsize
  exact ⟨(of_guard hbounds).1, of_guard hle⟩

/-- The message at the front of bytes. -/
def Message.decode (buf : List UInt8) : Option Message := do
  let size ← messageSize buf
  let (message, _) ← (do
    let kind ← Reader.u8
    let tag ← Reader.u16
    let body ← Reader.body kind
    Reader.finish
    return { tag := tag, body := body } : Reader Message) ((buf.take size).drop 4)
  return message

/-- The tag of the message at the front of bytes, if its header is there. -/
def tagOf (buf : List UInt8) : Option UInt16 :=
  if headerSize ≤ buf.length then some (UInt16.ofNat (leNat ((buf.drop 5).take 2)))
    else none

/-! ### Writing -/

namespace Writer

def u16 (v : UInt16) : List UInt8 := leBytes 2 v.toNat

def u32 (v : UInt32) : List UInt8 := leBytes 4 v.toNat

def u64 (v : UInt64) : List UInt8 := leBytes 8 v.toNat

/-- Behind its length, if two bytes can say it. -/
def framed (inner : List UInt8) : Option (List UInt8) :=
  if inner.length < 2 ^ 16 then some (leBytes 2 inner.length ++ inner) else none

def text (t : Text) : Option (List UInt8) := framed t

def bytes (data : List UInt8) : Option (List UInt8) :=
  if data.length < 2 ^ 32 then some (leBytes 4 data.length ++ data) else none

def qid (q : Qid) : List UInt8 := q.kind :: u32 q.version ++ u64 q.path

def entry (s : Stat) : Option (List UInt8) := do
  framed (u16 s.kind ++ u32 s.dev ++ qid s.qid ++ u32 s.mode ++ u32 s.atime ++
    u32 s.mtime ++
    u64 s.length ++ (← text s.name) ++ (← text s.uid) ++ (← text s.gid) ++
    (← text s.muid))

def stat (s : Stat) : Option (List UInt8) := do framed (← entry s)

/-- A count and the fields. -/
def elements (fields : List (List UInt8)) : Option (List UInt8) :=
  if fields.length ≤ maxWElem then some (leBytes 2 fields.length ++ fields.flatten)
    else none

end Writer

open Writer in
/-- A message's type and its fields. -/
def Body.fields : Body → UInt8 × Option (List UInt8)
  | .tversion size version => (100, do return u32 size ++ (← text version))
  | .rversion size version => (101, do return u32 size ++ (← text version))
  | .tauth afid uname aname =>
    (102, do return u32 afid ++ (← text uname) ++ (← text aname))
  | .rauth aqid => (103, qid aqid)
  | .tattach fid afid uname aname =>
    (104, do return u32 fid ++ u32 afid ++ (← text uname) ++ (← text aname))
  | .rattach q => (105, qid q)
  | .rerror ename => (107, text ename)
  | .tflush oldtag => (108, u16 oldtag)
  | .rflush => (109, some [])
  | .twalk fid newfid wnames =>
    (110, do return u32 fid ++ u32 newfid ++ (← elements (← wnames.mapM text)))
  | .rwalk qids => (111, elements (qids.map qid))
  | .topen fid mode => (112, u32 fid ++ [mode])
  | .ropen q iounit => (113, qid q ++ u32 iounit)
  | .tcreate fid name perm mode =>
    (114, do return u32 fid ++ (← text name) ++ u32 perm ++ [mode])
  | .rcreate q iounit => (115, qid q ++ u32 iounit)
  | .tread fid offset count => (116, u32 fid ++ u64 offset ++ u32 count)
  | .rread data => (117, bytes data)
  | .twrite fid offset data => (118, do return u32 fid ++ u64 offset ++ (← bytes data))
  | .rwrite count => (119, u32 count)
  | .tclunk fid => (120, u32 fid)
  | .rclunk => (121, some [])
  | .tremove fid => (122, u32 fid)
  | .rremove => (123, some [])
  | .tstat fid => (124, u32 fid)
  | .rstat s => (125, stat s)
  | .twstat fid s => (126, do return u32 fid ++ (← stat s))
  | .rwstat => (127, some [])

/-- A message's bytes, if they fit `room` and the largest message. -/
def Message.encode (m : Message) (room : ℕ) : Option (List UInt8) := do
  let fields ← m.body.fields.2
  let size := headerSize + fields.length
  guard (size ≤ room ∧ size ≤ msize)
  return leBytes 4 size ++ m.body.fields.1 :: Writer.u16 m.tag ++ fields

end Redoubt.Ninep
