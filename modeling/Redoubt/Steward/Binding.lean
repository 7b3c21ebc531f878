import Redoubt.Library.Delimited
import Redoubt.Library.LittleEndian

/-!
# The request binding

`libs/steward/src/hash.rs`: the bytes that a request's binding hash covers.  They are
written one field after another without a frame, and still name one request: every
field is self-delimiting.
-/

namespace Redoubt.Steward

open LittleEndian Encodings

/-- A vector: its length is a machine word. -/
abbrev Vec (α : Type) := { xs : List α // xs.length < 2 ^ 64 }

/-- A string, as its bytes. -/
abbrev Text := Vec UInt8

def maxLabels : ℕ := 16

/-- A label set: sorted, without repeats. -/
structure Labels where
  slice : List UInt64
  sorted : slice.Pairwise (· < ·)
  short : slice.length ≤ maxLabels

/-- A principal's account and one of its label sets. -/
structure Domain where
  account : { w : UInt64 // w ≠ 0 }
  labels : Labels

/-- What a request asks for, fixed at submission. -/
inductive Content where
  | note (what : Text)
  | agent (labels : Vec UInt64) (lease : UInt64)
  | declassify (labels : Vec UInt64) (item : UInt64)
  | push (source : UInt64) (target : Vec UInt64) (item : UInt64)

/-- A request, as far as its binding reads it. -/
structure Request where
  id : UInt64
  content : Content
  reason : Text
  snapshot : Option (Vec UInt8)

/-! ### What is hashed -/

/-- `redoubt.steward.request.v1` and a zero. -/
def domainSeparator : List UInt8 :=
  [114, 101, 100, 111, 117, 98, 116, 46, 115, 116, 101, 119, 97, 114, 100, 46, 114, 101,
    113, 117, 101, 115, 116, 46, 118, 49, 0]

def word (w : UInt64) : List UInt8 := leBytes 8 w.toNat

def length (n : Fin (2 ^ 64)) : List UInt8 := leBytes 8 n.val

def u64s (words : Vec UInt64) : List UInt8 :=
  length ⟨words.1.length, words.2⟩ ++ words.1.flatMap word

def bytes (b : Vec UInt8) : List UInt8 :=
  length ⟨b.1.length, b.2⟩ ++ b.1.flatMap fun byte => [byte]

def Labels.toVec (labels : Labels) : Vec UInt64 :=
  ⟨labels.slice, labels.short.trans_lt (by decide)⟩

namespace Content

def tag : Content → UInt8
  | note _ => 0
  | agent _ _ => 1
  | declassify _ _ => 2
  | push _ _ _ => 3

def fields : Content → List UInt8
  | note what => bytes what
  | agent labels lease => u64s labels ++ word lease
  | declassify labels item => u64s labels ++ word item
  | push source target item => word source ++ (u64s target ++ word item)

def encode (c : Content) : List UInt8 := c.tag :: c.fields

end Content

def snapshotBytes : Option (Vec UInt8) → List UInt8 := optional 0 1 bytes

/-- The bytes that the binding of request `r` of `domain` covers. -/
def bindingBytes (domain : Domain) (r : Request) : List UInt8 :=
  domainSeparator ++
    (word domain.account.1 ++ (u64s domain.labels.toVec ++ (word r.id ++
    (r.content.encode ++ (snapshotBytes r.snapshot ++ bytes r.reason)))))

/-- The hash of request `r` of `domain`, for the hash function `sha`. -/
def binding {Hash : Type} (sha : List UInt8 → Hash) (domain : Domain)
    (r : Request) : Hash :=
  sha (bindingBytes domain r)

/-! ### Every field is self-delimiting -/

theorem leBytes_injective {v v' : ℕ} (hv : v < 2 ^ 64) (hv' : v' < 2 ^ 64)
    (heq : leBytes 8 v = leBytes 8 v') : v = v' := by
  have hread := congrArg leNat heq
  rwa [leNat_leBytes 8 v hv, leNat_leBytes 8 v' hv'] at hread

theorem delimited_word : Delimited word := by
  refine delimited_of_length (fun w => length_leBytes 8 _) fun w w' heq => ?_
  exact UInt64.toNat_inj.mp (leBytes_injective w.toNat_lt w'.toNat_lt heq)

theorem delimited_length : Delimited length := by
  refine delimited_of_length (fun n => length_leBytes 8 _) fun n n' heq => ?_
  exact Fin.ext (leBytes_injective n.isLt n'.isLt heq)

theorem delimited_u64s : Delimited u64s := delimited_word.counted delimited_length

theorem delimited_bytes : Delimited bytes := by
  have hbyte : Delimited fun byte : UInt8 => [byte] :=
    delimited_of_length (fun _ => rfl) fun _ _ heq => (List.cons.inj heq).1
  exact hbyte.counted delimited_length

/-- The letter in front tells the kind, and each kind's fields are self-delimiting. -/
theorem delimited_content : Delimited Content.encode := by
  refine delimited_of_tag fun c c' rest rest' htag heq => ?_
  cases c <;> cases c' <;> try cases htag
  case note what what' =>
    obtain ⟨rfl, hrest⟩ := delimited_bytes what what' _ _ heq
    exact ⟨rfl, hrest⟩
  case agent labels lease labels' lease' | declassify labels lease labels' lease' =>
    obtain ⟨hsame, hrest⟩ :=
      delimited_u64s.pair delimited_word (labels, lease) (labels', lease') _ _ heq
    cases hsame
    exact ⟨rfl, hrest⟩
  case push source target item source' target' item' =>
    obtain ⟨hsame, hrest⟩ := delimited_word.pair (delimited_u64s.pair delimited_word)
      (source, target, item) (source', target', item') _ _ heq
    cases hsame
    exact ⟨rfl, hrest⟩

theorem delimited_snapshot : Delimited snapshotBytes :=
  delimited_bytes.optional (by decide)

/-- Equal bytes are of one domain and one request; so are equal hashes, if the two texts
are not a collision of the hash function. -/
theorem bindingBytes_eq_iff (d d' : Domain) (r r' : Request) :
    (bindingBytes d r = bindingBytes d' r' ↔ d.account = d'.account ∧
      d.labels = d'.labels ∧
      r.id = r'.id ∧ r.content = r'.content ∧ r.snapshot = r'.snapshot ∧
      r.reason = r'.reason) ∧
    ∀ (Hash : Type) (sha : List UInt8 → Hash),
      (sha (bindingBytes d r) = sha (bindingBytes d' r') →
        bindingBytes d r = bindingBytes d' r') →
      (binding sha d r = binding sha d' r' ↔ d = d' ∧ r = r') := by
  have hfields : bindingBytes d r = bindingBytes d' r' → d = d' ∧ r = r' := by
    intro heq
    have hall := delimited_word.pair (delimited_u64s.pair (delimited_word.pair
      (delimited_content.pair (delimited_snapshot.pair delimited_bytes))))
    have hsame : (d.account.1, d.labels.toVec, r.id, r.content, r.snapshot, r.reason) =
        (d'.account.1, d'.labels.toVec, r'.id, r'.content, r'.snapshot, r'.reason) :=
      hall.injective (List.append_cancel_left heq)
    simp only [Prod.mk.injEq] at hsame
    obtain ⟨haccount, hlabels, hid, hcontent, hsnapshot, hreason⟩ := hsame
    rcases d' with ⟨⟨account', _⟩, ⟨slice', _, _⟩⟩
    rcases r'
    cases haccount
    cases hlabels
    cases hid
    cases hcontent
    cases hsnapshot
    cases hreason
    exact ⟨rfl, rfl⟩
  refine ⟨⟨fun heq => ?_, ?_⟩, fun Hash sha hnone =>
    ⟨fun heq => hfields (hnone heq), ?_⟩⟩
  · obtain ⟨rfl, rfl⟩ := hfields heq
    exact ⟨rfl, rfl, rfl, rfl, rfl, rfl⟩
  · rintro ⟨haccount, hlabels, hid, hcontent, hsnapshot, hreason⟩
    rw [bindingBytes, haccount, hlabels, hid, hcontent, hsnapshot, hreason,
      bindingBytes]
  · rintro ⟨rfl, rfl⟩
    rfl

end Redoubt.Steward
