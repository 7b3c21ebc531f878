import Mathlib

/-!
# Integer arithmetic of the VM

`userland/otp/vm/src/bif/arith.rs`: integers are `i64` until an operation overflows,
then bignums, which the bignum library computes exactly.  Every operator returns the
exact result in its one representation, whichever path computes it.  The cap on bignums
is checked on the operands of `+`, `-` and `*`, on the result of the others.
-/

namespace Redoubt.Otp.Arith

open Option

variable {F : Type}

/-- Largest integer, in bits, any operation may produce. -/
def maxBigBits : ℕ := 2 ^ 24

/-- The bits of a bignum's magnitude. -/
def bits (v : ℤ) : ℕ := v.natAbs.size

/-- Whether an integer is an `i64`. -/
def Fits (v : ℤ) : Prop := -2 ^ 63 ≤ v ∧ v < 2 ^ 63
deriving Decidable

/-- A term; `other` is one that is no number. -/
inductive Term (F : Type) where
  | int (i : BitVec 64)
  | big (v : ℤ)
  | float (f : F)
  | other

inductive Exception where
  | badarith
  | systemLimit
deriving DecidableEq

abbrev R := Except Exception

/-- What the operators ask of floats. -/
structure Floats (F : Type) where
  ofInt : ℤ → Option F
  isFinite : F → Bool
  add : F → F → F
  sub : F → F → F
  mul : F → F → F
  neg : F → F

/-- An integer's one representation on a heap. -/
def heapBig (v : ℤ) : Term F := if Fits v then .int (BitVec.ofInt 64 v) else .big v

inductive Num (F : Type) where
  | i (v : ℤ)
  | f (f : F)

def num : Term F → R (Num F)
  | .int i => .ok (.i i.toInt)
  | .big v => .ok (.i v)
  | .float f => .ok (.f f)
  | .other => .error .badarith

def toF64 (fl : Floats F) : Num F → R F
  | .f f => .ok f
  | .i v => ((fl.ofInt v).filter fl.isFinite).elim (.error .badarith) .ok

def mkFloat (fl : Floats F) (f : F) : R (Term F) :=
  if fl.isFinite f then .ok (.float f) else .error .badarith

def big (v : ℤ) : R (Term F) := if bits v > maxBigBits then .error .systemLimit
    else .ok (heapBig v)

/-- Two operands the fast paths take. -/
def smalls : Term F → Term F → Option (BitVec 64 × BitVec 64)
  | .int x, .int y => some (x, y)
  | _, _ => none

/-- The checked operations of an `i64`. -/
def checkedAdd (x y : BitVec 64) : Option (BitVec 64) :=
  if x.saddOverflow y then none else some (x + y)

def checkedSub (x y : BitVec 64) : Option (BitVec 64) :=
  if x.ssubOverflow y then none else some (x - y)

def checkedMul (x y : BitVec 64) : Option (BitVec 64) :=
  if x.smulOverflow y then none else some (x * y)

def checkedNeg (x : BitVec 64) : Option (BitVec 64) :=
  if x.negOverflow then none else some (-x)

def checkedDiv (x y : BitVec 64) : Option (BitVec 64) :=
  if y = 0 ∨ x = BitVec.intMin 64 ∧ y = -1 then none else some (x.sdiv y)

def checkedRem (x y : BitVec 64) : Option (BitVec 64) :=
  if y = 0 ∨ x = BitVec.intMin 64 ∧ y = -1 then none else some (x.srem y)

/-- Shared shape of `+`, `-`, `*`: an `i64` fast path, else bignum or float. -/
def arith (fl : Floats F) (a b : Term F)
    (small : BitVec 64 → BitVec 64 → Option (BitVec 64))
    (bigop : ℤ → ℤ → ℤ) (fop : F → F → F) : R (Term F) :=
  match (smalls a b).bind fun s => small s.1 s.2 with
  | some r => .ok (.int r)
  | none => do
      match ← num a, ← num b with
      | .i x, .i y =>
        if bits x + bits y > maxBigBits then .error .systemLimit else big (bigop x y)
      | x, y => mkFloat fl (fop (← toF64 fl x) (← toF64 fl y))

def add (fl : Floats F) (a b : Term F) : R (Term F) :=
  arith fl a b checkedAdd (· + ·) fl.add

def sub (fl : Floats F) (a b : Term F) : R (Term F) :=
  arith fl a b checkedSub (· - ·) fl.sub

def mul (fl : Floats F) (a b : Term F) : R (Term F) :=
  arith fl a b checkedMul (· * ·) fl.mul

/-- The value of an integer, however large. -/
def asBigint : Term F → Option ℤ
  | .int i => some i.toInt
  | .big v => some v
  | _ => none

def ints (a b : Term F) : R (ℤ × ℤ) :=
  match asBigint a, asBigint b with
  | some x, some y => .ok (x, y)
  | _, _ => .error .badarith

def idiv (a b : Term F) : R (Term F) :=
  if (smalls a b).any fun s => s.2 = 0 then .error .badarith
  else
    match (smalls a b).bind fun s => checkedDiv s.1 s.2 with
    | some r => .ok (.int r)
    | none => do
        let (x, y) ← ints a b
        if y = 0 then .error .badarith else big (x.tdiv y)

def rem (a b : Term F) : R (Term F) :=
  match smalls a b with
  | some (x, y) =>
    if y = 0 then .error .badarith else .ok (.int ((checkedRem x y).getD 0))
  | none => do
      let (x, y) ← ints a b
      if y = 0 then .error .badarith else big (x.tmod y)

def neg (fl : Floats F) : Term F → R (Term F)
  | .int i => .ok (((checkedNeg i).map .int).getD (heapBig (-i.toInt)))
  | .big v => .ok (heapBig (-v))
  | .float f => .ok (.float (fl.neg f))
  | .other => .error .badarith

def bitwise (a b : Term F) (small : BitVec 64 → BitVec 64 → BitVec 64)
    (bigop : ℤ → ℤ → ℤ) : R (Term F) :=
  match smalls a b with
  | some (x, y) => .ok (.int (small x y))
  | none => do
      let (x, y) ← ints a b
      big (bigop x y)

def band (a b : Term F) : R (Term F) := bitwise a b (· &&& ·) Int.land

def bor (a b : Term F) : R (Term F) := bitwise a b (· ||| ·) Int.lor

def bxor (a b : Term F) : R (Term F) := bitwise a b (· ^^^ ·) Int.xor

def bnot : Term F → R (Term F)
  | .int i => .ok (.int (~~~i))
  | .big v => .ok (heapBig (-v - 1))
  | _ => .error .badarith

/-- `X bsl N` on small integers, if the result fits in an `i64`. -/
def shiftSmall (x n : BitVec 64) (left : Bool) : Option (BitVec 64) :=
  (if left then some n else checkedNeg n).bind fun n =>
    if 0 ≤ n.toInt then
      -- shifting left is safe while no significant bit (or the sign) is shifted out
      if n.toInt < 64 ∧ (x <<< n.toInt.toNat).sshiftRight n.toInt.toNat = x then
        some (x <<< n.toInt.toNat)
      else none
    else some (x.sshiftRight (min n.toInt.natAbs 63))

/-- What an arithmetic shift leaves once everything is shifted out. -/
def shiftedOut (x : ℤ) : Term F := .int (if x < 0 then -1 else 0)

/-- `X bsl N`; a negative `N` shifts right. -/
def shift (x n : Term F) (left : Bool) : R (Term F) :=
  match (smalls x n).bind fun s => shiftSmall s.1 s.2 left with
  | some r => .ok (.int r)
  | none => do
      let (x, n) ← ints x n
      let n := if left then n else -n
      if x = 0 then .ok (.int 0)
      else if Fits n then
        if 0 ≤ n then
          if min (bits x + n.toNat) (2 ^ 64 - 1) > maxBigBits then .error .systemLimit
          else big (x * 2 ^ n.toNat)
        else if n.natAbs ≥ bits x then .ok (shiftedOut x) else big (x >>> n.natAbs)
      else if n < 0 then .ok (shiftedOut x)
      else .error .systemLimit

def bsl (a b : Term F) : R (Term F) := shift a b true

def bsr (a b : Term F) : R (Term F) := shift a b false

/-! ### Representations -/

theorem fits_toInt (x : BitVec 64) : Fits x.toInt := ⟨x.le_toInt, x.toInt_lt⟩

theorem toInt_of_fits {v : ℤ} (h : Fits v) : (BitVec.ofInt 64 v).toInt = v :=
  BitVec.toInt_ofInt_eq_self (by decide) h.1 h.2

theorem int_eq_heapBig {x : BitVec 64} {v : ℤ} (h : x.toInt = v) :
    (.int x : Term F) = heapBig v := by
  rw [← h, heapBig, if_pos (fits_toInt x), BitVec.ofInt_toInt]

theorem asBigint_heapBig (v : ℤ) : asBigint (heapBig v : Term F) = some v := by
  rw [heapBig]
  split_ifs with h
  · rw [asBigint, toInt_of_fits h]
  · rfl

theorem num_heapBig (v : ℤ) : num (heapBig v : Term F) = .ok (.i v) := by
  rw [heapBig]
  split_ifs with h
  · rw [num, toInt_of_fits h]
  · rfl

theorem ints_heapBig (a b : ℤ) :
    ints (heapBig a : Term F) (heapBig b) = .ok (a, b) := by
  rw [ints, asBigint_heapBig, asBigint_heapBig]

/-- A fast path is taken with the operands' own values, or not at all. -/
theorem smalls_heapBig (a b : ℤ) : (∃ x y : BitVec 64, x.toInt = a ∧ y.toInt = b ∧
      smalls (heapBig a : Term F) (heapBig b) = some (x, y)) ∨
    smalls (heapBig a : Term F) (heapBig b) = none := by
  by_cases ha : Fits a
  · by_cases hb : Fits b
    · left
      refine ⟨_, _, toInt_of_fits ha, toInt_of_fits hb, ?_⟩
      rw [heapBig, heapBig, if_pos ha, if_pos hb, smalls]
    · right
      rw [heapBig, heapBig, if_neg hb]
      cases (if Fits a then .int (BitVec.ofInt 64 a) else .big a : Term F) <;> rfl
  · right
    rw [heapBig, if_neg ha]
    rfl

/-! ### Bits -/

theorem bits_le {v : ℤ} {n : ℕ} : bits v ≤ n ↔ v.natAbs < 2 ^ n := Nat.size_le

theorem bits_toInt (x : BitVec 64) : bits x.toInt ≤ 64 := by
  rw [bits_le]
  have hx := fits_toInt x
  rw [Fits] at hx
  omega

theorem bits_add_le {a b c : ℤ} (hc : c.natAbs ≤ a.natAbs + b.natAbs) :
    bits c ≤ bits a + bits b := by
  rw [bits_le, pow_add]
  have ha : a.natAbs + 1 ≤ 2 ^ bits a := bits_le.mp le_rfl
  have hb : b.natAbs + 1 ≤ 2 ^ bits b := bits_le.mp le_rfl
  calc c.natAbs < a.natAbs * b.natAbs + a.natAbs + b.natAbs + 1 := by omega
    _ = (a.natAbs + 1) * (b.natAbs + 1) := by ring
    _ ≤ 2 ^ bits a * 2 ^ bits b := Nat.mul_le_mul ha hb

theorem bits_mul_le (a b : ℤ) : bits (a * b) ≤ bits a + bits b := by
  rw [bits_le, pow_add, Int.natAbs_mul]
  exact Nat.mul_lt_mul'' (bits_le.mp le_rfl) (bits_le.mp le_rfl)

theorem bits_mono {a b : ℤ} (h : a.natAbs ≤ b.natAbs) : bits a ≤ bits b :=
  Nat.size_le_size h

theorem bits_mul_pow {a : ℤ} (ha : a ≠ 0) (n : ℕ) : bits (a * 2 ^ n) = bits a + n := by
  rw [bits, Int.natAbs_mul]
  change (a.natAbs * 2 ^ n).size = _
  rw [← Nat.shiftLeft_eq, Nat.size_shiftLeft (Int.natAbs_ne_zero.mpr ha), bits]

theorem big_of_le {v : ℤ} (h : bits v ≤ maxBigBits) :
    (big v : R (Term F)) = .ok (heapBig v) :=
  if_neg (not_lt.mpr h)

/-- Dividing rounds down to what is left once all bits are shifted out. -/
theorem div_pow_of_bits_le {a : ℤ} {n : ℕ} (h : bits a ≤ n) :
    a / 2 ^ n = if a < 0 then -1 else 0 := by
  have hlt : (a.natAbs : ℤ) < 2 ^ n := by exact_mod_cast bits_le.mp h
  split_ifs with ha
  · exact Int.ediv_eq_neg_one_of_neg_of_le (by omega) (by omega)
  · exact Int.ediv_eq_zero_of_lt (by omega) (by omega)

/-! ### The operators -/

/-- `a` shifted left by `n`, or right, rounding down, by `-n`. -/
def shifted (a n : ℤ) : ℤ := if 0 ≤ n then a * 2 ^ n.toNat else a / 2 ^ n.natAbs

variable {fl : Floats F} {a b : ℤ}

/-- A fast path that answers with the exact result is the bignum path. -/
theorem arith_heapBig {small : BitVec 64 → BitVec 64 → Option (BitVec 64)}
    {bigop : ℤ → ℤ → ℤ}
    {fop : F → F → F}
    (hsmall : ∀ x y r, small x y = some r → r.toInt = bigop x.toInt y.toInt)
    (hbits : bits (bigop a b) ≤ bits a + bits b) :
    arith fl (heapBig a) (heapBig b) small bigop fop =
      if bits a + bits b > maxBigBits then .error .systemLimit
      else .ok (heapBig (bigop a b)) := by
  have hslow :
      (if bits a + bits b > maxBigBits then .error .systemLimit else big (bigop a b) :
      R (Term F)) =
        if bits a + bits b > maxBigBits then .error .systemLimit
          else .ok (heapBig (bigop a b)) := by
    split_ifs with h
    · rfl
    · exact big_of_le (hbits.trans (not_lt.mp h))
  rw [arith, num_heapBig, num_heapBig]
  rcases smalls_heapBig (F := F) a b with ⟨x, y, rfl, rfl, hpair⟩ | hnone
  · rw [hpair, bind_some]
    cases hr : small x y with
    | none => exact hslow
    | some r =>
      have hx := bits_toInt x
      have hy := bits_toInt y
      rw [if_neg (by rw [maxBigBits]; omega)]
      exact congrArg _ (int_eq_heapBig (hsmall x y r hr))
  · rw [hnone]
    exact hslow

theorem add_heapBig : add fl (heapBig a) (heapBig b) =
    if bits a + bits b > maxBigBits then .error .systemLimit
      else .ok (heapBig (a + b)) := by
  apply arith_heapBig _ (bits_add_le (Int.natAbs_add_le a b))
  intro x y r hr
  obtain ⟨hfree, ⟨⟩⟩ := ite_none_left_eq_some.mp hr
  exact BitVec.toInt_add_of_not_saddOverflow hfree

theorem sub_heapBig : sub fl (heapBig a) (heapBig b) =
    if bits a + bits b > maxBigBits then .error .systemLimit
      else .ok (heapBig (a - b)) := by
  apply arith_heapBig _ (bits_add_le (Int.natAbs_sub_le a b))
  intro x y r hr
  obtain ⟨hfree, ⟨⟩⟩ := ite_none_left_eq_some.mp hr
  exact BitVec.toInt_sub_of_not_ssubOverflow hfree

theorem mul_heapBig : mul fl (heapBig a) (heapBig b) =
    if bits a + bits b > maxBigBits then .error .systemLimit
      else .ok (heapBig (a * b)) := by
  apply arith_heapBig _ (bits_mul_le a b)
  intro x y r hr
  obtain ⟨hfree, ⟨⟩⟩ := ite_none_left_eq_some.mp hr
  exact BitVec.toInt_mul_of_not_smulOverflow hfree

/-- A small integer is far below the cap. -/
theorem ok_int_eq_big {x : BitVec 64} {v : ℤ} (h : x.toInt = v) :
    (.ok (.int x) : R (Term F)) = big v := by
  rw [int_eq_heapBig h, big_of_le]
  have hx := bits_toInt x
  rw [h] at hx
  exact hx.trans (by decide)

theorem toInt_eq_zero {x : BitVec 64} : x.toInt = 0 ↔ x = 0 := by
  rw [← BitVec.toInt_inj]
  rfl

theorem idiv_heapBig : (idiv (heapBig a) (heapBig b) : R (Term F)) =
    if b = 0 then .error .badarith else big (a.tdiv b) := by
  rw [idiv, ints_heapBig]
  rcases smalls_heapBig (F := F) a b with ⟨x, y, rfl, rfl, hpair⟩ | hnone
  · simp only [hpair, bind_some, any_some, toInt_eq_zero, decide_eq_true_eq]
    split_ifs with hy
    · rfl
    · cases hr : checkedDiv x y with
      | none => exact if_neg (mt toInt_eq_zero.mp hy)
      | some r =>
        obtain ⟨hfree, ⟨⟩⟩ := ite_none_left_eq_some.mp hr
        rw [not_or, not_and_or] at hfree
        exact ok_int_eq_big (BitVec.toInt_sdiv_of_ne_or_ne x y hfree.2)
  · rw [hnone]
    rfl

theorem rem_heapBig : (rem (heapBig a) (heapBig b) : R (Term F)) =
    if b = 0 then .error .badarith else big (a.tmod b) := by
  rw [rem, ints_heapBig]
  rcases smalls_heapBig (F := F) a b with ⟨x, y, rfl, rfl, hpair⟩ | hnone
  · simp only [hpair, toInt_eq_zero, checkedRem]
    split_ifs with hy hover
    · rfl
    · -- the one quotient that overflows leaves no remainder
      obtain ⟨rfl, rfl⟩ := hover.resolve_left hy
      exact ok_int_eq_big (by decide)
    · exact ok_int_eq_big (BitVec.toInt_srem x y)
  · rw [hnone]
    rfl

theorem neg_heapBig : neg fl (heapBig a) = .ok (heapBig (-a)) := by
  rw [heapBig]
  split_ifs with h
  · rw [neg, toInt_of_fits h]
    cases hr : checkedNeg (BitVec.ofInt 64 a) with
    | none => rfl
    | some r =>
      obtain ⟨hfree, ⟨⟩⟩ := ite_none_left_eq_some.mp hr
      apply congrArg Except.ok
      apply int_eq_heapBig
      rw [BitVec.toInt_neg_of_not_negOverflow hfree, toInt_of_fits h]
  · rfl

theorem bnot_heapBig : (bnot (heapBig a) : R (Term F)) = .ok (heapBig (-a - 1)) := by
  rw [heapBig]
  split_ifs with h
  · apply congrArg Except.ok
    apply int_eq_heapBig
    have hnot : ~~~BitVec.ofInt 64 a = BitVec.ofInt 64 (-a - 1) := by
      rw [BitVec.not_eq_neg_add, BitVec.sub_eq_add_neg, Int.sub_eq_add_neg,
        BitVec.ofInt_add,
        BitVec.ofInt_neg]
      rfl
    rw [hnot, toInt_of_fits]
    rw [Fits] at h ⊢
    omega
  · rfl

/-! ### Bitwise -/

theorem getLsbD_ofInt (v : ℤ) {i : ℕ} (hi : i < 64) :
    (BitVec.ofInt 64 v).getLsbD i = v.testBit i := by
  cases v with
  | ofNat m =>
    rw [Int.ofNat_eq_natCast, BitVec.ofInt_natCast, BitVec.getLsbD_ofNat,
      decide_eq_true hi]
    rfl
  | negSucc m =>
    rw [BitVec.ofInt_negSucc_eq_not_ofNat, BitVec.getLsbD_not, BitVec.getLsbD_ofNat,
      decide_eq_true hi]
    rfl

theorem lt_two_pow_iff {m w : ℕ} : m < 2 ^ w ↔ ∃ sign, ∀ k ≥ w, m.testBit k = sign := by
  constructor
  · intro h
    exact ⟨false, fun k hk => Nat.testBit_lt_two_pow
      (h.trans_le (Nat.pow_le_pow_right two_pos hk))⟩
  · rintro ⟨sign, hsign⟩
    -- far enough up there are no bits
    have hfar : m.testBit (max w m) = false :=
      Nat.testBit_lt_two_pow ((le_max_right w m).trans_lt Nat.lt_two_pow_self)
    apply Nat.lt_pow_two_of_testBit
    intro k hk
    rw [hsign k hk, ← hsign _ (le_max_left w m), hfar]

/-- An `i64` is an integer whose bits from its sign on are one. -/
theorem fits_iff {v : ℤ} : Fits v ↔ ∃ sign, ∀ k ≥ 63, v.testBit k = sign := by
  cases v with
  | ofNat m =>
    have hfits : Fits (.ofNat m) ↔ m < 2 ^ 63 := by
      rw [Fits, Int.ofNat_eq_natCast]
      omega
    exact hfits.trans lt_two_pow_iff
  | negSucc m =>
    have hfits : Fits (.negSucc m) ↔ m < 2 ^ 63 := by
      rw [Fits]
      omega
    rw [hfits, lt_two_pow_iff]
    simp [Int.testBit, or_comm]

/-- An operation on each bit is the same on `i64`s and on bignums. -/
theorem bitwise_heapBig {small : BitVec 64 → BitVec 64 → BitVec 64} {bigop : ℤ → ℤ → ℤ}
    {f : Bool → Bool → Bool} (hbig : Int.bitwise f = bigop)
    (hsmall : ∀ x y, ∀ i < 64, (small x y).getLsbD i = f (x.getLsbD i) (y.getLsbD i)) :
    (bitwise (heapBig a) (heapBig b) small bigop : R (Term F)) = big (bigop a b) := by
  rw [bitwise, ints_heapBig]
  rcases smalls_heapBig (F := F) a b with ⟨x, y, rfl, rfl, hpair⟩ | hnone
  · rw [hpair]
    apply ok_int_eq_big
    obtain ⟨left, hleft⟩ := fits_iff.mp (fits_toInt x)
    obtain ⟨right, hright⟩ := fits_iff.mp (fits_toInt y)
    have hfits : Fits (bigop x.toInt y.toInt) := by
      refine fits_iff.mpr ⟨f left right, fun k hk => ?_⟩
      rw [← hbig, Int.testBit_bitwise, hleft k hk, hright k hk]
    rw [← toInt_of_fits hfits]
    congr 1
    apply BitVec.eq_of_getLsbD_eq
    intro i hi
    rw [hsmall x y i hi, getLsbD_ofInt _ hi, ← hbig, Int.testBit_bitwise,
      ← getLsbD_ofInt _ hi,
      ← getLsbD_ofInt _ hi, BitVec.ofInt_toInt, BitVec.ofInt_toInt]
  · rw [hnone]
    rfl

/-! ### Shifts -/

theorem toInt_shiftLeft {x : BitVec 64} {n : ℕ} (hn : n < 64)
    (hback : (x <<< n).sshiftRight n = x) :
    (x <<< n).toInt = x.toInt * 2 ^ n := by
  have hdvd : (2 ^ n : ℤ) ∣ (x <<< n).toInt := by
    rw [BitVec.toInt_shiftLeft, Nat.shiftLeft_eq,
      eq_sub_of_add_eq (Int.bmod_add_bdiv _ (2 ^ 64))]
    apply dvd_sub
    · exact_mod_cast dvd_mul_left _ _
    · exact dvd_mul_of_dvd_left (by exact_mod_cast pow_dvd_pow 2 hn.le) _
  calc
    (x <<< n).toInt = (x <<< n).toInt / 2 ^ n * 2 ^ n :=
        (Int.ediv_mul_cancel hdvd).symm
    _ = ((x <<< n).sshiftRight n).toInt * 2 ^ n := by
        rw [BitVec.toInt_sshiftRight, Int.shiftRight_eq_div_pow]
        rfl
    _ = x.toInt * 2 ^ n := by rw [hback]

theorem toInt_sshiftRight (x : BitVec 64) (n : ℕ) :
    (x.sshiftRight (min n 63)).toInt = x.toInt / 2 ^ n := by
  rw [BitVec.toInt_sshiftRight, Int.shiftRight_eq_div_pow]
  push_cast
  rcases le_total n 63 with hn | hn
  · rw [min_eq_left hn]
  · have hx := fits_toInt x
    have hpow : (2 ^ 63 : ℤ) ≤ 2 ^ n := pow_le_pow_right₀ one_le_two hn
    rw [Fits] at hx
    rw [min_eq_right hn]
    rcases lt_or_ge x.toInt 0 with hneg | hpos
    · rw [Int.ediv_eq_neg_one_of_neg_of_le hneg (by omega),
        Int.ediv_eq_neg_one_of_neg_of_le hneg (by omega)]
    · rw [Int.ediv_eq_zero_of_lt hpos hx.2, Int.ediv_eq_zero_of_lt hpos (by omega)]

theorem toInt_shiftSmall {x n r : BitVec 64} {left : Bool}
    (h : shiftSmall x n left = some r) :
    r.toInt = shifted x.toInt (if left then n.toInt else -n.toInt) := by
  obtain ⟨m, hm, h⟩ := bind_eq_some_iff.mp h
  have hcount : m.toInt = if left then n.toInt else -n.toInt := by
    cases left with
    | true => rw [some.inj hm, if_pos rfl]
    | false =>
      obtain ⟨hfree, ⟨⟩⟩ := ite_none_left_eq_some.mp hm
      exact BitVec.toInt_neg_of_not_negOverflow hfree
  rw [← hcount, shifted]
  split_ifs at h ⊢ with hle hsafe
  · cases h
    exact toInt_shiftLeft (by omega) hsafe.2
  · cases h
    exact toInt_sshiftRight x _

theorem ok_shiftedOut {n : ℕ} (h : bits a ≤ n) :
    (.ok (shiftedOut a) : R (Term F)) = big (a / 2 ^ n) := by
  apply ok_int_eq_big
  rw [div_pow_of_bits_le h]
  split_ifs <;> rfl

theorem shift_heapBig {left : Bool} (ha : bits a ≤ maxBigBits) :
    (shift (heapBig a) (heapBig b) left : R (Term F)) =
    big (shifted a (if left then b else -b)) := by
  have hslow : ∀ n : ℤ, (if a = 0 then .ok (.int 0)
      else if Fits n then
        if 0 ≤ n then
          if min (bits a + n.toNat) (2 ^ 64 - 1) > maxBigBits then .error .systemLimit
          else big (a * 2 ^ n.toNat)
        else if n.natAbs ≥ bits a then .ok (shiftedOut a) else big (a >>> n.natAbs)
      else if n < 0 then .ok (shiftedOut a) else .error .systemLimit : R (Term F)) =
        big (shifted a n) := by
    intro n
    rw [shifted]
    by_cases hzero : a = 0
    · rw [hzero]
      exact ok_int_eq_big (by split_ifs <;> simp)
    by_cases hle : 0 ≤ n
    · simp only [if_neg (Int.not_lt.mpr hle)]
      have hbits := bits_mul_pow hzero n.toNat
      split_ifs with hfits hlimit
      · rw [big, if_pos (by omega)]
      · rfl
      · rw [big, if_pos]
        rw [Fits] at hfits
        rw [maxBigBits]
        omega
    · simp only [if_pos (Int.not_le.mp hle)]
      split_ifs with hfits hall
      · exact ok_shiftedOut hall
      · rw [Int.shiftRight_eq_div_pow]
        norm_cast
      · apply ok_shiftedOut
        rw [Fits] at hfits
        rw [maxBigBits] at ha
        omega
  rw [shift, ints_heapBig]
  rcases smalls_heapBig (F := F) a b with ⟨x, y, rfl, rfl, hpair⟩ | hnone
  · rw [hpair, bind_some]
    cases hr : shiftSmall x y left with
    | none => exact hslow _
    | some r => exact ok_int_eq_big (toInt_shiftSmall hr)
  · rw [hnone]
    exact hslow _

/-- The complement has no more bits, but for that of the largest integer of `n` bits. -/
theorem bits_complement_le {n : ℕ} (ha : bits a ≤ n) (hne : a ≠ 2 ^ n - 1) :
    bits (-a - 1) ≤ n := by
  rw [bits_le] at ha ⊢
  have hpow : (2 ^ n : ℤ) = (2 ^ n : ℕ) := by norm_cast
  rw [hpow] at hne
  generalize 2 ^ n = cap at ha hne ⊢
  omega

/-- The operators on two integers: the exact result in its one representation, or
`system_limit` for a result over the cap (`big`).  `+`, `-` and `*` refuse by their
operands' bits.  Nothing is said of `bnot` at the one integer within the cap whose
complement is not. -/
structure Exact (fl : Floats F) (a b : ℤ) : Prop where
  add : add fl (heapBig a) (heapBig b) =
    if bits a + bits b > maxBigBits then .error .systemLimit else .ok (heapBig (a + b))
  sub : sub fl (heapBig a) (heapBig b) =
    if bits a + bits b > maxBigBits then .error .systemLimit else .ok (heapBig (a - b))
  mul : mul fl (heapBig a) (heapBig b) =
    if bits a + bits b > maxBigBits then .error .systemLimit else .ok (heapBig (a * b))
  div : idiv (heapBig a : Term F) (heapBig b) =
    if b = 0 then .error .badarith else big (a.tdiv b)
  rem : rem (heapBig a : Term F) (heapBig b) =
    if b = 0 then .error .badarith else big (a.tmod b)
  neg : neg fl (heapBig a) = big (-a)
  band : band (heapBig a : Term F) (heapBig b) = big (a.land b)
  bor : bor (heapBig a : Term F) (heapBig b) = big (a.lor b)
  bxor : bxor (heapBig a : Term F) (heapBig b) = big (a.xor b)
  bnot : a ≠ 2 ^ maxBigBits - 1 → bnot (heapBig a : Term F) = big (-a - 1)
  bsl : bsl (heapBig a : Term F) (heapBig b) = big (shifted a b)
  bsr : bsr (heapBig a : Term F) (heapBig b) = big (shifted a (-b))
  capped : bits a + bits b ≤ maxBigBits → ∀ v ∈ [a + b, a - b, a * b],
    bits v ≤ maxBigBits

/-- On integers within the cap every operator is exact up to its limit. -/
theorem exact_of_bits_le (fl : Floats F) (a b : ℤ) (ha : bits a ≤ maxBigBits) :
    Exact fl a b where
  add := add_heapBig
  sub := sub_heapBig
  mul := mul_heapBig
  div := idiv_heapBig
  rem := rem_heapBig
  neg := neg_heapBig.trans (big_of_le ((bits_mono (Int.natAbs_neg a).le).trans ha)).symm
  band := bitwise_heapBig Int.bitwise_and fun _ _ _ _ => BitVec.getLsbD_and
  bor := bitwise_heapBig Int.bitwise_or fun _ _ _ _ => BitVec.getLsbD_or
  bxor := bitwise_heapBig Int.bitwise_xor fun _ _ _ _ => BitVec.getLsbD_xor
  bnot hne := bnot_heapBig.trans (big_of_le (bits_complement_le ha hne)).symm
  bsl := shift_heapBig ha
  bsr := shift_heapBig ha
  capped hsum v hv := by
    simp only [List.mem_cons, List.not_mem_nil, or_false] at hv
    refine le_trans ?_ hsum
    rcases hv with rfl | rfl | rfl
    · exact bits_add_le (Int.natAbs_add_le a b)
    · exact bits_add_le (Int.natAbs_sub_le a b)
    · exact bits_mul_le a b

/-- Floats that are never asked for. -/
def noFloats : Floats Unit where
  ofInt _ := none
  isFinite _ := false
  add _ _ := ()
  sub _ _ := ()
  mul _ _ := ()
  neg _ := ()

theorem exact_minimum_by_minus_one : Exact noFloats (-2 ^ 63) (-1) :=
  exact_of_bits_le noFloats (-2 ^ 63) (-1) (by decide)

theorem bits_two_pow (n : ℕ) : bits (2 ^ n) = n + 1 := by
  exact Nat.size_pow

/-- Two integers at the cap cancel, but their sum is refused; and the complement of the
largest integer is over the cap. -/
theorem cancelling_sum_refused : (bits (2 ^ (maxBigBits - 1)) = maxBigBits ∧
      add noFloats (heapBig (2 ^ (maxBigBits - 1))) (heapBig (-2 ^ (maxBigBits - 1))) =
        .error .systemLimit) ∧
    bits (2 ^ maxBigBits - 1) ≤ maxBigBits ∧
      bnot (heapBig (2 ^ maxBigBits - 1) : Term Unit) =
      .ok (heapBig (-2 ^ maxBigBits)) ∧
        maxBigBits < bits (-2 ^ maxBigBits) := by
  have hneg : ∀ n : ℕ, bits (-2 ^ n) = n + 1 := fun n =>
    (congrArg Nat.size (Int.natAbs_neg _)).trans (bits_two_pow n)
  have hcap : maxBigBits - 1 + 1 = maxBigBits := by decide
  have hlargest : ∀ n : ℕ, bits (2 ^ n - 1) ≤ n := by
    intro n
    have hpos : (1 : ℤ) ≤ 2 ^ n := one_le_pow₀ one_le_two
    rw [bits_le, ← Int.ofNat_lt, Int.natCast_natAbs, abs_of_nonneg (by omega)]
    push_cast
    omega
  refine ⟨⟨?_, ?_⟩, hlargest _, ?_, ?_⟩
  · rw [bits_two_pow, hcap]
  · rw [add_heapBig, bits_two_pow, hneg, if_pos (by decide)]
  · rw [bnot_heapBig, neg_sub, sub_sub_cancel_left]
  · rw [hneg]
    exact Nat.lt_succ_self _

end Redoubt.Otp.Arith
