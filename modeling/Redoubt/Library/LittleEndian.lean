import Mathlib

/-!
# Numbers as bytes

A number in a given count of bytes, the least first.
-/

namespace Redoubt.LittleEndian

def leBytes (n v : ℕ) : List UInt8 :=
  (List.range n).map fun k => UInt8.ofNat (v / 256 ^ k)

def leNat : List UInt8 → ℕ
  | [] => 0
  | byte :: rest => byte.toNat + 256 * leNat rest

@[simp] theorem length_leBytes (n v : ℕ) : (leBytes n v).length = n := by
  rw [leBytes, List.length_map, List.length_range]

theorem leBytes_succ (n v : ℕ) :
    leBytes (n + 1) v = UInt8.ofNat v :: leBytes n (v / 256) := by
  rw [leBytes, List.range_succ_eq_map, List.map_cons, List.map_map,
    pow_zero, Nat.div_one]
  congr 1
  apply List.map_congr_left
  intro k _
  rw [Function.comp, pow_succ', Nat.div_div_eq_div_mul]

theorem leNat_leBytes (n v : ℕ) (hv : v < 256 ^ n) : leNat (leBytes n v) = v := by
  induction n generalizing v with
  | zero =>
    rw [Nat.lt_one_iff.mp hv]
    rfl
  | succ n ih =>
    rw [leBytes_succ, leNat, ih (v / 256) (by rw [pow_succ] at hv; omega)]
    have hbyte : (UInt8.ofNat v).toNat = v % 256 := by simp
    omega

end Redoubt.LittleEndian
