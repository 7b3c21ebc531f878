import Mathlib

/-!
# Parts of a list, read and written

The part of a list at an offset, and the list with a part written over.  What is written
is read back, and a part that does not overlap is as it was.
-/

namespace Redoubt.Slices

open List

variable {α : Type}

/-- `len` elements from `off` on. -/
def slice (l : List α) (off len : ℕ) : List α := (l.drop off).take len

/-- The list with `part` written over it at `off`. -/
def put (l : List α) (off : ℕ) (part : List α) : List α :=
  l.take off ++ part ++ l.drop (off + part.length)

variable {l part : List α} {off len at' len' k : ℕ}

theorem getElem?_slice (l : List α) (off len k : ℕ) :
    (slice l off len)[k]? = if k < len then l[off + k]? else none := by
  rw [slice, getElem?_take, getElem?_drop]

theorem getElem?_put (hfits : off + part.length ≤ l.length) (k : ℕ) :
    (put l off part)[k]? =
      if off ≤ k ∧ k < off + part.length then part[k - off]? else l[k]? := by
  have hoff : (l.take off).length = off := length_take_of_le (by omega)
  rw [put, append_assoc, getElem?_append, hoff]
  by_cases hbefore : k < off
  · rw [if_pos hbefore, if_neg (by omega), getElem?_take, if_pos hbefore]
  · rw [if_neg hbefore, getElem?_append]
    by_cases hin : k - off < part.length
    · rw [if_pos hin, if_pos (by omega)]
    · rw [if_neg hin, if_neg (by omega), getElem?_drop]
      congr 1
      omega

theorem length_slice (hfits : off + len ≤ l.length) :
    (slice l off len).length = len := by
  rw [slice, length_take, length_drop]
  omega

theorem length_put (hfits : off + part.length ≤ l.length) :
    (put l off part).length = l.length := by
  rw [put, length_append, length_append, length_take, length_drop]
  omega

theorem slice_put_self (hfits : off + part.length ≤ l.length) :
    slice (put l off part) off part.length = part := by
  ext1 k
  rw [getElem?_slice, getElem?_put hfits]
  by_cases hk : k < part.length
  · rw [if_pos hk, if_pos (by omega), Nat.add_sub_cancel_left]
  · rw [if_neg hk, getElem?_eq_none (by omega)]

theorem slice_put_of_disjoint (hfits : off + part.length ≤ l.length)
    (hdisjoint : at' + len ≤ off ∨ off + part.length ≤ at') :
    slice (put l off part) at' len = slice l at' len := by
  ext1 k
  rw [getElem?_slice, getElem?_slice, getElem?_put hfits]
  by_cases hk : k < len
  · rw [if_pos hk, if_pos hk, if_neg (by omega)]
  · rw [if_neg hk, if_neg hk]

/-- A part of a part. -/
theorem slice_slice (hfits : at' + len' ≤ len) :
    slice (slice l off len) at' len' = slice l (off + at') len' := by
  ext1 k
  rw [getElem?_slice, getElem?_slice, getElem?_slice, add_assoc]
  by_cases hk : k < len'
  · rw [if_pos hk, if_pos hk, if_pos (by omega)]
  · rw [if_neg hk, if_neg hk]

theorem slice_append_left (rest : List α) (hfits : off + len ≤ l.length) :
    slice (l ++ rest) off len = slice l off len := by
  ext1 k
  rw [getElem?_slice, getElem?_slice]
  by_cases hk : k < len
  · rw [if_pos hk, if_pos hk, getElem?_append_left (by omega)]
  · rw [if_neg hk, if_neg hk]

theorem slice_append_right (l rest : List α) (off len : ℕ) :
    slice (l ++ rest) (l.length + off) len = slice rest off len := by
  rw [slice, slice, drop_append, drop_eq_nil_of_le (by omega), nil_append,
    Nat.add_sub_cancel_left]

/-- A part of a list made of parts of one length. -/
theorem slice_flatten {l : List (List α)} {w i : ℕ} (hl : ∀ x ∈ l, x.length = w)
    (hi : i < l.length) : slice l.flatten (i * w) w = l[i] := by
  induction l generalizing i with
  | nil => exact absurd hi (Nat.not_lt_zero i)
  | cons x l ih =>
    have hx : x.length = w := hl x mem_cons_self
    rw [flatten_cons]
    cases i with
    | zero =>
      rw [zero_mul, slice_append_left _ (by omega), slice, drop_zero,
        take_of_length_le hx.le,
        getElem_cons_zero]
    | succ i =>
      rw [Nat.succ_mul, add_comm, ← hx, slice_append_right, hx, getElem_cons_succ]
      exact ih (fun y hy => hl y (mem_cons_of_mem x hy)) _

/-- Two parts side by side. -/
theorem slice_add (l : List α) (off m n : ℕ) :
    slice l off (m + n) = slice l off m ++ slice l (off + m) n := by
  rw [slice, slice, slice, take_add, drop_drop]

end Redoubt.Slices
