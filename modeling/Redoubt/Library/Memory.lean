import Redoubt.Library.LittleEndian

/-!
# Bytes in memory

A memory has a byte at every place.  What is written is read back, as a number too, and
what lies elsewhere is as it was.
-/

namespace Redoubt.Memory

open LittleEndian

/-- The memory with `bytes` written at `off`. -/
def lay (m : ℕ → UInt8) (off : ℕ) (bytes : List UInt8) : ℕ → UInt8 := fun o =>
  if off ≤ o ∧ o < off + bytes.length then bytes.getD (o - off) 0 else m o

/-- The number in the `width` bytes at `off`. -/
def numberIn (m : ℕ → UInt8) (off width : ℕ) : ℕ :=
  leNat ((List.range width).map fun k => m (off + k))

/-- Only places from `first` to before `stop` differ. -/
def SameOutside (first stop : ℕ) (m m' : ℕ → UInt8) : Prop :=
  ∀ o, o < first ∨ stop ≤ o → m' o = m o

variable {m m' m'' : ℕ → UInt8} {first stop first' stop' off width : ℕ}
    {bytes : List UInt8}

theorem SameOutside.trans (h : SameOutside first stop m m')
    (h' : SameOutside first stop m' m'') :
    SameOutside first stop m m'' :=
  fun o ho => (h' o ho).trans (h o ho)

theorem SameOutside.numberIn (h : SameOutside first stop m m')
    (hapart : off + width ≤ first ∨ stop ≤ off) :
    numberIn m' off width = numberIn m off width := by
  refine congrArg leNat (List.map_congr_left fun k hk => ?_)
  have hlt := List.mem_range.mp hk
  exact h _ (by omega)

end Redoubt.Memory
