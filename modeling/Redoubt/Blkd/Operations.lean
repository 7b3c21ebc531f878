import Redoubt.Blkd.Server

/-!
# What an operation of the driver does

An operation only ages the region: a byte is as it was or was written since.  One that
succeeds says nothing; one that fails may have caught a lie or a timeout.
-/

namespace Redoubt.Blkd

open Actions Action LittleEndian Memory

/-- What concerns neither commands nor calls. -/
def Event.plain : Event → Bool
  | .given _ | .asked _ | .answered _ => false
  | _ => true

structure Aged (d d' : Disk) : Prop where
  time : d.time ≤ d'.time
  dma : ∀ o, d'.dma o = d.dma o ∨ d.time < (d'.dma o).stamp

structure Still (d d' : Disk) : Prop extends Aged d d' where
  log : d'.log = d.log
  nextAvail : d'.nextAvail = d.nextAvail
  nextUsed : d'.nextUsed = d.nextUsed
  readOnly : d'.readOnly = d.readOnly

/-- After a failure, which is none that an honest device is entitled to. -/
structure Spoilt (d : Disk) (stop : Stop DeviceError) (d' : Disk) : Prop where
  readOnly : d'.readOnly = d.readOnly
  log : ∃ events, d'.log = d.log ++ events ∧ ∀ e ∈ events, e.plain = true
  hard : ∀ e, stop = .failed e → e.allowed = false

theorem Aged.trans {d d' d'' : Disk} (h : Aged d d') (h' : Aged d' d'') :
    Aged d d'' := by
  refine ⟨le_trans h.time h'.time, fun o => ?_⟩
  rcases h'.dma o with hsame | hlater
  · rw [hsame]
    exact h.dma o
  · exact .inr (lt_of_le_of_lt h.time hlater)

theorem Still.refl (d : Disk) : Still d d :=
  ⟨⟨le_refl _, fun _ => .inl rfl⟩, rfl, rfl, rfl, rfl⟩

theorem Still.spoilt {d d' : Disk} {stop : Stop DeviceError} (h : Still d d')
    (hard : ∀ e, stop = .failed e → e.allowed = false) : Spoilt d stop d' :=
  ⟨h.readOnly, ⟨[], h.log.trans (List.append_nil _).symm,
    fun _ he => absurd he List.not_mem_nil⟩, hard⟩

def Op {α : Type} (x : Drive α) : Prop :=
  ∀ d, Meets (Still d) x (fun _ => Still d) (Spoilt d)

section Closure

variable {α β : Type} {x : Drive α}

theorem Op.bind {f : α → Drive β} (hx : Op x) (hf : ∀ a, Op (f a)) : Op (x >>= f) :=
  fun d => (hx d).bind fun a => hf a d

theorem Op.ite {p : Prop} [Decidable p] {y : Drive α} (hx : Op x) (hy : Op y) :
    Op (if p then x else y) :=
  fun d => .ite (fun _ => hx d) fun _ => hy d

def Disk.noted (d : Disk) (e : Event) : Disk := { d with log := d.log ++ [e] }

/-- What the driver caught, it says as it fails. -/
theorem caught_spec {d : Disk} {event : Event} {e : DeviceError}
    (hevent : event.plain = true) (he : e.allowed = false) :
    Meets (Still d) (note event >>= fun _ => raise e : Drive α) (fun _ _ => False)
      (Spoilt d) := by
  intro s hs
  refine ⟨hs.readOnly, ⟨[event], congrArg (· ++ [event]) hs.log, fun e' he' => ?_⟩,
    fun e' he' => ?_⟩
  · rw [List.mem_singleton.mp he', hevent]
  · cases he'
    exact he

end Closure

section Transport

variable {mach : Machine} {d : Disk}

theorem Still.interfered {s : Disk} (h : Still d s) (t : Turn) :
    Still d (s.interfered t) := by
  refine { h with time := Nat.le_succ_of_le h.time, dma := fun o => ?_ }
  dsimp only [Disk.interfered]
  split
  · exact .inr (Nat.lt_succ_of_le h.time)
  · exact h.dma o

variable {m : ℕ → UInt8}

/-- Descriptor `i` of a chain that ends before descriptor `count`. -/
structure Entry (mach : Machine) (m : ℕ → UInt8) (count i : ℕ)
    (g : Segment) : Prop where
  descriptor : descriptorAt m i = ⟨mach.phys + g.off, g.len, g.deviceWrites⟩
  more : flagsAt m i % 2 = 1 ↔ i + 1 ≠ count
  next : i + 1 ≠ count → numberIn m (descOff + i * 16 + 14) 2 = i + 1
  inside : g.off + g.len ≤ mach.dmaLen

variable {m' : ℕ → UInt8} {i count first stop : ℕ} {g : Segment}

theorem Entry.outside (h : Entry mach m count i g) (hsame : SameOutside first stop m m')
    (hapart : descOff + i * 16 + 16 ≤ first ∨ stop ≤ descOff + i * 16) :
    Entry mach m' count i g := by
  have haddr : numberIn m' (descOff + i * 16) 8 = _ := hsame.numberIn (by omega)
  have hlen : numberIn m' (descOff + i * 16 + 8) 4 = _ := hsame.numberIn (by omega)
  have hflags : flagsAt m' i = flagsAt m i := hsame.numberIn (by omega)
  have hnext : numberIn m' (descOff + i * 16 + 14) 2 = _ := hsame.numberIn (by omega)
  refine ⟨?_, hflags ▸ h.more, fun hne => hnext.trans (h.next hne), h.inside⟩
  rw [descriptorAt, haddr, hlen, hflags]
  exact h.descriptor

def Disk.offered (d : Disk) (c : Command) : Disk :=
  Disk.noted { d with nextAvail := (d.nextAvail + 1) % 2 ^ 16 } (.given c)

/-- The oldest command completed. -/
def Disk.finished (d : Disk) (len : ℕ) : Disk :=
  Disk.noted { d with nextUsed := (d.nextUsed + 1) % 2 ^ 16 }
    (.completed ((d.nextUsed + 1) % 2 ^ 16) head len)

end Transport

end Redoubt.Blkd
