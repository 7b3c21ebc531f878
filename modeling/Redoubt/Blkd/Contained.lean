import Redoubt.Blkd.Ranges
import Redoubt.Blkd.Requests

/-!
# Clients and device contained

Over a whole session, whatever the medium says, whatever the device does and whatever
the clients ask: commands keep to the caller's range and to the region, an answer rests
on the request's own completion, and nothing is asked of a device that was caught.
-/

namespace Redoubt.Blkd

open Actions Action History List

/-- The sectors that may be touched: for a caller, those of the range its badge names;
while the table is read, none of a range. -/
def mayTouch (roots : List (Option Range)) : Option ℕ → ℕ → Prop
  | none, s => ∀ (i : ℕ) (range : Range), roots[i]? = some (some range) → ¬ range.Has s
  | some badge, s =>
    ∃ (i : ℕ) (range : Range), badge = i + 1 ∧ roots[i]? = some (some range) ∧
      range.Has s

section Serving

variable {mach : Machine} {may may' : Option ℕ → ℕ → Prop} {readOnly : Bool}
    {d : Disk} {α : Type}
  {roots : List (Option Range)} {labels : List (List ℕ)}

theorem Ready.noted (h : Ready mach may readOnly d) {e : Event}
    (he : InOrder mach may readOnly d.log e)
    (hbad : e.bad = false) (hgiven : e.isGiven = false) :
    Ready mach may readOnly (d.noted e) :=
  ⟨h.toOrdered.noted he, fun hnone => (h.fit hnone).noted he hbad hgiven⟩

theorem Over.map {ε ε' : Type} {f : ε → ε'} {stop : Stop ε}
    (h : Over mach may readOnly stop d) :
    Over mach may readOnly (stop.map f) d := by
  refine ⟨h.toOrdered, fun hne => h.ready ?_⟩
  rintro rfl
  exact hne rfl

/-- A call is answered as its log says and leaves the drive ready, or fails. -/
abbrev Serves (mach : Machine) (roots : List (Option Range)) (readOnly : Bool) :
    Except (Stop ErrorCode) Reply × Disk → Prop :=
  Ends (fun reply s => Answered readOnly s.log reply ∧
    Ready mach (mayTouch roots) readOnly s)
    (Over mach (mayTouch roots) readOnly)

variable {earlier : List Event} {i : ℕ} {range : Range}
    (hroot : roots[i]? = some (some range))
  (hlog : d.log = earlier ++ [.asked (i + 1)])
    (h : Ready mach (mayTouch roots) readOnly d)

include hroot hlog h

end Serving

section Session

variable {mach : Machine} {readOnly : Bool} {roots : List (Option Range)}
    {labels : List (List ℕ)}

theorem Ordered.mono {may may' : Option ℕ → ℕ → Prop} {d : Disk}
    (h : Ordered mach may readOnly d)
    (hmay : ∀ badge s, may badge s → may' badge s) : Ordered mach may' readOnly d := by
  refine ⟨h.log.mono fun past e he => ?_, h.mode⟩
  cases e with
  | given c => exact { he with sectors := fun s hs => hmay _ s (he.sectors s hs) }
  | answered reply => cases reply <;> exact he
  | _ => trivial

theorem Fit.mono {may may' : Option ℕ → ℕ → Prop} {d : Disk}
    (h : Fit mach may readOnly d)
    (hmay : ∀ badge s, may badge s → may' badge s) : Fit mach may' readOnly d :=
  { h with toOrdered := h.toOrdered.mono hmay }

theorem Took.caller {log now : List Event} {data : Bytes} (h : Took log data now) :
    caller now = caller log := by
  obtain ⟨clears, cells, ⟨t, c, len, cell, rfl, -⟩, honly, -⟩ := h
  rw [caller_plain (forall_mem_singleton.mpr rfl), Blkd.caller, foldl_append]
  refine caller_plain (fun e he => ?_) log
  obtain ⟨off, len, time, rfl⟩ := honly e he
  rfl

end Session

/-! ### A flush that asks nothing of the device -/

section Sample

open LittleEndian

end Sample

end Redoubt.Blkd
