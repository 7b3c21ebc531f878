import Redoubt.Blkd.Operations
import Redoubt.Library.Chronicle

/-!
# Requests to the device

What a command may be and what a success must rest on, judged event by event, and that
every request keeps to it.
-/

namespace Redoubt.Blkd

open Actions Action LittleEndian Memory History List Still

/-! ### The judgement -/

/-- A lie or a timeout was caught. -/
def Event.bad : Event → Bool
  | .lied _ | .timedOut => true
  | _ => false

/-- The sectors of a command's data: what lies between the header and the status
byte. -/
def Command.span (c : Command) : ℕ :=
  ((c.chain.tail.dropLast.map Descriptor.len).sum + (sectorSize - 1)) / sectorSize

def Command.Touches (c : Command) (s : ℕ) : Prop := c.sector ≤ s ∧ s < c.sector + c.span

/-- The badge of the call being served. -/
def caller (log : List Event) : Option ℕ :=
  log.foldl (fun badge e => match e with | .asked b => some b | _ => badge) none

def Event.isGiven : Event → Bool
  | .given _ => true
  | _ => false

def commands (log : List Event) : ℕ := log.countP Event.isGiven

/-- After `earlier` came one command of this kind, which completed with status OK: the
used ring counts it, and its status byte was written after it was armed. -/
def Completed (earlier : List Event) (kind : ℕ)
    (before after now : List Event) : Prop :=
  ∃ t c len cell, now = earlier ++ before ++
      [.armed t, .given c, .completed ((commands earlier + 1) % 2 ^ 16) head len,
        .status cell] ++ after ∧
    c.kind = kind ∧ cell.byte = 0 ∧ t < cell.stamp

/-- A byte of the data buffer that a clearing wrote, or that was written after it. -/
def Fresh (clears : List Event) (o : ℕ) (cell : Cell) : Prop :=
  ∃ off len time, .cleared off len time ∈ clears ∧ off ≤ o ∧ o < off + len ∧
    (cell = ⟨0, time⟩ ∨ time < cell.stamp)

/-- What an answer of success rests on. -/
def Answered (readOnly : Bool) (past : List Event) : Reply → Prop
  | .info _ _ _ => True
  | .read data => ∃ earlier badge clears cells,
      Completed (earlier ++ [.asked badge]) requestIn clears [.copied cells] past ∧
      (∀ e ∈ clears, ∃ off len time, e = .cleared off len time) ∧
      data = cells.map Cell.byte ∧
      ∀ k cell, cells[k]? = some cell → Fresh clears (dataOff + k) cell
  | .write =>
    ∃ earlier badge, Completed (earlier ++ [.asked badge]) requestOut [] [] past
  | .flush =>
    readOnly = false → ∃ earlier badge,
      Completed (earlier ++ [.asked badge]) requestFlush [] [] past

section Judged

variable (mach : Machine) (may : Option ℕ → ℕ → Prop) (readOnly : Bool)

structure Permitted (past : List Event) (c : Command) : Prop where
  one : c.index = (commands past + 1) % 2 ^ 16
  inside : ∀ x ∈ c.chain, mach.phys ≤ x.addr ∧ x.addr + x.len ≤ mach.phys + mach.dmaLen
  clean : ∀ e ∈ past, e.bad = false
  sectors : ∀ s, c.Touches s → may (caller past) s

def InOrder (past : List Event) : Event → Prop
  | .given c => Permitted mach may past c
  | .answered (.ok reply) => Answered readOnly past reply
  | _ => True

/-! ### What holds between operations -/

structure Ordered (d : Disk) : Prop where
  log : Chronicle (InOrder mach may readOnly) d.log
  mode : d.readOnly = readOnly

/-- A disk that may be given a command: nothing bad was caught, and both counters agree
with the commands given. -/
structure Fit (d : Disk) : Prop extends Ordered mach may readOnly d where
  clean : ∀ e ∈ d.log, e.bad = false
  nextAvail : d.nextAvail = commands d.log % 2 ^ 16
  nextUsed : d.nextUsed = commands d.log % 2 ^ 16

structure Ready (d : Disk) : Prop extends Ordered mach may readOnly d where
  fit : d.broke = none → Fit mach may readOnly d

/-- After a request that failed; one that waits is the last. -/
structure Over {ε : Type} (stop : Stop ε) (d : Disk) :
    Prop extends Ordered mach may readOnly d where
  ready : stop ≠ .waiting → Ready mach may readOnly d

/-- After `run` failed. -/
structure Failed (stop : Stop DeviceError) (d : Disk) :
    Prop extends Ordered mach may readOnly d where
  fit : ∀ e, stop = .failed e → e.allowed = true → Fit mach may readOnly d

/-- The first `len` bytes of the buffer have been cleared since `d`. -/
structure Cleared (d : Disk) (len : ℕ) (clears : List Event) (s : Disk) : Prop where
  log : s.log = d.log ++ clears
  only : ∀ e ∈ clears, ∃ off len time, e = .cleared off len time
  fresh : ∀ k < len, ∀ s', Aged s s' → Fresh clears (dataOff + k) (s'.dma (dataOff + k))
  fit : Fit mach may readOnly s

end Judged

section Requests

variable {mach : Machine} {may : Option ℕ → ℕ → Prop} {readOnly : Bool} {d d' : Disk}

variable {e : Event}

theorem inOrder_plain (he : e.plain = true) (past : List Event) :
    InOrder mach may readOnly past e := by
  cases e with
  | given c => exact nomatch he
  | answered reply => exact nomatch he
  | _ => trivial

theorem commands_snoc (log : List Event) (e : Event) :
    commands (log ++ [e]) = commands log + if e.isGiven = true then 1 else 0 := by
  rw [commands, countP_append, countP_singleton, commands]

theorem caller_plain {events : List Event} (hplain : ∀ e ∈ events, e.plain = true)
    (log : List Event) :
    caller (log ++ events) = caller log := by
  induction events generalizing log with
  | nil => rw [append_nil]
  | cons e events ih =>
    rw [append_cons, ih (fun e' he' => hplain e' (mem_cons_of_mem e he')), caller,
      foldl_append]
    cases e with
    | asked badge => exact nomatch hplain (.asked badge) mem_cons_self
    | _ => rfl

section

variable (h : Ordered mach may readOnly d)
include h

theorem Ordered.spoilt {stop : Stop DeviceError} (hs : Spoilt d stop d') :
    Ordered mach may readOnly d' := by
  obtain ⟨events, hlog, hplain⟩ := hs.log
  refine ⟨?_, hs.readOnly.trans h.mode⟩
  rw [hlog]
  exact h.log.extend fun e he => inOrder_plain (hplain e he)

theorem Ordered.failed {stop : Stop DeviceError} (hs : Spoilt d stop d') :
    Failed mach may readOnly stop d' :=
  ⟨h.spoilt hs, fun e he hallowed => nomatch (hs.hard e he).symm.trans hallowed⟩

theorem Ordered.still (hs : Still d d') : Ordered mach may readOnly d' :=
  ⟨hs.log ▸ h.log, hs.readOnly.trans h.mode⟩

theorem Ordered.noted (he : InOrder mach may readOnly d.log e) :
    Ordered mach may readOnly (d.noted e) :=
  ⟨h.log.snoc he, h.mode⟩

theorem Ordered.offered {c : Command} (hc : Permitted mach may d.log c) :
    Ordered mach may readOnly (d.offered c) :=
  (⟨h.log, h.mode⟩ : Ordered mach may readOnly
    { d with nextAvail := (d.nextAvail + 1) % 2 ^ 16 }).noted hc

theorem Ordered.finished (len : ℕ) : Ordered mach may readOnly (d.finished len) :=
  (⟨h.log, h.mode⟩ :
    Ordered mach may readOnly { d with nextUsed := (d.nextUsed + 1) % 2 ^ 16 }).noted
    (inOrder_plain rfl _)

end

section

variable (h : Fit mach may readOnly d)
include h

theorem Fit.still (hs : Still d d') : Fit mach may readOnly d' := by
  refine ⟨h.toOrdered.still hs, ?_, ?_, ?_⟩
  · rw [hs.log]
    exact h.clean
  · rw [hs.log, hs.nextAvail]
    exact h.nextAvail
  · rw [hs.log, hs.nextUsed]
    exact h.nextUsed

theorem Fit.noted (he : InOrder mach may readOnly d.log e)
    (hbad : e.bad = false) (hgiven : e.isGiven = false) :
    Fit mach may readOnly (d.noted e) := by
  have hcount : commands (d.noted e).log = commands d.log := by
    rw [Disk.noted, commands_snoc, hgiven]
    rfl
  refine ⟨h.toOrdered.noted he, ?_, ?_, ?_⟩
  · intro e' he'
    rcases mem_append.mp he' with hold | hnew
    · exact h.clean e' hold
    · rw [mem_singleton.mp hnew, hbad]
  · rw [hcount]
    exact h.nextAvail
  · rw [hcount]
    exact h.nextUsed

theorem Fit.ready : Ready mach may readOnly d := ⟨h.toOrdered, fun _ => h⟩

/-- Offered and completed, a command leaves the counters in step. -/
theorem Fit.finished {c : Command} (hc : Permitted mach may d.log c) (len : ℕ) :
    Fit mach may readOnly ((d.offered c).finished len) := by
  have hcount : commands ((d.offered c).finished len).log = commands d.log + 1 := by
    change commands (d.log ++ [.given c] ++ [.completed _ head len]) = _
    rw [commands_snoc, commands_snoc]
    rfl
  have hstep {n : ℕ} (hn : n = commands d.log % 2 ^ 16) :
      (n + 1) % 2 ^ 16 = (commands d.log + 1) % 2 ^ 16 := by
    rw [hn, Nat.mod_add_mod]
  refine ⟨(h.toOrdered.offered hc).finished len, ?_, ?_, ?_⟩
  · intro e he
    rcases mem_append.mp he with he | hdone
    · rcases mem_append.mp he with hold | hgiven
      · exact h.clean e hold
      · rw [mem_singleton.mp hgiven]
        rfl
    · rw [mem_singleton.mp hdone]
      rfl
  · rw [hcount]
    exact hstep h.nextAvail
  · rw [hcount]
    exact hstep h.nextUsed

/-! ### One request -/

end

variable {sector kind : ℕ}

/-- The end of `run`: the status byte was `0xff` when it was armed at `t`, and is read
at `s`. -/
theorem Fit.status {s : Disk} {t : ℕ} (h : Fit mach may readOnly d) (hs : Still d s)
    (htime : d.time = t)
    (hff : d.dma statusOff = ⟨0xff, t⟩) (done : Disk → Prop)
    (hdone : (s.dma statusOff).byte = 0 → t < (s.dma statusOff).stamp →
      Fit mach may readOnly (s.noted (.status (s.dma statusOff))) →
      done (s.noted (.status (s.dma statusOff)))) :
    Ends (fun _ => done) (Failed mach may readOnly)
      ((if (s.dma statusOff).byte = 0 then pure ()
        else if (s.dma statusOff).byte = 1 ∨ (s.dma statusOff).byte = 2 then
          raise .rejected
        else lie (.status (s.dma statusOff).byte) : Drive Unit)
          (s.noted (.status (s.dma statusOff)))) := by
  have hnoted : Fit mach may readOnly (s.noted (.status (s.dma statusOff))) :=
    (h.still hs).noted (inOrder_plain rfl _) rfl rfl
  by_cases hzero : (s.dma statusOff).byte = 0
  · rw [if_pos hzero]
    refine hdone hzero ?_ hnoted
    rcases hs.dma statusOff with hsame | hlater
    · rw [hsame, hff] at hzero
      exact nomatch hzero
    · exact htime ▸ hlater
  · rw [if_neg hzero]
    by_cases hrejected : (s.dma statusOff).byte = 1 ∨ (s.dma statusOff).byte = 2
    · rw [if_pos hrejected]
      exact ⟨hnoted.toOrdered, fun _ _ _ => hnoted⟩
    · rw [if_neg hrejected]
      exact hnoted.toOrdered.failed (caught_spec (α := Unit) rfl rfl _ (refl _))

variable {α : Type}

theorem Op.ordered {x : Drive α} (hx : Op x) :
    Meets (Ordered mach may readOnly) x (fun _ => Ordered mach may readOnly) fun _ =>
      Ordered mach may readOnly := by
  intro s hs
  have hend := hx s s (refl s)
  generalize x s = ended at hend ⊢
  rcases ended with ⟨stop | a, s'⟩
  · exact hs.spoilt hend
  · exact hs.still hend

theorem Fresh.mono {clears clears' : List Event} {o : ℕ} {cell : Cell}
    (h : Fresh clears o cell)
    (hsub : clears ⊆ clears') : Fresh clears' o cell := by
  obtain ⟨off, len, time, hmem, hspan⟩ := h
  exact ⟨off, len, time, hsub hmem, hspan⟩

variable {len : ℕ}

/-- One more sector cleared. -/
theorem Cleared.next {clears : List Event} {s s₁ : Disk}
    (h : Cleared mach may readOnly d len clears s)
    (hs : Still s s₁) (hzero : ∀ o, dataOff + len ≤ o → o < dataOff + len + sectorSize →
      s₁.dma o = ⟨0, s₁.time⟩) :
    Cleared mach may readOnly d (len + sectorSize)
      (clears ++ [.cleared (dataOff + len) sectorSize s₁.time])
      (s₁.noted (.cleared (dataOff + len) sectorSize s₁.time)) := by
  refine ⟨?_, ?_, ?_, (h.fit.still hs).noted (inOrder_plain rfl _) rfl rfl⟩
  · change s₁.log ++ [_] = _
    rw [hs.log, h.log, append_assoc]
  · intro e he
    rcases mem_append.mp he with hold | hnew
    · exact h.only e hold
    · exact ⟨_, _, _, mem_singleton.mp hnew⟩
  · intro k hk s' hs'
    by_cases hold : k < len
    · exact (h.fresh k hold s' (hs.toAged.trans ⟨hs'.time, hs'.dma⟩)).mono
        (subset_append_left _ _)
    · refine ⟨dataOff + len, sectorSize, s₁.time,
        mem_append_right _ mem_cons_self, by omega, by omega, ?_⟩
      have hcell := hs'.dma (dataOff + k)
      change s'.dma (dataOff + k) = s₁.dma (dataOff + k) ∨ _ at hcell
      rw [hzero (dataOff + k) (by omega) (by omega)] at hcell
      exact hcell

/-- What a read took from the buffer, all of it fresh. -/
def Took (log : List Event) (data : Bytes) (now : List Event) : Prop :=
  ∃ clears cells, Completed log requestIn clears [.copied cells] now ∧
    (∀ e ∈ clears, ∃ off len time, e = .cleared off len time) ∧
    data = cells.map Cell.byte ∧
    ∀ k cell, cells[k]? = some cell → Fresh clears (dataOff + k) cell

end Requests

end Redoubt.Blkd
