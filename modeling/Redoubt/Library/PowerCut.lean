import Mathlib

/-!
# Storage that loses power

Block storage with a volatile write cache, programs over it, and rules of pre-
and postconditions that also say what holds wherever a power cut stops the
program.  A write is pending until the next sync completes; a power cut leaves
each pending write absent, whole, or torn to bytes a predicate `torn` allows at
its address.
-/

namespace Redoubt.PowerCut

open Function List

variable {ε α γ β : Type}

/-- What survives a power cut for certain, and the writes since the last
completed sync, oldest first. -/
structure Disk (β : Type) where
  medium : ℕ → β
  pending : List (ℕ × β) := []

/-- A medium after writes, in order. -/
def applied (medium : ℕ → β) : List (ℕ × β) → ℕ → β
  | [] => medium
  | (a, v) :: rest => applied (Function.update medium a v) rest

namespace Disk

variable (d : Disk β)

def read (a : ℕ) : β := applied d.medium d.pending a

def write (a : ℕ) (v : β) : Disk β := { d with pending := d.pending ++ [(a, v)] }

def sync : Disk β := { medium := applied d.medium d.pending }

end Disk

/-- A program over the storage: its operations in turn, then its result. -/
inductive Prog (ε β α : Type) where
  | ret (result : Except ε α)
  | read (a : ℕ) (next : β → Prog ε β α)
  | write (a : ℕ) (v : β) (next : Prog ε β α)
  | sync (next : Prog ε β α)

namespace Prog

def bind : Prog ε β α → (α → Prog ε β γ) → Prog ε β γ
  | ret (.ok x), rest => rest x
  | ret (.error e), _ => ret (.error e)
  | read a next, rest => read a fun v => (next v).bind rest
  | write a v next, rest => write a v (next.bind rest)
  | sync next, rest => sync (next.bind rest)

instance : Monad (Prog ε β) where
  pure x := ret (.ok x)
  bind := bind

def fail (e : ε) : Prog ε β α := ret (.error e)

def readBlock (a : ℕ) : Prog ε β β := read a fun v => ret (.ok v)

def writeBlock (a : ℕ) (v : β) : Prog ε β Unit := write a v (ret (.ok ()))

def syncAll : Prog ε β Unit := sync (ret (.ok ()))

def writeAll : List (ℕ × β) → Prog ε β Unit
  | [] => pure ()
  | (a, v) :: rest => write a v (writeAll rest)

def run : Prog ε β α → Disk β → Except ε α × Disk β
  | ret result, d => (result, d)
  | read a next, d => (next (d.read a)).run d
  | write a v next, d => next.run (d.write a v)
  | sync next, d => next.run d.sync

/-- The disk a power cut may find: before any operation, or after the last. -/
def Stops : Prog ε β α → Disk β → Disk β → Prop
  | ret _, d, found => found = d
  | read a next, d, found => found = d ∨ (next (d.read a)).Stops d found
  | write a v next, d, found => found = d ∨ next.Stops (d.write a v) found
  | sync next, d, found => found = d ∨ next.Stops d.sync found

/-- What is left of the program once `n` syncs have completed, and the disk then. -/
def synced : ℕ → Prog ε β α → Disk β → Option (Prog ε β α × Disk β)
  | 0, p, d => some (p, d)
  | _ + 1, ret _, _ => none
  | n + 1, read a next, d => synced (n + 1) (next (d.read a)) d
  | n + 1, write a v next, d => synced (n + 1) next (d.write a v)
  | n + 1, sync next, d => synced n next d.sync

/-- The disk a power cut may find once `n` syncs have completed. -/
def StopsSynced (n : ℕ) (p : Prog ε β α) (d found : Disk β) : Prop :=
  ∃ rest now, p.synced n d = some (rest, now) ∧ rest.Stops now found

/-- From `d` the program ends with `post` of its result, and `cut` holds of every
disk a power cut may find. -/
def Ensures (post : Except ε α → Disk β → Prop) (cut : Disk β → Prop) : Prog ε β α →
    Disk β → Prop
  | ret result, d => cut d ∧ post result d
  | read a next, d => cut d ∧ (next (d.read a)).Ensures post cut d
  | write a v next, d => cut d ∧ next.Ensures post cut (d.write a v)
  | sync next, d => cut d ∧ next.Ensures post cut d.sync

variable {post : Except ε α → Disk β → Prop} {cut : Disk β → Prop}
    {p : Prog ε β α} {d : Disk β}

theorem ensures_iff : p.Ensures post cut d ↔
    post (p.run d).1 (p.run d).2 ∧ ∀ found, p.Stops d found → cut found := by
  induction p generalizing d with
  | ret result => simp only [Ensures, Prog.run, Stops, forall_eq, and_comm]
  | read a next ih =>
    simp only [Ensures, Prog.run, Stops, ih, or_imp, forall_and, forall_eq,
      and_left_comm]
  | write a v next ih =>
    simp only [Ensures, Prog.run, Stops, ih, or_imp, forall_and, forall_eq,
      and_left_comm]
  | sync next ih =>
    simp only [Ensures, Prog.run, Stops, ih, or_imp, forall_and, forall_eq,
      and_left_comm]

theorem Ensures.run (hp : p.Ensures post cut d) : post (p.run d).1 (p.run d).2 :=
  (ensures_iff.1 hp).1

theorem Ensures.stops (hp : p.Ensures post cut d) {found : Disk β}
    (hfound : p.Stops d found) :
    cut found :=
  (ensures_iff.1 hp).2 found hfound

/-- Sequencing: the rest starts where the first part ended. -/
theorem Ensures.bind {first : Prog ε β γ} {rest : γ → Prog ε β α}
    (hfirst : first.Ensures (fun result d =>
      match result with
      | .ok x => (rest x).Ensures post cut d
      | .error e => post (.error e) d) cut d) :
    (first >>= rest).Ensures post cut d := by
  induction first generalizing d with
  | ret result =>
    cases result with
    | ok x => exact hfirst.2
    | error e => exact ⟨hfirst.1, hfirst.2⟩
  | read a next ih => exact ⟨hfirst.1, ih _ hfirst.2⟩
  | write a v next ih => exact ⟨hfirst.1, ih hfirst.2⟩
  | sync next ih => exact ⟨hfirst.1, ih hfirst.2⟩

theorem Ensures.imp {weaker : Except ε α → Disk β → Prop} (hp : p.Ensures post cut d)
    (hpost : ∀ result found, post result found → weaker result found) :
    p.Ensures weaker cut d :=
  ensures_iff.2 ⟨hpost _ _ hp.run, fun _ => hp.stops⟩

theorem Ensures.weaken_cut {weaker : Disk β → Prop} (hp : p.Ensures post cut d)
    (hcut : ∀ found, cut found → weaker found) : p.Ensures post weaker d :=
  ensures_iff.2 ⟨hp.run, fun _ hfound => hcut _ (hp.stops hfound)⟩

theorem ensures_readBlock {a : ℕ} {rest : β → Prog ε β α} (hcut : cut d)
    (hrest : (rest (d.read a)).Ensures post cut d) :
    (readBlock a >>= rest).Ensures post cut d := ⟨hcut, hrest⟩

theorem ensures_writeBlock {a : ℕ} {v : β} {rest : Unit → Prog ε β α} (hcut : cut d)
    (hrest : (rest ()).Ensures post cut (d.write a v)) :
    (writeBlock a v >>= rest).Ensures post cut d := ⟨hcut, hrest⟩

theorem synced_zero : p.synced 0 d = some (p, d) := by
  cases p <;> rfl

/-- Such a cut is one of the program's. -/
theorem StopsSynced.stops {n : ℕ} {found : Disk β} (hstops : p.StopsSynced n d found) :
    p.Stops d found := by
  obtain ⟨rest, now, hsynced, hfound⟩ := hstops
  induction p generalizing n d with
  | ret result =>
    cases n with
    | zero => cases hsynced; exact hfound
    | succ n => cases hsynced
  | read a next ih =>
    cases n with
    | zero => cases hsynced; exact hfound
    | succ n => exact Or.inr (ih _ hsynced)
  | write a v next ih =>
    cases n with
    | zero => cases hsynced; exact hfound
    | succ n => exact Or.inr (ih hsynced)
  | sync next ih =>
    cases n with
    | zero => cases hsynced; exact hfound
    | succ n => exact Or.inr (ih hsynced)

/-- A first part that ends with its `n`th sync leaves the rest, on the disk it ended
with. -/
theorem synced_bind {first : Prog ε β γ} (rest : γ → Prog ε β α) {n : ℕ} {x : γ}
    {now : Disk β}
    (hsynced : first.synced n d = some (ret (.ok x), now)) :
    (first >>= rest).synced n d = some (rest x, now) ∧ first.run d = (.ok x, now) := by
  induction first generalizing n d with
  | ret result =>
    cases n with
    | zero => cases hsynced; exact ⟨synced_zero, rfl⟩
    | succ n => cases hsynced
  | read a next ih =>
    cases n with
    | zero => cases hsynced
    | succ n => exact ih _ hsynced
  | write a v next ih =>
    cases n with
    | zero => cases hsynced
    | succ n => exact ih hsynced
  | sync next ih =>
    cases n with
    | zero => cases hsynced
    | succ n => exact ih hsynced

theorem synced_writeAll (writes : List (ℕ × β)) (rest : Unit → Prog ε β α) (n : ℕ)
    (d : Disk β) :
    (writeAll writes >>= rest).synced (n + 1) d =
      (rest ()).synced (n + 1) { d with pending := d.pending ++ writes } := by
  induction writes generalizing d with
  | nil =>
    rw [append_nil]
    rfl
  | cons head tail ih =>
    have hnext := ih (d.write head.1 head.2)
    rw [Disk.write, append_assoc] at hnext
    exact hnext

/-- A run of writes: `cut` after each of them, `post` after all. -/
theorem ensures_writeAll {post : Except ε Unit → Disk β → Prop} {writes : List (ℕ × β)}
    (hcut : ∀ done rest, writes = done ++ rest →
      cut { d with pending := d.pending ++ done })
    (hpost : post (.ok ()) { d with pending := d.pending ++ writes }) :
    (writeAll writes : Prog ε β Unit).Ensures post cut d := by
  induction writes generalizing d with
  | nil =>
    have hfirst := hcut [] [] rfl
    rw [append_nil] at hfirst hpost
    exact ⟨hfirst, hpost⟩
  | cons head tail ih =>
    refine ⟨?_, ih ?_ ?_⟩
    · have hfirst := hcut [] (head :: tail) rfl
      rw [append_nil] at hfirst
      exact hfirst
    · intro done rest heq
      have hnext := hcut (head :: done) rest (by rw [heq]; rfl)
      rw [Disk.write, append_assoc]
      exact hnext
    · rw [Disk.write, append_assoc]
      exact hpost

end Prog

/-! ### Power cuts -/

/-- The media a cut may leave of pending writes: each absent, whole or torn. -/
inductive Survives (torn : ℕ → β → Prop) : List (ℕ × β) → (ℕ → β) → (ℕ → β) → Prop
  | none (medium : ℕ → β) : Survives torn [] medium medium
  | absent {a : ℕ} {v : β} {rest : List (ℕ × β)} {medium left : ℕ → β} :
      Survives torn rest medium left → Survives torn ((a, v) :: rest) medium left
  | whole {a : ℕ} {v : β} {rest : List (ℕ × β)} {medium left : ℕ → β} :
      Survives torn rest (Function.update medium a v) left →
        Survives torn ((a, v) :: rest) medium left
  | tears {a : ℕ} {v bytes : β} {rest : List (ℕ × β)} {medium left : ℕ → β} :
      torn a bytes → Survives torn rest (Function.update medium a bytes) left →
        Survives torn ((a, v) :: rest) medium left

variable {torn : ℕ → β → Prop}

variable {medium left : ℕ → β} {a : ℕ}

/-- A block no pending write names is as it was. -/
theorem Survives.eq_of_notMem {pending : List (ℕ × β)}
    (hcut : Survives torn pending medium left) (ha : a ∉ pending.map Prod.fst) :
    left a = medium a := by
  induction hcut with
  | none medium => rfl
  | absent _ ih => exact ih fun hmem => ha (mem_cons_of_mem _ hmem)
  | whole _ ih =>
    rw [map_cons, mem_cons, not_or] at ha
    rw [ih ha.2, update_of_ne ha.1]
  | tears _ _ ih =>
    rw [map_cons, mem_cons, not_or] at ha
    rw [ih ha.2, update_of_ne ha.1]

theorem Survives.of_nil (hcut : Survives torn [] medium left) : left = medium := by
  cases hcut
  rfl

/-- One pending write: absent, whole or torn. -/
theorem Survives.of_single {v : β} (hcut : Survives torn [(a, v)] medium left) :
    left = medium ∨ left = update medium a v ∨
      ∃ bytes, torn a bytes ∧ left = update medium a bytes := by
  cases hcut with
  | absent hrest => exact Or.inl hrest.of_nil
  | whole hrest => exact Or.inr (Or.inl hrest.of_nil)
  | tears htorn hrest => exact Or.inr (Or.inr ⟨_, htorn, hrest.of_nil⟩)

variable {writes : List (ℕ × β)}

theorem applied_of_notMem (medium : ℕ → β)
    (ha : a ∉ writes.map Prod.fst) : applied medium writes a = medium a := by
  induction writes generalizing medium with
  | nil => rfl
  | cons head tail ih =>
    rw [map_cons, mem_cons, not_or] at ha
    rw [applied, ih _ ha.2, update_of_ne ha.1]

/-- With distinct addresses every write is found where it went. -/
theorem applied_of_mem (medium : ℕ → β)
    (hnodup : (writes.map Prod.fst).Nodup) {v : β} (hmem : (a, v) ∈ writes) :
    applied medium writes a = v := by
  induction writes generalizing medium with
  | nil => contradiction
  | cons head tail ih =>
    obtain ⟨hhead, htail⟩ := nodup_cons.mp hnodup
    rcases mem_cons.mp hmem with rfl | hmem
    · rw [applied, applied_of_notMem _ hhead, update_self]
    · exact ih _ htail hmem

/-- Nothing lost is one of the things a cut may leave. -/
theorem survives_applied (medium : ℕ → β) (pending : List (ℕ × β)) :
    Survives torn pending medium (applied medium pending) := by
  induction pending generalizing medium with
  | nil => exact Survives.none medium
  | cons head tail ih => exact Survives.whole (ih _)

/-- Where every write names an address two media differ at, they end the same. -/
theorem applied_congr {right : ℕ → β} (a : ℕ)
    (heq : a ∉ writes.map Prod.fst → left a = right a) :
    applied left writes a = applied right writes a := by
  induction writes generalizing left right with
  | nil => exact heq not_mem_nil
  | cons head tail ih =>
    apply ih
    intro hnot
    by_cases ha : a = head.1
    · subst ha
      rw [update_self, update_self]
    · rw [update_of_ne ha, update_of_ne ha]
      apply heq
      rw [map_cons, mem_cons, not_or]
      exact ⟨ha, hnot⟩

/-- Whatever a cut here leaves satisfies `left`. -/
def CutLeaves (torn : ℕ → β → Prop) (left : (ℕ → β) → Prop) (d : Disk β) : Prop :=
  ∀ medium, Survives torn d.pending d.medium medium → left medium

/-- The media reached by any number of power cuts inside `recover`, each followed
by another start of it. -/
inductive Reboots (torn : ℕ → β → Prop) (recover : Prog ε β α) : (ℕ → β) →
    (ℕ → β) → Prop
  | done (medium : ℕ → β) : Reboots torn recover medium medium
  | again {medium left final : ℕ → β} {found : Disk β} :
      recover.Stops { medium := medium } found →
        Survives torn found.pending found.medium left →
        Reboots torn recover left final → Reboots torn recover medium final

/-- Recovery: if `recover` keeps a medium recoverable wherever it is cut, the
medium it completes on is a recoverable one. -/
theorem Reboots.recoverable {recover : Prog ε β α} {recoverable : (ℕ → β) → Prop}
    {post : Except ε α → Disk β → Prop} {final : ℕ → β}
    (hreboots : Reboots torn recover medium final)
    (hrecover : ∀ medium, recoverable medium →
      recover.Ensures post (CutLeaves torn recoverable) { medium := medium })
    (hmedium : recoverable medium) : recoverable final := by
  induction hreboots with
  | done medium => exact hmedium
  | again hstops hcut _ ih => exact ih ((hrecover _ hmedium).stops hstops _ hcut)

end Redoubt.PowerCut
