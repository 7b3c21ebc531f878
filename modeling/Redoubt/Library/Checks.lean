import Mathlib

/-!
# Checks

A check passes or refuses, with a reason; a list is checked entry by entry, each with
its place. Names are collected on the way, and one given twice is refused.
-/

namespace Redoubt.Checks

open List

variable {α κ ε : Type} {m : Type → Type}

/-- Refuses, if `p`. -/
def refuse (p : Prop) [Decidable p] (e : ε) : Except ε Unit :=
  if p then .error e else .ok ()

/-- Checks, if `p`. -/
def provided (p : Prop) [Decidable p] (x : Except ε Unit) : Except ε Unit :=
  if p then x else .ok ()

/-- Every entry in its turn, with its place, from place `i`. -/
def eachFrom [Monad m] (f : ℕ → α → m Unit) : ℕ → List α → m Unit
  | _, [] => pure ()
  | i, x :: rest => do
      f i x
      eachFrom f (i + 1) rest

def each [Monad m] (xs : List α) (f : ℕ → α → m Unit) : m Unit := eachFrom f 0 xs

variable {β : Type} {x : Except ε Unit} {b : β}

theorem bind_eq_ok {f : Unit → Except ε β} :
    (x >>= f) = .ok b ↔ x = .ok () ∧ f () = .ok b := by
  cases x with
  | error e => exact ⟨nofun, nofun⟩
  | ok a => exact ⟨fun h => ⟨rfl, h⟩, fun h => h.2⟩

theorem bind_eq_ok_iff {x : Except ε α} {f : α → Except ε β} :
    (x >>= f) = .ok b ↔ ∃ a, x = .ok a ∧ f a = .ok b := by
  cases x with
  | error e => exact ⟨nofun, fun ⟨_, h, _⟩ => nomatch h⟩
  | ok a => exact ⟨fun h => ⟨a, rfl, h⟩, fun ⟨_, h, hf⟩ => Except.ok.inj h ▸ hf⟩

variable {xs : List α}

variable {e : ε}

theorem refuse_eq_ok {p : Prop} [Decidable p] : refuse p e = .ok () ↔ ¬ p := by
  rw [refuse]
  split
  · next hp => exact ⟨nofun, fun hnot => absurd hp hnot⟩
  · next hp => exact ⟨fun _ => hp, fun _ => rfl⟩

theorem provided_eq_ok {p : Prop} [Decidable p] :
    provided p x = .ok () ↔ (p → x = .ok ()) := by
  rw [provided]
  split
  · next hp => exact ⟨fun hx _ => hx, fun hx => hx hp⟩
  · next hp => exact ⟨fun _ hp' => absurd hp' hp, fun _ => rfl⟩

variable {f : ℕ → α → Except ε Unit}

theorem eachFrom_eq_ok {i : ℕ} :
    eachFrom f i xs = .ok () ↔ ∀ j x, xs[j]? = some x → f (i + j) x = .ok () := by
  induction xs generalizing i with
  | nil => exact ⟨fun _ => nofun, fun _ => rfl⟩
  | cons x rest ih =>
    rw [eachFrom, bind_eq_ok, ih]
    have hplace (j : ℕ) : i + (j + 1) = i + 1 + j := by omega
    constructor
    · rintro ⟨hx, hrest⟩ j y hy
      cases j with
      | zero =>
        cases hy
        exact hx
      | succ j =>
        rw [hplace]
        exact hrest j y hy
    · intro hall
      refine ⟨hall 0 x rfl, fun j y hy => ?_⟩
      rw [← hplace]
      exact hall (j + 1) y hy

theorem each_eq_ok : each xs f = .ok () ↔ ∀ j x, xs[j]? = some x → f j x = .ok () := by
  rw [each, eachFrom_eq_ok]
  simp only [zero_add]

theorem of_each {x : α} (hall : each xs f = .ok ()) (hx : x ∈ xs) :
    ∃ j, f j x = .ok () := by
  obtain ⟨j, hj⟩ := mem_iff_getElem?.mp hx
  exact ⟨j, each_eq_ok.mp hall j x hj⟩

/-- Each entry checked against those before it. -/
theorem pairwise_of_take {R : α → α → Prop}
    (hall : ∀ j x, xs[j]? = some x → ∀ y ∈ xs.take j, R y x) : xs.Pairwise R := by
  refine pairwise_iff_getElem.mpr fun i j hi hj hlt => ?_
  refine hall j _ (getElem?_eq_getElem hj) _ (mem_iff_getElem?.mpr ⟨i, ?_⟩)
  rw [getElem?_take_of_lt hlt, getElem?_eq_getElem hi]

/-! ### Names given once -/

/-- A check that collects what it has seen. -/
abbrev Seeing (κ ε : Type) := StateT (List κ) (Except ε)

/-- One more, refused if it was seen before. -/
def add [DecidableEq κ] (x : κ) (e : ε) : Seeing κ ε Unit := fun seen =>
  if x ∈ seen then .error e else .ok ((), seen ++ [x])

/-- A check that sees nothing. -/
def plain (x : Except ε Unit) : Seeing κ ε Unit := fun seen => x.map fun _ => ((), seen)

/-- If it passes, `xs` were seen, each of them once. -/
def Sees (x : Seeing κ ε Unit) (xs : List κ) : Prop :=
  ∀ seen seen', x seen = .ok ((), seen') → seen' = seen ++ xs ∧
    (seen.Nodup → seen'.Nodup)

theorem sees_add [DecidableEq κ] {x : κ} : Sees (add x e) [x] := by
  intro seen seen' hok
  rw [add] at hok
  split at hok
  · exact nomatch hok
  · next hnew =>
      cases hok
      refine ⟨rfl, fun hnodup => ?_⟩
      exact nodup_append.mpr ⟨hnodup, nodup_singleton x, fun a ha b hb heq =>
        hnew (mem_singleton.mp hb ▸ heq ▸ ha)⟩

theorem sees_plain : Sees (plain x : Seeing κ ε Unit) [] := by
  intro seen seen' hok
  cases x with
  | error e => exact nomatch hok
  | ok a =>
    cases hok
    exact ⟨(append_nil seen).symm, fun hnodup => hnodup⟩

theorem Sees.bind {x : Seeing κ ε Unit} {f : Unit → Seeing κ ε Unit} {xs ys : List κ}
    (hx : Sees x xs)
    (hf : Sees (f ()) ys) : Sees (x >>= f) (xs ++ ys) := by
  intro seen seen' hok
  obtain ⟨r, hfirst, hrest⟩ := bind_eq_ok_iff.mp hok
  obtain ⟨hmid, hmidNodup⟩ := hx seen r.2 hfirst
  obtain ⟨hend, hendNodup⟩ := hf r.2 seen' hrest
  refine ⟨?_, fun hnodup => hendNodup (hmidNodup hnodup)⟩
  rw [hend, hmid, append_assoc]

theorem Sees.afterPlain {c : Except ε Unit} {x : Seeing κ ε Unit} {xs : List κ}
    (hx : Sees x xs) :
    Sees (do plain c; x) xs := by
  have hboth : Sees (do plain c; x) ([] ++ xs) := sees_plain.bind hx
  exact hboth

theorem Sees.afterAdd [DecidableEq κ] {a : κ} {x : Seeing κ ε Unit} {xs : List κ}
    (hx : Sees x xs) :
    Sees (do add a e; x) (a :: xs) := by
  have hboth : Sees (do add a e; x) ([a] ++ xs) := sees_add.bind hx
  exact hboth

theorem sees_eachFrom {f : ℕ → α → Seeing κ ε Unit} {g : α → List κ}
    (hf : ∀ i x, Sees (f i x) (g x)) (i : ℕ) :
    Sees (eachFrom f i xs) (xs.flatMap g) := by
  induction xs generalizing i with
  | nil => exact sees_plain (x := .ok ())
  | cons x rest ih => exact (hf i x).bind (ih (i + 1))

theorem sees_each {f : ℕ → α → Seeing κ ε Unit} {g : α → List κ}
    (hf : ∀ i x, Sees (f i x) (g x)) : Sees (each xs f) (xs.flatMap g) :=
  sees_eachFrom hf 0

end Redoubt.Checks
