import Mathlib

/-!
# Actions

A computation that reads and changes a state and may fail; what it changed before it
failed stays.  Its pre- and postconditions come in two halves, one for each way it ends.
-/

namespace Redoubt.Actions

/-- From a state, how it ended and the state it left. -/
def Action (S ε α : Type) : Type := S → Except ε α × S

namespace Action

variable {S T ε ε' α β : Type}

/-- What an action's end leads to. -/
def after (f : α → Action S ε β) : Except ε α × S → Except ε β × S
  | (.ok a, s) => f a s
  | (.error e, s) => (.error e, s)

instance : Monad (Action S ε) where
  pure a := fun s => (.ok a, s)
  bind x f := fun s => after f (x s)

/-- What follows an action matters only at the end it comes to. -/
theorem bind_congr {x : Action S ε α} {f g : α → Action S ε β} {s : S}
    (hsame : ∀ a s', x s = (.ok a, s') → f a s' = g a s') :
    (x >>= f) s = (x >>= g) s := by
  change after f (x s) = after g (x s)
  generalize x s = ended at hsame ⊢
  rcases ended with ⟨e | a, s'⟩
  · rfl
  · exact hsame a s' rfl

def fail (e : ε) : Action S ε α := fun s => (.error e, s)

def query (f : S → α) : Action S ε α := fun s => (.ok (f s), s)

def change (f : S → S) : Action S ε Unit := fun s => (.ok (), f s)

def require (p : Prop) [Decidable p] (e : ε) : Action S ε Unit :=
  if p then pure () else fail e

def found (o : Option α) (e : ε) : Action S ε α :=
  match o with
  | some a => pure a
  | none => fail e

def when (p : Prop) [Decidable p] (x : Action S ε Unit) : Action S ε Unit :=
  if p then x else pure ()

/-- How it ended, as a value. -/
def attempt (x : Action S ε α) : Action S ε' (Except ε α) := fun s =>
    (.ok (x s).1, (x s).2)

def mapError (g : ε → ε') (x : Action S ε α) : Action S ε' α := fun s =>
  match x s with
  | (.ok a, s) => (.ok a, s)
  | (.error e, s) => (.error (g e), s)

/-- An action on a part of the state. -/
def part (get : S → T) (set : S → T → S) (x : Action T ε α) : Action S ε α := fun s =>
  ((x (get s)).1, set s (x (get s)).2)

end Action

/-! ### Pre- and postconditions -/

open Actions.Action

variable {S T ε ε' α β : Type}

/-- What holds of an end: `post` of a value, `fails` of an error. -/
def Ends (post : α → S → Prop) (fails : ε → S → Prop) : Except ε α × S → Prop
  | (.ok a, s) => post a s
  | (.error e, s) => fails e s

/-- From every state that `pre` holds of. -/
def Meets (pre : S → Prop) (x : Action S ε α) (post : α → S → Prop)
    (fails : ε → S → Prop) : Prop :=
  ∀ s, pre s → Ends post fails (x s)

variable {pre pre' : S → Prop} {post post' : α → S → Prop} {fails fails' : ε → S → Prop}
  {x : Action S ε α}

theorem Meets.weaken (hx : Meets pre x post fails) (hpre : ∀ s, pre' s → pre s)
    (hpost : ∀ a s, post a s → post' a s) (hfails : ∀ e s, fails e s → fails' e s) :
    Meets pre' x post' fails' := by
  intro s hs
  have hend := hx s (hpre s hs)
  generalize x s = ended at hend ⊢
  rcases ended with ⟨e | a, s'⟩
  · exact hfails e s' hend
  · exact hpost a s' hend

/-- What holds of no state in particular holds after any action. -/
theorem meets_skip {φ : Prop} :
    Meets (fun _ => φ) x (fun _ _ => φ) fun _ _ => True := by
  intro s hs
  generalize x s = ended
  rcases ended with ⟨e | a, s'⟩
  · trivial
  · exact hs

theorem Meets.and (hx : Meets pre x post fails) (hx' : Meets pre' x post' fails') :
    Meets (fun s => pre s ∧ pre' s) x (fun a s => post a s ∧ post' a s) fun e s =>
      fails e s ∧ fails' e s := by
  intro s hs
  have hend := hx s hs.1
  have hend' := hx' s hs.2
  generalize x s = ended at hend hend' ⊢
  rcases ended with ⟨e | a, s'⟩ <;> exact ⟨hend, hend'⟩

/-- What holds of the value an action has from one state. -/
theorem Meets.value {s : S} {a : α} (hx : Meets pre x post fails) (hs : pre s)
    (hvalue : (x s).1 = .ok a) : post a (x s).2 := by
  have hend := hx s hs
  generalize x s = ended at hend hvalue ⊢
  rcases ended with ⟨result, s'⟩
  obtain rfl : result = .ok a := hvalue
  exact hend

/-- What holds of the end an action comes to. -/
theorem Meets.reached {goal : α → S → Prop} (hx : Meets pre x post fails) :
    Meets (fun s => pre s ∧ ∀ a s', x s = (.ok a, s') → goal a s') x
      (fun a s => post a s ∧ goal a s) fails := by
  intro s hs
  have hend := hx s hs.1
  have hgoal := hs.2
  generalize x s = ended at hend hgoal ⊢
  rcases ended with ⟨e | a, s'⟩
  · exact hend
  · exact ⟨hend, hgoal a s' rfl⟩

variable {done : β → S → Prop}

theorem Meets.bind {f : α → Action S ε β} (hx : Meets pre x post fails)
    (hf : ∀ a, Meets (post a) (f a) done fails) : Meets pre (x >>= f) done fails := by
  intro s hs
  have hend := hx s hs
  change Ends done fails (after f (x s))
  generalize x s = ended at hend ⊢
  rcases ended with ⟨e | a, s'⟩
  · exact hend
  · exact hf a s' hend

/-- The same, with what holds in between spelt out. -/
theorem Meets.via (post : α → S → Prop) {f : α → Action S ε β}
    (hx : Meets pre x post fails)
    (hf : ∀ a, Meets (post a) (f a) done fails) : Meets pre (x >>= f) done fails :=
  hx.bind hf

theorem meets_pure {a : α} (h : ∀ s, pre s → post a s) :
    Meets pre (pure a) post fails := h

variable {e : ε}

theorem meets_fail (h : ∀ s, pre s → fails e s) : Meets pre (fail e) post fails := h

variable {f : S → α} {g : α → Action S ε β}

/-- A question, its answer kept in mind. -/
theorem Meets.ask
    (hg : ∀ a, Meets (fun s => pre s ∧ f s = a) (g a) done fails) :
    Meets pre (query f >>= g) done fails :=
  fun s hs => hg (f s) s ⟨hs, rfl⟩

/-- A question, whatever the answer. -/
theorem Meets.whatever
    (hg : ∀ a, Meets pre (g a) done fails) : Meets pre (query f >>= g) done fails :=
  fun s hs => hg (f s) s hs

/-- A question whose answer is known. -/
theorem Meets.known {a : α}
    (hf : ∀ s, pre s → f s = a) (hg : Meets pre (g a) done fails) :
    Meets pre (query f >>= g) done fails := by
  intro s hs
  have hend := hg s hs
  rw [← hf s hs] at hend
  exact hend

/-- A fact, whatever the state. -/
theorem Meets.given {φ : Prop} (hx : φ → Meets pre x post fails) :
    Meets (fun s => pre s ∧ φ) x post fails :=
  fun s hs => hx hs.2 s hs.1

theorem meets_change {f : S → S} {post : Unit → S → Prop}
    (h : ∀ s, pre s → post () (f s)) :
    Meets pre (change f) post fails := h

variable {p : Prop}

theorem Meets.ite [Decidable p] {y : Action S ε α} (hx : p → Meets pre x post fails)
    (hy : ¬ p → Meets pre y post fails) :
    Meets pre (if p then x else y) post fails := by
  by_cases hp : p
  · rw [if_pos hp]
    exact hx hp
  · rw [if_neg hp]
    exact hy hp

theorem Meets.require [Decidable p] {post : Unit → S → Prop}
    (hok : p → ∀ s, pre s → post () s) (herr : ¬ p → ∀ s, pre s → fails e s) :
    Meets pre (require p e) post fails :=
  .ite (fun hp => meets_pure (hok hp)) fun hp => meets_fail (herr hp)

theorem Meets.when [Decidable p] {x : Action S ε Unit} {post : Unit → S → Prop}
    (hx : p → Meets pre x post fails) (hskip : ¬ p → ∀ s, pre s → post () s) :
    Meets pre (when p x) post fails :=
  .ite hx fun hp => meets_pure (hskip hp)

theorem Meets.found {o : Option α} (hok : ∀ a, o = some a → ∀ s, pre s → post a s)
    (herr : o = none → ∀ s, pre s → fails e s) : Meets pre (found o e) post fails := by
  cases o with
  | none => exact herr rfl
  | some a => exact hok a rfl

theorem Meets.attempt {post : Except ε α → S → Prop} {fails : ε' → S → Prop}
    (hx : Meets pre x (fun a => post (.ok a)) fun e => post (.error e)) :
    Meets pre (attempt x) post fails := by
  intro s hs
  have hend := hx s hs
  change post (x s).1 (x s).2
  generalize x s = ended at hend ⊢
  rcases ended with ⟨e | a, s'⟩ <;> exact hend

theorem Meets.mapError {g : ε → ε'} {fails : ε' → S → Prop}
    (hx : Meets pre x post fun e => fails (g e)) :
    Meets pre (mapError g x) post fails := by
  intro s hs
  have hend := hx s hs
  rw [Action.mapError]
  generalize x s = ended at hend ⊢
  rcases ended with ⟨e | a, s'⟩ <;> exact hend

/-- The same of an action that cannot fail. -/
abbrev Always (pre : S → Prop) (x : Action S Empty α) (post : α → S → Prop) : Prop :=
  Meets pre x post fun e => e.elim

theorem Always.weaken {x : Action S Empty α} (hx : Always pre x post)
    (hpre : ∀ s, pre' s → pre s)
    (hpost : ∀ a s, post a s → post' a s) : Always pre' x post' :=
  Meets.weaken hx hpre hpost fun e => e.elim

theorem Always.and {x : Action S Empty α} (hx : Always pre x post)
    (hx' : Always pre' x post') :
    Always (fun s => pre s ∧ pre' s) x fun a s => post a s ∧ post' a s :=
  Meets.weaken (Meets.and hx hx') (fun _ hs => hs) (fun _ _ h => h) fun e => e.elim

theorem Always.state {x : Action S Empty α} {s : S} (hx : Always pre x fun _ => pre')
    (hs : pre s) :
    pre' (x s).2 := by
  have hend := hx s hs
  generalize x s = ended at hend ⊢
  rcases ended with ⟨e | a, s'⟩
  · exact e.elim
  · exact hend

/-! ### What an action leaves alone -/

/-- However it ends, `f` of the state is as it was. -/
def Keeps {β : Type} (f : S → β) (x : Action S ε α) : Prop := ∀ s, f (x s).2 = f s

section Keeps

variable {γ : Type} {f : S → γ}

theorem keeps_pure {a : α} : Keeps f (pure a : Action S ε α) := fun _ => rfl

theorem keeps_fail {e : ε} : Keeps f (fail e : Action S ε α) := fun _ => rfl

theorem keeps_query {g : S → α} : Keeps f (query g : Action S ε α) := fun _ => rfl

theorem keeps_change {g : S → S} (hg : ∀ s, f (g s) = f s) :
    Keeps f (change g : Action S ε Unit) := hg

theorem Keeps.bind {g : α → Action S ε β} (hx : Keeps f x) (hg : ∀ a, Keeps f (g a)) :
    Keeps f (x >>= g) := by
  intro s
  rw [← hx s]
  change f (after g (x s)).2 = _
  generalize x s = ended
  rcases ended with ⟨e | a, s'⟩
  · rfl
  · exact hg a s'

theorem Keeps.ite {p : Prop} [Decidable p] {y : Action S ε α} (hx : Keeps f x)
    (hy : Keeps f y) :
    Keeps f (if p then x else y) := by
  by_cases hp : p
  · rw [if_pos hp]
    exact hx
  · rw [if_neg hp]
    exact hy

theorem Keeps.when {p : Prop} [Decidable p] {x : Action S ε Unit} (hx : Keeps f x) :
    Keeps f (when p x) :=
  .ite hx keeps_pure

theorem keeps_require {p : Prop} [Decidable p] {e : ε} : Keeps f (require p e) :=
  .ite keeps_pure keeps_fail

theorem keeps_found {o : Option α} {e : ε} : Keeps f (found o e) := by
  cases o
  · exact keeps_fail
  · exact keeps_pure

theorem Keeps.attempt (hx : Keeps f x) :
    Keeps f (attempt x : Action S ε' (Except ε α)) := hx

theorem Keeps.mapError {g : ε → ε'} (hx : Keeps f x) : Keeps f (mapError g x) := by
  intro s
  rw [← hx s, Action.mapError]
  generalize x s = ended
  rcases ended with ⟨e | a, s'⟩ <;> rfl

/-- What holds of what is left alone still does. -/
theorem Keeps.meets (hx : Keeps f x) (holds : γ → Prop) :
    Meets (fun s => holds (f s)) x (fun _ s => holds (f s)) fun _ s => holds (f s) := by
  intro s hs
  rw [← hx s] at hs
  generalize x s = ended at hs ⊢
  rcases ended with ⟨e | a, s'⟩ <;> exact hs

theorem Keeps.always {x : Action S Empty α} (hx : Keeps f x) (holds : γ → Prop) :
    Always (fun s => holds (f s)) x fun _ s => holds (f s) :=
  (hx.meets holds).weaken (fun _ h => h) (fun _ _ h => h) fun e => e.elim

end Keeps

end Redoubt.Actions
