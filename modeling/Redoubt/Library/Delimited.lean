import Mathlib

/-!
# Self-delimiting encodings

An encoding is self-delimiting if what stands at the front of a text is known from
the text alone, and so is what follows it.  Such encodings may be written one after
another without a frame.
-/

namespace Redoubt.Encodings

open List

variable {α γ β : Type}

/-- A value at the front of a text, and the rest, are read off it in one way. -/
def Delimited (encode : α → List β) : Prop :=
  ∀ a b rest rest', encode a ++ rest = encode b ++ rest' → a = b ∧ rest = rest'

theorem Delimited.injective {encode : α → List β} (h : Delimited encode) :
    Function.Injective encode := by
  intro a b heq
  exact (h a b [] [] (by rw [heq])).1

/-- A fixed number of letters. -/
theorem delimited_of_length {encode : α → List β} {n : ℕ}
    (hlength : ∀ a, (encode a).length = n)
    (hinjective : Function.Injective encode) : Delimited encode := by
  intro a b rest rest' heq
  obtain ⟨hfront, hrest⟩ := append_inj heq ((hlength a).trans (hlength b).symm)
  exact ⟨hinjective hfront, hrest⟩

/-- One after the other. -/
theorem Delimited.pair {first : α → List β} {second : γ → List β}
    (hfirst : Delimited first)
    (hsecond : Delimited second) :
    Delimited fun p : α × γ => first p.1 ++ second p.2 := by
  rintro ⟨a, c⟩ ⟨b, d⟩ rest rest' heq
  rw [append_assoc, append_assoc] at heq
  obtain ⟨rfl, hnext⟩ := hfirst a b _ _ heq
  obtain ⟨rfl, hrest⟩ := hsecond c d _ _ hnext
  exact ⟨rfl, hrest⟩

/-- A letter that says which fields follow. -/
theorem delimited_of_tag {tag : α → β} {fields : α → List β}
    (hfields : ∀ a b rest rest', tag a = tag b → fields a ++ rest = fields b ++ rest' →
      a = b ∧ rest = rest') :
    Delimited fun a => tag a :: fields a := by
  intro a b rest rest' heq
  obtain ⟨htag, hnext⟩ := cons.inj heq
  exact hfields a b rest rest' htag hnext

/-- As many values as another list has. -/
theorem Delimited.flatMap {encode : α → List β} (h : Delimited encode) {xs ys : List α}
    {rest rest' : List β} (hlength : xs.length = ys.length)
    (heq : xs.flatMap encode ++ rest = ys.flatMap encode ++ rest') :
    xs = ys ∧ rest = rest' := by
  induction xs generalizing ys with
  | nil =>
    rw [length_eq_zero_iff.mp hlength.symm] at heq ⊢
    exact ⟨rfl, heq⟩
  | cons x xs ih =>
    obtain ⟨y, ys, rfl⟩ := exists_cons_of_length_eq_add_one hlength.symm
    rw [flatMap_cons, flatMap_cons, append_assoc, append_assoc] at heq
    obtain ⟨rfl, hnext⟩ := h x y _ _ heq
    obtain ⟨rfl, hrest⟩ := ih (Nat.succ.inj hlength) hnext
    exact ⟨rfl, hrest⟩

/-- A list behind its length, among those whose lengths `count` tells apart. -/
theorem Delimited.counted {encode : α → List β} (h : Delimited encode) {bound : ℕ}
    {count : Fin bound → List β} (hcount : Delimited count) :
    Delimited fun xs : { xs : List α // xs.length < bound } =>
      count ⟨xs.1.length, xs.2⟩ ++ xs.1.flatMap encode := by
  rintro ⟨xs, hxs⟩ ⟨ys, hys⟩ rest rest' heq
  rw [append_assoc, append_assoc] at heq
  obtain ⟨hlength, hnext⟩ := hcount _ _ _ _ heq
  obtain ⟨rfl, hrest⟩ := h.flatMap (Fin.mk.inj hlength) hnext
  exact ⟨rfl, hrest⟩

/-- A letter that says whether a value follows, and the value. -/
def optional (no yes : β) (encode : α → List β) : Option α → List β
  | none => [no]
  | some a => yes :: encode a

theorem Delimited.optional {encode : α → List β} (h : Delimited encode) {no yes : β}
    (hne : no ≠ yes) :
    Delimited (optional no yes encode) := by
  rintro (- | a) (- | b) rest rest' heq
  · exact ⟨rfl, (cons.inj heq).2⟩
  · exact absurd (cons.inj heq).1 hne
  · exact absurd (cons.inj heq).1.symm hne
  · obtain ⟨rfl, hrest⟩ := h a b _ _ (cons.inj heq).2
    exact ⟨rfl, hrest⟩

end Redoubt.Encodings
