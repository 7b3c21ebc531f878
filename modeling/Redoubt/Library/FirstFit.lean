import Mathlib

/-!
# First-fit placement into pages bought on demand

A table is a list of pages of one capacity.  A page is either missing (`none`)
or bought and holding some number of entries.  An entry goes to the first page
that is not full, and a missing page counts as not full: it is bought.  This
module counts what a sequence of placements buys and compares the count with
the estimate that only looks at totals.
-/

namespace Redoubt.FirstFit

open List

variable {capacity : ℕ}

def room (capacity : ℕ) : List (Option ℕ) → ℕ
  | [] => 0
  | none :: pages => room capacity pages
  | some held :: pages => (capacity - held) + room capacity pages

def missing : List (Option ℕ) → ℕ
  | [] => 0
  | none :: pages => missing pages + 1
  | some _ :: pages => missing pages

/-- Place one entry: the new pages, and how many of them were bought. -/
def place (capacity : ℕ) : List (Option ℕ) → Option (List (Option ℕ) × ℕ)
  | [] => none
  | none :: pages => some (some 1 :: pages, 1)
  | some held :: pages =>
    if held = capacity then
      (place capacity pages).map fun result =>
        (some held :: result.1, result.2)
    else
      some (some (held + 1) :: pages, 0)

/-- Place a number of entries one after the other. -/
def placeMany (capacity : ℕ) : ℕ → List (Option ℕ) → Option (List (Option ℕ) × ℕ)
  | 0, pages => some (pages, 0)
  | count + 1, pages =>
    (place capacity pages).bind fun first =>
      (placeMany capacity count first.1).map fun rest =>
        (rest.1, first.2 + rest.2)

/-- The missing pages that `count` placements reach. -/
def bought (capacity : ℕ) : ℕ → List (Option ℕ) → ℕ
  | _, [] => 0
  | count, none :: pages =>
    if count = 0 then 0 else bought capacity (count - capacity) pages + 1
  | count, some held :: pages =>
    bought capacity (count - (capacity - held)) pages

/-- The estimate from totals: what does not fit in the bought pages, in whole
pages. -/
def estimate (capacity count : ℕ) (pages : List (Option ℕ)) : ℕ :=
  (count - room capacity pages + (capacity - 1)) / capacity

/-- No bought page holds more than its capacity. -/
def Bounded (capacity : ℕ) (pages : List (Option ℕ)) : Prop :=
  ∀ held, some held ∈ pages → held ≤ capacity

/-- Every missing page that `count` placements reach is one the free entries of
all the bought pages, those above it included, cannot make up for. -/
def NoHoleReached (capacity count : ℕ) (pages : List (Option ℕ)) : Prop :=
  ∀ below above, pages = below ++ none :: above →
    room capacity below + capacity * missing below < count →
      room capacity pages + capacity * missing below < count

variable {pages : List (Option ℕ)}

theorem Bounded.tail {page : Option ℕ}
    (hbounded : Bounded capacity (page :: pages)) : Bounded capacity pages :=
  fun held hheld => hbounded held (mem_cons_of_mem _ hheld)

/-! ## One placement -/

/-- What the pages can still take: free entries and pages to buy. -/
def space (capacity : ℕ) (pages : List (Option ℕ)) : ℕ :=
  room capacity pages + capacity * missing pages

@[simp]
theorem space_nil : space capacity [] = 0 := by
  simp [space, room, missing]

@[simp]
theorem space_missing (pages : List (Option ℕ)) :
    space capacity (none :: pages) = space capacity pages + capacity := by
  simp only [space, room, missing]
  ring

@[simp]
theorem space_bought (held : ℕ) (pages : List (Option ℕ)) :
    space capacity (some held :: pages) =
      (capacity - held) + space capacity pages := by
  simp only [space, room, missing]
  ring

variable {price : ℕ}

/-- A placement passes over full pages and puts the entry in the first page that
is not full, a missing one being bought. -/
theorem exists_of_place {after : List (Option ℕ)}
    (hplace : place capacity pages = some (after, price)) :
    ∃ full page rest, pages = List.replicate full (some capacity) ++ page :: rest ∧
      after = List.replicate full (some capacity) ++ some (page.getD 0 + 1) :: rest ∧
      page ≠ some capacity ∧ price = if page = none then 1 else 0 := by
  induction pages generalizing after price with
  | nil => simp [place] at hplace
  | cons page pages ih =>
    cases page with
    | none =>
      cases hplace
      exact ⟨0, none, pages, rfl, rfl, nofun, rfl⟩
    | some held =>
      rw [place] at hplace
      split at hplace
      · next hfull =>
          obtain ⟨⟨later, laterPrice⟩, hlater, heq⟩ := Option.map_eq_some_iff.mp hplace
          cases heq
          obtain ⟨full, page, rest, rfl, rfl, hroom, hprice⟩ := ih hlater
          exact ⟨full + 1, page, rest, by simp [replicate_succ, hfull],
            by simp [replicate_succ, hfull], hroom, hprice⟩
      · next hroom =>
          cases hplace
          exact ⟨0, some held, pages, rfl, rfl, by simpa using hroom, rfl⟩

@[simp]
theorem space_full (full : ℕ) (pages : List (Option ℕ)) :
    space capacity (List.replicate full (some capacity) ++ pages) =
      space capacity pages := by
  induction full with
  | zero => rfl
  | succ full ih => simp [replicate_succ, ih]

@[simp]
theorem bought_full (full count : ℕ) (pages : List (Option ℕ)) :
    bought capacity count (List.replicate full (some capacity) ++ pages) =
      bought capacity count pages := by
  induction full with
  | zero => rfl
  | succ full ih => simp [replicate_succ, bought, ih]

section

variable (hcapacity : 0 < capacity)
include hcapacity

/-- A placement fails only when nothing is left. -/
theorem place_eq_none_iff (hbounded : Bounded capacity pages) :
    place capacity pages = none ↔ space capacity pages = 0 := by
  induction pages with
  | nil => simp [place]
  | cons page pages ih =>
    cases page with
    | none =>
      simp only [place, space_missing, reduceCtorEq, false_iff]
      omega
    | some held =>
      have hheld : held ≤ capacity := hbounded held (by simp)
      have htail := ih hbounded.tail
      by_cases hfull : held = capacity
      · simp [place, hfull, htail]
      · simp only [place, hfull, if_false, space_bought, reduceCtorEq, false_iff]
        omega

/-- A placement takes one entry of the space and keeps the pages bounded. -/
theorem place_space {after : List (Option ℕ)}
    (hbounded : Bounded capacity pages)
    (hplace : place capacity pages = some (after, price)) :
    Bounded capacity after ∧ space capacity after + 1 = space capacity pages := by
  obtain ⟨full, page, rest, rfl, rfl, hroom, -⟩ := exists_of_place hplace
  have hheld : page.getD 0 < capacity := by
    cases page with
    | none => exact hcapacity
    | some held =>
      have hle : held ≤ capacity := hbounded held (by simp)
      exact lt_of_le_of_ne hle fun heq => hroom (congrArg some heq)
  constructor
  · intro held hin
    have hold := hbounded held
    grind
  · cases page with
    | none => simp; omega
    | some held => simp at hheld ⊢; omega

/-- The first of several placements buys the first of the pages they reach. -/
theorem bought_succ (count : ℕ) {after : List (Option ℕ)}
    (hbounded : Bounded capacity pages)
    (hplace : place capacity pages = some (after, price)) :
    bought capacity (count + 1) pages = price + bought capacity count after := by
  obtain ⟨full, page, rest, rfl, rfl, hroom, rfl⟩ := exists_of_place hplace
  cases page with
  | none =>
    have hrest : count + 1 - capacity = count - (capacity - 1) := by omega
    simp [bought, hrest, add_comm]
  | some held =>
    have hle : held ≤ capacity := hbounded held (by simp)
    have hne : held ≠ capacity := fun heq => hroom (congrArg some heq)
    have hrest : count + 1 - (capacity - held) = count - (capacity - (held + 1)) := by
      omega
    simp [bought, hrest]

/-! ## Several placements -/

/-- Several placements fail exactly when they are more than the space. -/
theorem placeMany_eq_none_iff (count : ℕ) (hbounded : Bounded capacity pages) :
    placeMany capacity count pages = none ↔ space capacity pages < count := by
  induction count generalizing pages with
  | zero => simp [placeMany]
  | succ count ih =>
    cases hplace : place capacity pages with
    | none =>
      have hspace := (place_eq_none_iff hcapacity hbounded).mp hplace
      simp [placeMany, hplace, hspace]
    | some first =>
      obtain ⟨hafter, hspace⟩ := place_space hcapacity hbounded hplace
      simp only [placeMany, hplace, Option.bind_some, Option.map_eq_none_iff, ih hafter]
      omega

/-- Several placements buy the missing pages they reach. -/
theorem placeMany_bought {count : ℕ} {after : List (Option ℕ)}
    (hbounded : Bounded capacity pages)
    (hplace : placeMany capacity count pages = some (after, price)) :
    price = bought capacity count pages := by
  induction count generalizing pages after price with
  | zero =>
    obtain ⟨rfl, rfl⟩ := hplace
    have hzero : ∀ pages : List (Option ℕ), bought capacity 0 pages = 0 := by
      intro pages
      induction pages with
      | nil => rfl
      | cons page pages ih => cases page <;> simp [bought, ih]
    exact (hzero pages).symm
  | succ count ih =>
    simp only [placeMany, Option.bind_eq_some_iff, Option.map_eq_some_iff] at hplace
    obtain ⟨⟨middle, firstPrice⟩, hfirst, ⟨last, restPrice⟩, hrest, rfl, rfl⟩ :=
      hplace
    obtain ⟨hmiddle, -⟩ := place_space hcapacity hbounded hfirst
    rw [bought_succ hcapacity count hbounded hfirst, ih hmiddle hrest]

/-- No placement buys more than one page. -/
theorem bought_le_count (count : ℕ)
    (pages : List (Option ℕ)) : bought capacity count pages ≤ count := by
  induction pages generalizing count with
  | nil => exact Nat.zero_le _
  | cons page pages ih =>
    cases page with
    | some held =>
      exact (ih (count - (capacity - held))).trans (Nat.sub_le _ _)
    | none =>
      by_cases hcount : count = 0
      · simp [bought, hcount]
      · have hrest := ih (count - capacity)
        simp only [bought, hcount, if_false]
        omega

end

/-! ## The estimate against the placements -/

/-- A bought page shifts the count the later pages see. -/
theorem noHoleReached_bought (count held : ℕ) (pages : List (Option ℕ)) :
    NoHoleReached capacity count (some held :: pages) ↔
      NoHoleReached capacity (count - (capacity - held)) pages := by
  constructor
  · intro hholes below above hpages hreached
    have hlater := hholes (some held :: below) above (by simp [hpages])
    simp only [room, missing] at hlater
    omega
  · intro hholes below above hpages hreached
    cases below with
    | nil => simp at hpages
    | cons page below =>
      simp only [cons_append, cons.injEq] at hpages
      obtain ⟨rfl, hpages⟩ := hpages
      simp only [room, missing] at hreached ⊢
      have hlater := hholes below above hpages (by omega)
      omega

/-- A missing page that is reached must be needed, and the later pages see a
page less. -/
theorem noHoleReached_missing (count : ℕ) (pages : List (Option ℕ)) :
    NoHoleReached capacity count (none :: pages) ↔
      (0 < count → room capacity pages < count) ∧
        NoHoleReached capacity (count - capacity) pages := by
  constructor
  · intro hholes
    constructor
    · intro hcount
      simpa [room, missing] using hholes [] pages rfl
        (by simpa [room, missing] using hcount)
    intro below above hpages hreached
    have hlater := hholes (none :: below) above (by simp [hpages])
    simp only [room, missing, mul_add] at hlater
    omega
  · rintro ⟨hfirst, hholes⟩ below above hpages hreached
    cases below with
    | nil =>
      simpa [room, missing] using hfirst (by simpa [room, missing] using hreached)
    | cons page below =>
      simp only [cons_append, cons.injEq] at hpages
      obtain ⟨rfl, hpages⟩ := hpages
      simp only [room, missing, mul_add] at hreached ⊢
      have hlater := hholes below above hpages (by omega)
      omega

/-- A page bought because the free entries do not suffice is counted by the
estimate. -/
theorem estimate_missing (hcapacity : 0 < capacity) {count : ℕ}
    (hneeded : room capacity pages < count) :
    estimate capacity count (none :: pages) =
      estimate capacity (count - capacity) pages + 1 := by
  simp only [estimate, room]
  rw [← Nat.add_div_right _ hcapacity]
  by_cases hwhole : room capacity pages + capacity ≤ count
  · congr 1
    omega
  · have hsmall : count - capacity - room capacity pages = 0 := by omega
    rw [Nat.div_eq_of_lt_le (k := 1) (by omega) (by omega),
      Nat.div_eq_of_lt_le (k := 1) (by omega) (by omega)]

/-- The estimate is never above what the placements buy, and it is what they
buy exactly when no hole is reached. -/
theorem estimate_eq_bought_iff (hcapacity : 0 < capacity) {count : ℕ}
    (hfits : count ≤ space capacity pages) :
    estimate capacity count pages = bought capacity count pages ↔
      NoHoleReached capacity count pages := by
  induction pages generalizing count with
  | nil =>
    have hcount : count = 0 := by simpa using hfits
    refine iff_of_true (Nat.div_eq_of_lt (by omega)) ?_
    intro below above hpages
    simp at hpages
  | cons page pages ih =>
    cases page with
    | some held =>
      rw [estimate, room, ← Nat.sub_sub, noHoleReached_bought]
      exact ih (by simp only [space_bought] at hfits; omega)
    | none =>
      have htail :=
        @ih (count - capacity) (by simp only [space_missing] at hfits; omega)
      rw [noHoleReached_missing, ← htail]
      by_cases hcount : count = 0
      · subst hcount
        have hzero : ∀ pages : List (Option ℕ), estimate capacity 0 pages = 0 :=
          fun pages => by
          simp [estimate, hcapacity]
        simp only [hzero, bought, if_true, true_iff] at htail ⊢
        exact ⟨by omega, htail.mpr fun below above _ hreached => by omega⟩
      · by_cases hneeded : room capacity pages < count
        · rw [estimate_missing hcapacity hneeded]
          simp [bought, hcount, hneeded]
        · have hsmall : estimate capacity count (none :: pages) = 0 := by
            simp only [estimate, room]
            exact Nat.div_eq_of_lt (by omega)
          simp only [bought, hcount, if_false]
          refine iff_of_false (by omega) ?_
          rintro ⟨hfirst, -⟩
          exact hneeded (hfirst (by omega))

theorem missing_le_append (below above : List (Option ℕ)) :
    missing below ≤ missing (below ++ above) := by
  induction below with
  | nil => exact Nat.zero_le _
  | cons page below ih =>
    cases page <;> simpa [missing] using ih

/-- A count beyond the space reaches no page it could do without. -/
theorem noHoleReached_of_space_lt {count : ℕ} (hcount : space capacity pages < count) :
    NoHoleReached capacity count pages := by
  intro below above hpages _
  have hmissing : missing below ≤ missing pages :=
    hpages ▸ missing_le_append below _
  have := Nat.mul_le_mul_left capacity hmissing
  simp only [space] at hcount
  omega

/-- The estimate exceeds the missing pages exactly when the count exceeds the
space. -/
theorem missing_lt_estimate_iff (hcapacity : 0 < capacity) (count : ℕ)
    (pages : List (Option ℕ)) :
    missing pages < estimate capacity count pages ↔ space capacity pages < count := by
  simp only [estimate, space, Nat.lt_iff_add_one_le]
  rw [Nat.le_div_iff_mul_le hcapacity]
  rw [add_mul, mul_comm (missing pages)]
  omega

end Redoubt.FirstFit
