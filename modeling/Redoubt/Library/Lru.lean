import Mathlib

/-!
# Least recently used out first

A cache of tagged entries with the time of their last use.  A property that every entry
had when it was kept holds of every entry found later; and a run of entries no longer
than the cache is never put out by its own later entries.
-/

namespace Redoubt

open List

/-- One place of a cache: what it holds, under which tag, and when it was last used. -/
structure Lru.Entry (α : Type) where
  tag : Option ℕ := none
  used : ℕ := 0
  value : α

/-- The places, and a clock that ticks at each use. -/
structure Lru (α : Type) where
  entries : List (Lru.Entry α)
  clock : ℕ := 0

namespace Lru

variable {α : Type} (c : Lru α)

def empty (n : ℕ) (value : α) : Lru α :=
  { entries := List.replicate n { value := value } }

def cap : ℕ := c.entries.length

def holds (n : ℕ) : Bool := c.entries.any fun e => e.tag == some n

/-- The place that holds `n`, marked used. -/
def find (n : ℕ) : Option ℕ × Lru α :=
  match c.entries.findIdx? fun e => e.tag == some n with
  | none => (none, c)
  | some i =>
    (some i, { entries := c.entries.modify i fun e => { e with used := c.clock + 1 }
               clock := c.clock + 1 })

def value? (i : ℕ) : Option α := c.entries[i]?.map Entry.value

/-- Free places come before held ones, and those before what was used after them. -/
def Entry.age (e : Entry α) : Bool ×ₗ ℕ := toLex (e.tag.isSome, e.used)

/-- A free place if there is one, else the least recently used. -/
def oldest : ℕ := ((c.entries.zipIdx.argmin fun p => p.1.age).map Prod.snd).getD 0

/-- The place to fill next, emptied. -/
def victim : ℕ × Lru α :=
  (c.oldest,
    { c with entries := c.entries.modify c.oldest fun e => { e with tag := none } })

def fill (i : ℕ) (value : α) : Lru α :=
  { c with entries := c.entries.modify i fun e => { e with value := value } }

def keep (i n : ℕ) : Lru α :=
  { entries := c.entries.modify i fun e => { e with tag := some n, used := c.clock + 1 }
    clock := c.clock + 1 }

/-- A value kept as `n` in the place to fill next. -/
def store (n : ℕ) (value : α) : Lru α :=
  (c.victim.2.fill c.oldest value).keep c.oldest n

variable {c} {n i : ℕ} {value : α} {e : Entry α}

theorem mem_modify {f : Entry α → Entry α} {entries : List (Entry α)}
    (he : e ∈ entries.modify i f) : e ∈ entries ∨ ∃ e', entries[i]? = some e' ∧
    e = f e' := by
  obtain ⟨j, hj⟩ := mem_iff_getElem?.mp he
  by_cases hij : i = j
  · subst hij
    rw [getElem?_modify_eq] at hj
    obtain ⟨e', he', rfl⟩ := Option.map_eq_some_iff.mp hj
    exact Or.inr ⟨e', he', rfl⟩
  · rw [getElem?_modify_ne _ _ hij] at hj
    exact Or.inl (mem_of_getElem? hj)

/-! ### What is held -/

theorem holds_iff : c.holds n = true ↔ ∃ e ∈ c.entries, e.tag = some n := by
  rw [holds, any_eq_true]
  exact exists_congr fun e => and_congr_right fun _ => beq_iff_eq

theorem find_of_holds (hholds : c.holds n = true) : ∃ i, (c.find n).1 = some i := by
  rw [find]
  cases hfind : c.entries.findIdx? fun e => e.tag == some n with
  | some i => exact ⟨i, rfl⟩
  | none =>
    obtain ⟨e, he, htag⟩ := holds_iff.mp hholds
    have hnot := findIdx?_eq_none_iff.mp hfind e he
    rw [htag] at hnot
    simp at hnot

theorem find_spec (hfind : (c.find n).1 = some i) :
    ∃ e, c.entries[i]? = some e ∧ e.tag = some n ∧
      (c.find n).2.value? i = some e.value := by
  rw [find] at hfind ⊢
  cases hidx : c.entries.findIdx? fun e => e.tag == some n with
  | none =>
    rw [hidx] at hfind
    exact nomatch hfind
  | some j =>
    rw [hidx] at hfind
    obtain rfl := Option.some.inj hfind
    obtain ⟨hlt, htag, -⟩ := findIdx?_eq_some_iff_getElem.mp hidx
    refine ⟨c.entries[j], getElem?_eq_getElem hlt, beq_iff_eq.mp htag, ?_⟩
    simp [value?, hlt]

theorem holds_of_find (hfind : (c.find n).1 = some i) : c.holds n = true := by
  obtain ⟨e, he, htag, -⟩ := find_spec hfind
  exact holds_iff.mpr ⟨e, mem_of_getElem? he, htag⟩

/-- Every held entry is as `P` says. -/
def Valid (P : ℕ → α → Prop) (c : Lru α) : Prop :=
  ∀ e ∈ c.entries, ∀ n, e.tag = some n → P n e.value

/-- Place `i` holds nothing. -/
def Free (c : Lru α) (i : ℕ) : Prop := ∀ e, c.entries[i]? = some e → e.tag = none

variable {P : ℕ → α → Prop}

theorem valid_empty (n : ℕ) (value : α) : Valid P (empty n value) := by
  intro e he n htag
  rw [eq_of_mem_replicate he] at htag
  exact nomatch htag

theorem Valid.find (hvalid : Valid P c) (n : ℕ) : Valid P (c.find n).2 := by
  rw [Lru.find]
  split
  · exact hvalid
  · intro e he m htag
    rcases mem_modify he with he | ⟨e', he', rfl⟩
    · exact hvalid e he m htag
    · exact hvalid e' (mem_of_getElem? he') m htag

theorem Valid.found (hvalid : Valid P c) (hfind : (c.find n).1 = some i) :
    ∃ value, (c.find n).2.value? i = some value ∧ P n value := by
  obtain ⟨e, he, htag, hvalue⟩ := find_spec hfind
  exact ⟨e.value, hvalue, hvalid e (mem_of_getElem? he) n htag⟩

theorem Valid.victim (hvalid : Valid P c) : Valid P c.victim.2 := by
  intro e he n htag
  rcases mem_modify he with he | ⟨e', he', rfl⟩
  · exact hvalid e he n htag
  · exact nomatch htag

theorem free_victim (c : Lru α) : Free c.victim.2 c.oldest := by
  intro e he
  rw [Lru.victim, getElem?_modify_eq] at he
  obtain ⟨e', -, rfl⟩ := Option.map_eq_some_iff.mp he
  rfl

theorem Valid.fill (hvalid : Valid P c) (hfree : Free c i) (value : α) :
    Valid P (c.fill i value) := by
  intro e he n htag
  rcases mem_modify he with he | ⟨e', he', rfl⟩
  · exact hvalid e he n htag
  · have hnone : e'.tag = none := hfree e' he'
    exact nomatch hnone.symm.trans htag

theorem eq_of_value?_fill {value' : α}
    (hvalue : (c.fill i value).value? i = some value') :
    value' = value := by
  rw [value?, Lru.fill, getElem?_modify_eq] at hvalue
  obtain ⟨e, he, rfl⟩ := Option.map_eq_some_iff.mp hvalue
  obtain ⟨e', -, rfl⟩ := Option.map_eq_some_iff.mp he
  rfl

theorem Valid.keep (hvalid : Valid P c)
    (hvalue : ∀ value, c.value? i = some value → P n value) :
    Valid P (c.keep i n) := by
  intro e he m htag
  rcases mem_modify he with he | ⟨e', he', rfl⟩
  · exact hvalid e he m htag
  · obtain rfl : n = m := Option.some.inj htag
    exact hvalue e'.value (by rw [value?, he']; rfl)

@[simp] theorem cap_find (c : Lru α) (n : ℕ) : (c.find n).2.cap = c.cap := by
  rw [Lru.find]
  split
  · rfl
  · exact length_modify _ _ _

@[simp] theorem cap_victim (c : Lru α) : c.victim.2.cap = c.cap := length_modify _ _ _

@[simp] theorem cap_fill (c : Lru α) (i : ℕ) (value : α) :
    (c.fill i value).cap = c.cap :=
  length_modify _ _ _

@[simp] theorem cap_keep (c : Lru α) (i n : ℕ) : (c.keep i n).cap = c.cap :=
  length_modify _ _ _

@[simp] theorem cap_store (c : Lru α) (n : ℕ) (value : α) :
    (c.store n value).cap = c.cap := by
  rw [store, cap_keep, cap_fill, cap_victim]

/-! ### A run is not put out -/

/-- No entry was used after now. -/
def InTime (c : Lru α) : Prop := ∀ e ∈ c.entries, e.used ≤ c.clock

theorem inTime_empty (n : ℕ) (value : α) : InTime (empty n value) := by
  intro e he
  rw [eq_of_mem_replicate he]
  exact le_rfl

theorem InTime.find (htime : InTime c) (n : ℕ) : InTime (c.find n).2 := by
  rw [Lru.find]
  split
  · exact htime
  · intro e he
    rcases mem_modify he with he | ⟨e', -, rfl⟩
    · exact (htime e he).trans (Nat.le_succ _)
    · exact le_rfl

theorem store_eq (c : Lru α) (n : ℕ) (value : α) : c.store n value =
    { entries := c.entries.modify c.oldest fun _ =>
        { tag := some n, used := c.clock + 1, value := value }
      clock := c.clock + 1 } := by
  rw [store, Lru.keep, Lru.fill, Lru.victim, modify_modify_eq, modify_modify_eq]
  rfl

theorem InTime.store (htime : InTime c) (n : ℕ) (value : α) :
    InTime (c.store n value) := by
  rw [store_eq]
  intro e he
  rcases mem_modify he with he | ⟨e', -, rfl⟩
  · exact (htime e he).trans (Nat.le_succ _)
  · exact le_rfl

theorem Valid.store (hvalid : Valid P c) (hvalue : P n value) :
    Valid P (c.store n value) := by
  rw [store_eq]
  intro e he m htag
  rcases mem_modify he with he | ⟨e', -, rfl⟩
  · exact hvalid e he m htag
  · obtain rfl : n = m := Option.some.inj htag
    exact hvalue

theorem oldest_spec (hpos : 0 < c.cap) :
    ∃ e, c.entries[c.oldest]? = some e ∧ ∀ e' ∈ c.entries, e.age ≤ e'.age := by
  cases hmin : c.entries.zipIdx.argmin fun p => p.1.age with
  | none =>
    rw [argmin_eq_none, zipIdx_eq_nil_iff] at hmin
    rw [cap, hmin] at hpos
    exact absurd hpos (lt_irrefl _)
  | some p =>
    have hmem := mem_zipIdx_iff_getElem?.mp (argmin_mem hmin)
    rw [oldest, hmin]
    refine ⟨p.1, hmem, fun e' he' => ?_⟩
    obtain ⟨j, hj⟩ := mem_iff_getElem?.mp he'
    have hother : (e', j) ∈ c.entries.zipIdx := mem_zipIdx_iff_getElem?.mpr hj
    exact le_of_mem_argmin (f := fun p : Entry α × ℕ => p.1.age) hother hmin

/-- Since `start`, the entries `run` were used and are held, and no others were used. -/
structure Recent (start : ℕ) (run : List ℕ) (c : Lru α) : Prop where
  held : ∀ n ∈ run, ∃ e ∈ c.entries, e.tag = some n ∧ start < e.used
  few : (c.entries.countP fun e => start < e.used) ≤ run.length
  start_le : start ≤ c.clock

theorem recent_nil (htime : InTime c) : Recent c.clock [] c := by
  refine ⟨fun n hn => absurd hn not_mem_nil, ?_, le_rfl⟩
  rw [length_nil, Nat.le_zero, countP_eq_zero]
  intro e he hused
  exact absurd (of_decide_eq_true hused) (htime e he).not_gt

/-- The place to fill is none of a run shorter than the cache. -/
theorem Recent.oldest {start : ℕ} {run : List ℕ} (hrecent : Recent start run c)
    (hroom : run.length < c.cap) :
    ∃ e, c.entries[c.oldest]? = some e ∧ (e.tag = none ∨ e.used ≤ start) := by
  obtain ⟨e, he, hleast⟩ := oldest_spec (Nat.zero_lt_of_lt hroom)
  refine ⟨e, he, or_iff_not_imp_left.mpr fun htag => ?_⟩
  -- some place was not used since: fewer were than there are
  have hcount : (c.entries.countP fun e => start < e.used) < c.entries.length :=
    hrecent.few.trans_lt hroom
  obtain ⟨e', he', hold⟩ : ∃ e' ∈ c.entries, ¬ start < e'.used := by
    by_contra hall
    push Not at hall
    rw [countP_eq_length.mpr fun e' he' => decide_eq_true (hall e' he')] at hcount
    exact lt_irrefl _ hcount
  rcases Prod.Lex.toLex_le_toLex.mp (hleast e' he') with hfree | ⟨hsame, hused⟩
  · rw [Option.isSome_iff_ne_none.mpr htag] at hfree
    exact absurd hfree (Bool.le_true _).not_gt
  · exact hused.trans (Nat.le_of_not_lt hold)

theorem countP_modify_le (p : Entry α → Bool) (f : Entry α → Entry α)
    (entries : List (Entry α))
    (i : ℕ) : (entries.modify i f).countP p ≤ entries.countP p + 1 := by
  induction entries generalizing i with
  | nil => simp
  | cons e rest ih =>
    cases i with
    | zero =>
      rw [modify_zero_cons, countP_cons, countP_cons]
      split_ifs <;> omega
    | succ i =>
      have hrest := ih i
      rw [modify_succ_cons, countP_cons, countP_cons]
      omega

theorem Recent.store {start : ℕ} {run : List ℕ} (hrecent : Recent start run c)
    (hroom : run.length < c.cap) (n : ℕ) (value : α) :
    Recent start (n :: run) (c.store n value) := by
  obtain ⟨e, he, hold⟩ := hrecent.oldest hroom
  rw [store_eq]
  have hstart : start < c.clock + 1 := Nat.lt_succ_of_le hrecent.start_le
  refine ⟨fun m hm => ?_,
    (countP_modify_le _ _ _ _).trans (Nat.succ_le_succ hrecent.few), hstart.le⟩
  rcases mem_cons.mp hm with rfl | hm
  · refine ⟨⟨some m, c.clock + 1, value⟩, mem_of_getElem? (i := c.oldest) ?_, rfl,
      hstart⟩
    rw [getElem?_modify_eq, he]
    rfl
  · obtain ⟨e', he', htag, hused⟩ := hrecent.held m hm
    obtain ⟨j, hj⟩ := mem_iff_getElem?.mp he'
    have hne : c.oldest ≠ j := by
      rintro rfl
      obtain rfl := Option.some.inj (hj.symm.trans he)
      rcases hold with hold | hold
      · exact nomatch hold.symm.trans htag
      · exact hold.not_gt hused
    exact ⟨e', mem_of_getElem? (by rw [getElem?_modify_ne _ _ hne, hj]), htag, hused⟩

/-- What was used since is still held. -/
theorem Recent.holds {start : ℕ} {run : List ℕ} (hrecent : Recent start run c)
    (hn : n ∈ run) :
    c.holds n = true := by
  obtain ⟨e, he, htag, -⟩ := hrecent.held n hn
  exact holds_iff.mpr ⟨e, he, htag⟩

theorem holds_find (c : Lru α) (n m : ℕ) : (c.find n).2.holds m = c.holds m := by
  rw [Bool.eq_iff_iff, holds_iff, holds_iff, Lru.find]
  split
  · rfl
  · constructor
    · rintro ⟨e, he, htag⟩
      rcases mem_modify he with he | ⟨e', he', rfl⟩
      · exact ⟨e, he, htag⟩
      · exact ⟨e', mem_of_getElem? he', htag⟩
    · rintro ⟨e, he, htag⟩
      obtain ⟨j, hj⟩ := mem_iff_getElem?.mp he
      rename_i i _
      by_cases hij : i = j
      · refine ⟨{ e with used := c.clock + 1 }, mem_of_getElem? (i := i) ?_, htag⟩
        rw [getElem?_modify_eq, hij, hj]
        rfl
      · exact ⟨e, mem_of_getElem? (by rw [getElem?_modify_ne _ _ hij, hj]), htag⟩

end Lru

end Redoubt
