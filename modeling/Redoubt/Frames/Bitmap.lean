import Mathlib

/-!
# The free-frame bitmap

Every free frame of RAM is a set bit of level 0; each level above has a bit for every
word of the level below it, set when that word is not zero, up to a single word.  The
levels stand back to back in one array.  `markFree` writes a frame's bit and the summary
bits above it, and `findFree` goes down from the top word by its lowest (or highest) set
bit.  The bitmap is `Exact` when every bit of every level is what `due` says; `markFree`
keeps that, and with it `findFree` gives the lowest free frame.
-/

namespace Redoubt.Frames

open Function List Option

/-- The number of zero bits below the lowest set bit, 64 for zero. -/
def trailingZeros (word : BitVec 64) : ℕ :=
  ((List.range 64).find? word.getLsbD).getD 64

/-- The number of zero bits above the highest set bit, 64 for zero. -/
def leadingZeros (word : BitVec 64) : ℕ :=
  ((List.range 64).find? fun i => word.getLsbD (63 - i)).getD 64

theorem exists_getLsbD_of_ne_zero {word : BitVec 64} (hword : word ≠ 0#64) :
    ∃ i < 64, word.getLsbD i = true := by
  by_contra hnone
  push Not at hnone
  apply hword
  apply BitVec.eq_of_getLsbD_eq
  intro i hi
  simpa using hnone i hi

theorem ne_zero_of_getLsbD {word : BitVec 64} {i : ℕ} (hbit : word.getLsbD i = true) :
    word ≠ 0#64 := by
  intro hzero
  simp [hzero] at hbit

theorem trailingZeros_spec {word : BitVec 64} (hword : word ≠ 0#64) :
    trailingZeros word < 64 ∧ word.getLsbD (trailingZeros word) = true ∧
      ∀ i < trailingZeros word, word.getLsbD i = false := by
  obtain ⟨i, hi, hbit⟩ := exists_getLsbD_of_ne_zero hword
  have hsome : ((List.range 64).find? word.getLsbD).isSome := by
    rw [find?_isSome]
    exact ⟨i, mem_range.2 hi, hbit⟩
  obtain ⟨low, hlow⟩ := isSome_iff_exists.1 hsome
  have heq : trailingZeros word = low := by rw [trailingZeros, hlow, getD_some]
  have hfound := find?_range_eq_some.1 hlow
  rw [heq]
  refine ⟨mem_range.1 hfound.2.1, hfound.1, fun j hj => ?_⟩
  simpa using hfound.2.2 j hj

theorem leadingZeros_spec {word : BitVec 64} (hword : word ≠ 0#64) :
    63 - leadingZeros word < 64 ∧ word.getLsbD (63 - leadingZeros word) = true := by
  obtain ⟨i, hi, hbit⟩ := exists_getLsbD_of_ne_zero hword
  have hsome : ((List.range 64).find? fun i => word.getLsbD (63 - i)).isSome := by
    rw [find?_isSome]
    exact ⟨63 - i, mem_range.2 (by omega), by
      rwa [show 63 - (63 - i) = i by omega]⟩
  obtain ⟨high, hhigh⟩ := isSome_iff_exists.1 hsome
  have heq : leadingZeros word = high := by rw [leadingZeros, hhigh, getD_some]
  rw [heq]
  exact ⟨by omega, (find?_range_eq_some.1 hhigh).1⟩

/-- Word `old` with bit `bit` set (`free`) or cleared. -/
def markWord (free : Bool) (old : BitVec 64) (bit : ℕ) : BitVec 64 :=
  if free then old ||| (1#64 <<< bit) else old &&& ~~~(1#64 <<< bit)

theorem getLsbD_one_shiftLeft {bit i : ℕ} (hi : i < 64) :
    (1#64 <<< bit).getLsbD i = decide (i = bit) := by
  by_cases heq : i = bit
  · subst heq
    simp [hi]
  · by_cases hlt : i < bit
    · simp [hlt, heq]
    · have hsub : i - bit ≠ 0 := by omega
      simp [heq, hsub]

theorem getLsbD_markWord (free : Bool) (old : BitVec 64) {bit i : ℕ} (hi : i < 64) :
    (markWord free old bit).getLsbD i = if i = bit then free else old.getLsbD i := by
  cases free with
  | false =>
    rw [markWord, if_neg Bool.false_ne_true, BitVec.getLsbD_and, BitVec.getLsbD_not,
      getLsbD_one_shiftLeft hi]
    by_cases heq : i = bit <;> simp [heq, hi]
  | true =>
    rw [markWord, if_pos rfl, BitVec.getLsbD_or, getLsbD_one_shiftLeft hi]
    by_cases heq : i = bit <;> simp [heq]

/-- The entries of each level: a frame each at the bottom, then the words of the level
below. -/
def entries (frames : ℕ) : ℕ → ℕ
  | 0 => frames
  | level + 1 => (entries frames level + 63) / 64

/-- The word each level starts at. -/
def levelStart (frames : ℕ) : ℕ → ℕ
  | 0 => 0
  | level + 1 => levelStart frames level + entries frames (level + 1)

def words (frames level : ℕ) : ℕ :=
  levelStart frames (level + 1) - levelStart frames level

theorem words_eq (frames level : ℕ) :
    words frames level = entries frames (level + 1) := by
  rw [words, levelStart, Nat.add_sub_cancel_left]

theorem levelStart_add_words_le (frames : ℕ) {low high : ℕ} (hlt : low < high) :
    levelStart frames low + entries frames (low + 1) ≤ levelStart frames high := by
  induction high with
  | zero => omega
  | succ high ih =>
    rcases Nat.lt_succ_iff_lt_or_eq.1 hlt with hless | rfl
    · exact Nat.le_add_right_of_le (ih hless)
    · exact le_rfl

/-- Two words of the array are one only when their levels and places are. -/
theorem levelStart_add_inj {frames level level' w w' : ℕ}
    (hw : w < entries frames (level + 1))
    (hw' : w' < entries frames (level' + 1))
    (heq : levelStart frames level + w = levelStart frames level' + w') :
    level = level' ∧ w = w' := by
  rcases lt_trichotomy level level' with hlt | rfl | hgt
  · have hle := levelStart_add_words_le frames hlt
    omega
  · exact ⟨rfl, by omega⟩
  · have hle := levelStart_add_words_le frames hgt
    omega

section Levels

variable (frames : ℕ)

def word (bits : ℕ → BitVec 64) (level w : ℕ) : BitVec 64 :=
  bits (levelStart frames level + w)

def bit (bits : ℕ → BitVec 64) (level entry : ℕ) : Bool :=
  (word frames bits level (entry / 64)).getLsbD (entry % 64)

/-- `mark_free` from level `level` up, `remaining` levels to go: the bit, then the
summary bit above each word that changes between zero and not zero. -/
def markFrom (free : Bool) : ℕ → ℕ → ℕ → (ℕ → BitVec 64) → ℕ → BitVec 64
  | 0, _, _, bits => bits
  | remaining + 1, level, entry, bits =>
    let old := word frames bits level (entry / 64)
    let new := markWord free old (entry % 64)
    let marked := Function.update bits (levelStart frames level + entry / 64) new
    if (old == 0#64) == (new == 0#64) then marked
    else markFrom free remaining (level + 1) (entry / 64) marked

/-- Set (`free`) or clear frame `index`'s bit. -/
def markFree (levels : ℕ) (index : ℕ) (free : Bool) (bits : ℕ → BitVec 64) :
    ℕ → BitVec 64 :=
  markFrom frames free levels 0 index bits

/-- `find_free` from level `level` down, at its entry `entry`. -/
def descend (bits : ℕ → BitVec 64) (highest : Bool) : ℕ → ℕ → Option ℕ
  | 0, entry => some entry
  | level + 1, entry =>
    let word := word frames bits level entry
    if word = 0#64 then none
    else
      let bit := if highest then 63 - leadingZeros word else trailingZeros word
      descend bits highest level (64 * entry + bit)

/-- The lowest free frame, or with `highest` the highest. -/
def findFree (levels : ℕ) (bits : ℕ → BitVec 64) (highest : Bool) : Option ℕ :=
  descend frames bits highest levels 0

/-- What the bit of an entry must say: for a frame, that it is free; for a word of the
level below, that it is not zero.  Past a level's last entry there is nothing to say. -/
def due (free : ℕ → Bool) (bits : ℕ → BitVec 64) : ℕ → ℕ → Bool
  | 0, entry => decide (entry < frames) && free entry
  | level + 1, entry =>
    decide (entry < entries frames (level + 1)) && word frames bits level entry != 0#64

/-- Every bit of every level is due, and no other. -/
def Exact (levels : ℕ) (free : ℕ → Bool) (bits : ℕ → BitVec 64) : Prop :=
  ∀ level < levels, ∀ entry, entry / 64 < entries frames (level + 1) →
    bit frames bits level entry = due frames free bits level entry

/-- As `Exact`, except that entry `entry` of level `level` is still to become
`value`. -/
def ExactBut (levels : ℕ) (free : ℕ → Bool) (level entry : ℕ) (value : Bool)
    (bits : ℕ → BitVec 64) : Prop :=
  (∀ l < levels, ∀ e, e / 64 < entries frames (l + 1) → (l, e) ≠ (level, entry) →
    bit frames bits l e = due frames free bits l e) ∧
  (level < levels → entry < entries frames level ∧
    due frames free bits level entry = value)

variable {frames} {levels : ℕ} {free : ℕ → Bool} {bits : ℕ → BitVec 64}

theorem div_lt_entries {level entry : ℕ} (hentry : entry < entries frames level) :
    entry / 64 < entries frames (level + 1) := by
  rw [entries]
  omega

theorem word_update {level w level' w' : ℕ} (new : BitVec 64)
    (hw : w < entries frames (level + 1))
    (hw' : w' < entries frames (level' + 1)) :
    word frames (update bits (levelStart frames level + w) new) level' w' =
      if level' = level ∧ w' = w then new else word frames bits level' w' := by
  rw [word, update_apply]
  by_cases heq : level' = level ∧ w' = w
  · rw [if_pos heq, if_pos (by rw [heq.1, heq.2])]
  · rw [if_neg heq, if_neg fun hsame => heq (levelStart_add_inj hw' hw hsame), word]

/-- One write of the bit at `(level, entry)`: every other bit stays. -/
theorem bit_update {level entry l e : ℕ} (value : Bool)
    (hentry : entry < entries frames level)
    (he : e / 64 < entries frames (l + 1)) :
    bit frames (update bits (levelStart frames level + entry / 64)
        (markWord value (word frames bits level (entry / 64)) (entry % 64))) l e =
      if (l, e) = (level, entry) then value else bit frames bits l e := by
  rw [bit, word_update _ (div_lt_entries hentry) he]
  by_cases hword : l = level ∧ e / 64 = entry / 64
  · obtain ⟨rfl, hdiv⟩ := hword
    rw [if_pos ⟨rfl, hdiv⟩, getLsbD_markWord _ _ (Nat.mod_lt _ (by decide))]
    by_cases hmod : e % 64 = entry % 64
    · have heq : e = entry := by omega
      rw [if_pos hmod, if_pos (by rw [heq])]
    · rw [if_neg hmod, if_neg (by rintro ⟨⟩; exact hmod rfl), bit, hdiv]
  · rw [if_neg hword, if_neg (by rintro ⟨⟩; exact hword ⟨rfl, rfl⟩), bit]

/-- One write changes what is due only one level up, for the word it wrote. -/
theorem due_update {level entry l e : ℕ} (new : BitVec 64)
    (hentry : entry < entries frames level)
    (hne : (l, e) ≠ (level + 1, entry / 64)) :
    due frames free (update bits (levelStart frames level + entry / 64) new) l e =
      due frames free bits l e := by
  cases l with
  | zero => rfl
  | succ l =>
    rw [due, due]
    by_cases he : e < entries frames (l + 1)
    · rw [word_update new (div_lt_entries hentry) he, if_neg]
      rintro ⟨rfl, rfl⟩
      exact hne rfl
    · simp [he]

theorem due_above_update {level entry : ℕ} (new : BitVec 64)
    (hentry : entry < entries frames level) :
    due frames free (update bits (levelStart frames level + entry / 64) new)
      (level + 1) (entry / 64) = (new != 0#64) := by
  have hdiv := div_lt_entries hentry
  rw [due, word_update new hdiv hdiv]
  simp [hdiv]

/-- A word that a mark changes between zero and not zero now says what was marked. -/
theorem markWord_ne_zero (value : Bool) (old : BitVec 64) {place : ℕ}
    (hplace : place < 64)
    (hchanged : ((old == 0#64) == (markWord value old place == 0#64)) = false) :
    (markWord value old place != 0#64) = value := by
  cases value with
  | true =>
    have hbit : (markWord true old place).getLsbD place = true := by
      rw [getLsbD_markWord _ _ hplace, if_pos rfl]
    simpa using ne_zero_of_getLsbD hbit
  | false =>
    by_contra hne
    have hnew : markWord false old place ≠ 0#64 := by simpa using hne
    have hold : old = 0#64 := by simpa [hnew] using hchanged
    apply hnew
    rw [hold, markWord, if_neg Bool.false_ne_true, BitVec.zero_and]

/-- The loop of `mark_free`: it pays what is still due, level by level. -/
theorem exact_markFrom {remaining level entry : ℕ} {value : Bool} {bits : ℕ → BitVec 64}
    (hlevels : level + remaining = levels)
    (hbut : ExactBut frames levels free level entry value bits) :
    Exact frames levels free (markFrom frames value remaining level entry bits) := by
  induction remaining generalizing level entry bits with
  | zero =>
    intro l hl e he
    exact hbut.1 l hl e he (by rintro ⟨⟩; omega)
  | succ remaining ih =>
    obtain ⟨hentry, hdue⟩ := hbut.2 (by omega)
    have hdiv := div_lt_entries hentry
    rw [markFrom]
    -- After the write only the summary bit one level up may be wrong.
    have hnext : ∀ l < levels, ∀ e, e / 64 < entries frames (l + 1) →
        (l, e) ≠ (level + 1, entry / 64) →
        bit frames (update bits (levelStart frames level + entry / 64)
            (markWord value (word frames bits level (entry / 64)) (entry % 64))) l e =
          due frames free (update bits (levelStart frames level + entry / 64)
            (markWord value (word frames bits level (entry / 64)) (entry % 64))) l
            e := by
      intro l hl e he hne
      rw [bit_update value hentry he, due_update _ hentry hne]
      by_cases hsame : (l, e) = (level, entry)
      · obtain ⟨rfl, rfl⟩ := Prod.mk.inj hsame
        rw [if_pos rfl, hdue]
      · rw [if_neg hsame, hbut.1 l hl e he hsame]
    split_ifs with hkept
    · intro l hl e he
      by_cases hsame : (l, e) = (level + 1, entry / 64)
      · obtain ⟨rfl, rfl⟩ := Prod.mk.inj hsame
        have hne : (level + 1, entry / 64) ≠ (level, entry) := by
          rintro ⟨⟩
        rw [bit_update value hentry he, if_neg hne, hbut.1 _ hl _ he hne,
          due_above_update _ hentry, due]
        have hiff := beq_iff_eq.1 hkept
        simp only [hdiv, decide_true, Bool.true_and, bne, hiff]
      · exact hnext l hl e he hsame
    · refine ih (by omega) ⟨hnext, fun _ => ⟨hdiv, ?_⟩⟩
      rw [due_above_update _ hentry]
      exact markWord_ne_zero value _ (Nat.mod_lt _ (by decide)) (by simpa using hkept)

/-- Marking a frame keeps the bitmap exact for the set of free frames so changed. -/
theorem exact_markFree {index : ℕ} (value : Bool) (hindex : index < frames)
    (hexact : Exact frames levels free bits) :
    Exact frames levels (update free index value)
      (markFree frames levels index value bits) := by
  apply exact_markFrom (zero_add levels)
  constructor
  · intro l hl e he hne
    rw [hexact l hl e he]
    cases l with
    | zero =>
      have hother : e ≠ index := fun heq => hne (by rw [heq])
      rw [due, due, update_of_ne hother]
    | succ l => rfl
  · intro _
    exact ⟨hindex, by simp [due, hindex]⟩

/-- What is due at an entry is due at the word above it. -/
theorem due_above (hexact : Exact frames levels free bits) {level entry : ℕ}
    (hlevel : level < levels) (hdue : due frames free bits level entry = true) :
    due frames free bits (level + 1) (entry / 64) = true := by
  have hentry : entry < entries frames level := by
    cases level <;> simp [due] at hdue <;> exact hdue.1
  have hdiv := div_lt_entries hentry
  have hbit : bit frames bits level entry = true := by
    rw [hexact level hlevel entry hdiv, hdue]
  simpa [due, hdiv] using ne_zero_of_getLsbD hbit

theorem descend_of_due (hexact : Exact frames levels free bits) (highest : Bool)
    {level entry : ℕ} (hlevel : level ≤ levels)
    (hdue : due frames free bits level entry = true) :
    ∃ index, descend frames bits highest level entry = some index ∧
      due frames free bits 0 index = true ∧
      (highest = false → (∀ e < entry, due frames free bits level e = false) →
        ∀ i < index, due frames free bits 0 i = false) := by
  induction level generalizing entry with
  | zero => exact ⟨entry, rfl, hdue, fun _ hlow => hlow⟩
  | succ level ih =>
    have hboth : entry < entries frames (level + 1) ∧
        word frames bits level entry ≠ 0#64 := by
      simpa [due] using hdue
    obtain ⟨hentry, hword⟩ := hboth
    set place := if highest then 63 - leadingZeros (word frames bits level entry)
      else trailingZeros (word frames bits level entry) with hplace
    have hset : place < 64 ∧ (word frames bits level entry).getLsbD place = true := by
      cases highest with
      | true => exact leadingZeros_spec hword
      | false => exact ⟨(trailingZeros_spec hword).1, (trailingZeros_spec hword).2.1⟩
    have hdiv : (64 * entry + place) / 64 = entry := by omega
    have hmod : (64 * entry + place) % 64 = place := by omega
    have hbelow : due frames free bits level (64 * entry + place) = true := by
      rw [← hexact level hlevel _ (by rwa [hdiv]), bit, hdiv, hmod]
      exact hset.2
    obtain ⟨index, hfound, hindex, hleast⟩ := ih (Nat.le_of_succ_le hlevel) hbelow
    refine ⟨index, ?_, hindex, fun hlowest hlow => hleast hlowest ?_⟩
    · rw [descend, if_neg hword]
      exact hfound
    · intro e he
      by_contra hdue'
      rw [Bool.not_eq_false] at hdue'
      have habove := due_above hexact hlevel hdue'
      rcases lt_or_ge (e / 64) entry with hlt | hge
      · rw [hlow _ hlt] at habove
        exact Bool.false_ne_true habove
      · -- In the same word, below its lowest set bit.
        have hsame : e / 64 = entry := by omega
        have hbit : bit frames bits level e = true := by
          rw [hexact level hlevel e (by rwa [hsame]), hdue']
        have hclear := (trailingZeros_spec hword).2.2 (e % 64)
          (by rw [hplace, hlowest, if_neg Bool.false_ne_true] at he; omega)
        rw [bit, hsame, hclear] at hbit
        exact Bool.false_ne_true hbit

theorem due_top (hexact : Exact frames levels free bits) {level entry : ℕ}
    (hlevel : level ≤ levels)
    (hdue : due frames free bits level entry = true) :
    ∃ e, due frames free bits levels e = true := by
  induction hlevel using Nat.decreasingInduction generalizing entry with
  | self => exact ⟨entry, hdue⟩
  | of_succ level hlt ih => exact ih (due_above hexact hlt hdue)

/-- The top level is one word, as `FreeFrames::sized` asserts. -/
def Topped (frames levels : ℕ) : Prop :=
  0 < levels ∧ entries frames levels = 1

theorem due_top_zero (htop : Topped frames levels) {entry : ℕ}
    (hdue : due frames free bits levels entry = true) : entry = 0 := by
  obtain ⟨hpos, hone⟩ := htop
  cases levels with
  | zero => omega
  | succ level =>
    have hentry : entry < entries frames (level + 1) := by
      have hboth : entry < entries frames (level + 1) ∧
          word frames bits level entry ≠ 0#64 := by
        simpa [due] using hdue
      exact hboth.1
    omega

theorem findFree_of_due (hexact : Exact frames levels free bits)
    (highest : Bool) (hdue : due frames free bits levels 0 = true) :
    ∃ index, findFree frames levels bits highest = some index ∧
      due frames free bits 0 index = true ∧
      (highest = false → ∀ i < index, due frames free bits 0 i = false) := by
  obtain ⟨index, hfound, hindex, hleast⟩ := descend_of_due hexact highest le_rfl hdue
  exact ⟨index, hfound, hindex, fun hlowest => hleast hlowest fun e he =>
    absurd he (Nat.not_lt_zero e)⟩

theorem findFree_of_not_due (htop : Topped frames levels) (highest : Bool)
    (hdue : due frames free bits levels 0 = false) :
    findFree frames levels bits highest = none := by
  obtain ⟨hpos, hone⟩ := htop
  cases levels with
  | zero => omega
  | succ level =>
    have hword : word frames bits level 0 = 0#64 := by simpa [due, hone] using hdue
    rw [findFree, descend, if_pos hword]

/-- A found frame is free, and the lowest one unless the highest was asked for. -/
theorem findFree_some (htop : Topped frames levels)
    (hexact : Exact frames levels free bits)
    {highest : Bool} {index : ℕ}
    (hfound : findFree frames levels bits highest = some index) :
    index < frames ∧ free index = true ∧
      (highest = false → ∀ i < index, free i = false) := by
  cases hdue : due frames free bits levels 0 with
  | false =>
    rw [findFree_of_not_due htop highest hdue] at hfound
    exact absurd hfound (some_ne_none index).symm
  | true =>
    obtain ⟨found, heq, hfree, hleast⟩ := findFree_of_due hexact highest hdue
    obtain rfl : found = index := some.inj (heq.symm.trans hfound)
    have hboth : found < frames ∧ free found = true := by simpa [due] using hfree
    refine ⟨hboth.1, hboth.2, fun hlowest i hi => ?_⟩
    have hnot := hleast hlowest i hi
    simpa [due, lt_trans hi hboth.1] using hnot

/-- No frame is found only when none is free. -/
theorem findFree_none (htop : Topped frames levels)
    (hexact : Exact frames levels free bits)
    {highest : Bool} (hnone : findFree frames levels bits highest = none) :
    ∀ index < frames, free index = false := by
  intro index hindex
  by_contra hfree
  have hbottom : due frames free bits 0 index = true := by
    simpa [due, hindex] using hfree
  obtain ⟨e, he⟩ := due_top hexact (Nat.zero_le levels) hbottom
  have hzero := due_top_zero htop he
  rw [hzero] at he
  obtain ⟨found, hfound, -⟩ := findFree_of_due hexact highest he
  rw [hnone] at hfound
  exact absurd hfound (some_ne_none found).symm

variable (frames) in
/-- What word `w` of level `level` must hold, as the boot builds it. -/
def summary (free : ℕ → Bool) (bits : ℕ → BitVec 64) (level w : ℕ) : BitVec 64 :=
  (List.range 64).foldl
    (fun value b => value |||
      (BitVec.ofBool (due frames free bits level (64 * w + b))).zeroExtend 64 <<< b)
    0#64

variable (frames) in
/-- The boot's pass over the first `count` words of a level. -/
def buildLevel (free : ℕ → Bool) (level count : ℕ) (bits : ℕ → BitVec 64) :
    ℕ → BitVec 64 :=
  (List.range count).foldl (fun bits w =>
      Function.update bits (levelStart frames level + w)
        (summary frames free bits level w)) bits

variable (frames) in
/-- The bitmap as the boot builds it, bottom level first. -/
def build (levels : ℕ) (free : ℕ → Bool) : ℕ → BitVec 64 :=
  (List.range levels).foldl
    (fun bits level => buildLevel frames free level (words frames level) bits) fun _ =>
      0#64

theorem getLsbD_summary {level w i : ℕ} (hi : i < 64) :
    (summary frames free bits level w).getLsbD i =
    due frames free bits level (64 * w + i) := by
  have hfold : ∀ count, ((List.range count).foldl
      (fun value b => value |||
        (BitVec.ofBool (due frames free bits level (64 * w + b))).zeroExtend 64 <<< b)
      0#64).getLsbD i =
        (decide (i < count) && due frames free bits level (64 * w + i)) := by
    intro count
    induction count with
    | zero => simp
    | succ count ih =>
      rw [range_succ, foldl_append, foldl_cons, foldl_nil, BitVec.getLsbD_or, ih]
      rcases lt_trichotomy i count with hlt | rfl | hgt
      · simp [hlt, Nat.lt_succ_of_lt hlt]
      · simp [hi]
      · have hsub : i - count ≠ 0 := by omega
        simp [hsub, Nat.not_lt.2 (Nat.le_of_lt hgt), Nat.not_lt.2 hgt]
  rw [summary, hfold 64, decide_eq_true hi, Bool.true_and]

/-- What is due at a level reads the levels below it only. -/
theorem due_congr {bits' : ℕ → BitVec 64} {level : ℕ}
    (hbelow : ∀ l < level, ∀ w < entries frames (l + 1),
      word frames bits' l w = word frames bits l w) (entry : ℕ) :
    due frames free bits' level entry = due frames free bits level entry := by
  cases level with
  | zero => rfl
  | succ level =>
    rw [due, due]
    by_cases hentry : entry < entries frames (level + 1)
    · rw [hbelow level (Nat.lt_succ_self level) entry hentry]
    · simp [hentry]

theorem summary_congr {bits' : ℕ → BitVec 64} {level : ℕ}
    (hbelow : ∀ l < level, ∀ w < entries frames (l + 1),
      word frames bits' l w = word frames bits l w) (w : ℕ) :
    summary frames free bits' level w = summary frames free bits level w := by
  apply BitVec.eq_of_getLsbD_eq
  intro i hi
  rw [getLsbD_summary hi, getLsbD_summary hi, due_congr hbelow]

theorem word_buildLevel {level count : ℕ} (hcount : count ≤ entries frames (level + 1))
    {l w : ℕ} (hw : w < entries frames (l + 1)) :
    word frames (buildLevel frames free level count bits) l w =
      if l = level ∧ w < count then summary frames free bits level w
      else word frames bits l w := by
  induction count generalizing l w with
  | zero => simp [buildLevel]
  | succ count ih =>
    have hbelow : ∀ l < level, ∀ w < entries frames (l + 1),
        word frames (buildLevel frames free level count bits) l w =
        word frames bits l w := by
      intro l hl w hw
      rw [ih (Nat.le_of_succ_le hcount) hw, if_neg fun hsame => ne_of_lt hl hsame.1]
    rw [buildLevel, range_succ, foldl_append, foldl_cons, foldl_nil,
      ← buildLevel, word_update _ hcount hw, summary_congr hbelow]
    by_cases hsame : l = level ∧ w = count
    · rw [if_pos hsame, if_pos ⟨hsame.1, by omega⟩, hsame.2]
    · rw [if_neg hsame, ih (Nat.le_of_succ_le hcount) hw]
      by_cases hless : l = level ∧ w < count
      · rw [if_pos hless, if_pos ⟨hless.1, by omega⟩]
      · rw [if_neg hless, if_neg fun hboth => hless ⟨hboth.1, by
          omega⟩]

/-- The bitmap the boot builds is exact. -/
theorem exact_build (levels : ℕ) :
    Exact frames levels free (build frames levels free) := by
  have hwords : ∀ level < levels, ∀ w < entries frames (level + 1),
      word frames (build frames levels free) level w =
        summary frames free (build frames levels free) level w := by
    induction levels with
    | zero => intro level hlevel; omega
    | succ levels ih =>
      have hsucc : build frames (levels + 1) free =
          buildLevel frames free levels (words frames levels)
            (build frames levels free) := by
        rw [build, range_succ, foldl_append, foldl_cons, foldl_nil, ← build]
      have hword : ∀ {l w : ℕ}, w < entries frames (l + 1) →
          word frames (build frames (levels + 1) free) l w =
            if l = levels ∧ w < entries frames (levels + 1)
              then summary frames free (build frames levels free) levels w
              else word frames (build frames levels free) l w := by
        intro l w hw
        rw [hsucc, words_eq, word_buildLevel le_rfl hw]
      have hbelow : ∀ l < levels, ∀ w < entries frames (l + 1),
          word frames (build frames (levels + 1) free) l w =
            word frames (build frames levels free) l w := by
        intro l hl w hw
        rw [hword hw, if_neg fun hsame => ne_of_lt hl hsame.1]
      intro level hlevel w hw
      rw [summary_congr fun l hl => hbelow l (by omega), hword hw]
      rcases Nat.lt_succ_iff_lt_or_eq.1 hlevel with hlt | rfl
      · rw [if_neg fun hsame => ne_of_lt hlt hsame.1, ih level hlt w hw]
      · rw [if_pos ⟨rfl, hw⟩]
  intro level hlevel entry hentry
  rw [bit, hwords level hlevel _ hentry, getLsbD_summary (Nat.mod_lt _ (by decide)),
    Nat.div_add_mod]

end Levels

end Redoubt.Frames
