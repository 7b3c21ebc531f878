import Redoubt.Library.Checks

/-!
# What the loader stub maps

`stub/src/lib.rs`: the segments of a hostile image are checked one by one and handed
to the mapping call, on a machine of either width.  The image's headers are whatever
the ELF parser read from it.
-/

namespace Redoubt.Stub

open Checks

def pageSize : ℕ := 4096

def stubEntry : ℕ := 0x1FF00000

def maxPhnum : ℕ := 64

inductive BadImage where
  | malformed | overflow | outOfImage | overlaps | badFlags | wrongMachine | badAlign
  | entryNotExecutable | tooManySegments | outOfLinkRange | wrongType
  deriving DecidableEq, Repr

/-- The width of a machine word, which is also an image's class. -/
inductive Width where
  | w32 | w64
  deriving DecidableEq, Repr

def Width.bits : Width → ℕ
  | w32 => 32
  | w64 => 64

/-- A program header as it was read. -/
structure ProgramHeader where
  type : ℕ
  flags : ℕ
  offset : ℕ
  vaddr : ℕ
  filesz : ℕ
  memsz : ℕ
  align : ℕ

/-- An image's headers as they were read; the program headers may be unreadable. -/
structure Elf where
  machine : ℕ
  width : Width
  type : ℕ
  entry : ℕ
  segments : Option (List ProgramHeader)

structure MemFlags where
  read : Bool
  write : Bool
  execute : Bool
  deriving DecidableEq, Repr

/-- A checked segment, ready to be mapped. -/
structure Segment where
  firstPage : ℕ
  pages : ℕ
  fileOffset : ℕ
  file : List UInt8
  flags : MemFlags

def Segment.stop (s : Segment) : ℕ := s.firstPage + s.pages * pageSize

/-! ### The checks -/

def overlaps (aStart aEnd bStart bEnd : ℕ) : Bool := aStart < bEnd && bStart < aEnd

section Model

variable (width : Width)

def toUsize (v : ℕ) : Except BadImage ℕ :=
  if v < 2 ^ width.bits then .ok v else .error .overflow

def checkedAdd (a b : ℕ) : Except BadImage ℕ := toUsize width (a + b)

def pageAlign (addr : ℕ) : ℕ := addr / pageSize * pageSize

/-- Up to the next page boundary, refused where that would wrap. -/
def pageAlignUp (addr : ℕ) : Except BadImage ℕ := do
  let v ← checkedAdd width addr (pageSize - 1)
  .ok (pageAlign v)

/-- What a plan is made for: the image and where it is, and the page ranges no segment
may meet. -/
structure Given where
  width : Width
  image : List UInt8
  imageAddr : ℕ
  exclude : List (ℕ × ℕ)

variable (g : Given)

/-- One segment, checked against its image and `exclude`. -/
def validate (header : ProgramHeader) : Except BadImage Segment := do
  let vaddr ← toUsize g.width header.vaddr
  let memsz ← toUsize g.width header.memsz
  let filesz ← toUsize g.width header.filesz
  let offset ← toUsize g.width header.offset
  let align ← toUsize g.width header.align
  refuse (1 < align ∧ (2 ^ align.log2 ≠ align ∨ vaddr % align ≠ offset % align))
    .badAlign
  refuse (memsz < filesz) .outOfImage
  let segEnd ← checkedAdd g.width vaddr memsz
  let fileEnd ← checkedAdd g.width offset filesz
  refuse (g.image.length < fileEnd) .outOfImage
  let firstPage := pageAlign vaddr
  let pageEnd ← pageAlignUp g.width segEnd
  refuse (firstPage < pageSize ∨ stubEntry < pageEnd) .outOfLinkRange
  let imageEnd ← checkedAdd g.width g.imageAddr g.image.length
  let imageLast ← pageAlignUp g.width imageEnd
  refuse (overlaps firstPage pageEnd (pageAlign g.imageAddr) imageLast ∨
    g.exclude.any fun range => overlaps firstPage pageEnd range.1 range.2) .overlaps
  let flags : MemFlags :=
    ⟨header.flags.testBit 2, header.flags.testBit 1, header.flags.testBit 0⟩
  refuse ((flags.write ∧ flags.execute) ∨ flags = ⟨false, false, false⟩ ∨
    (flags.write ∧ ¬ flags.read))
    .badFlags
  .ok
    { firstPage
      pages := (pageEnd - firstPage) / pageSize
      fileOffset := vaddr - firstPage
      file := (g.image.drop offset).take filesz
      flags }

/-- The next segment, checked again against those before it. -/
def validateNext (before : List ProgramHeader) (header : ProgramHeader) :
    Except BadImage Segment := do
  let segment ← validate g header
  each before fun _ other => do
    let otherSegment ← validate g other
    refuse (overlaps segment.firstPage segment.stop otherSegment.firstPage
      otherSegment.stop) .overlaps
  .ok segment

variable {E : Type} (onSegment : List Segment → Option E) (entry : ℕ)

/-- The segments from here on: those handed out, and how it ended.  What the mapping
call answers may depend on all it was handed. -/
def planFrom (before : List ProgramHeader) (handed : List Segment) (executable : Bool) :
    List ProgramHeader → List Segment × Except (BadImage ⊕ E) ℕ
  | [] => (handed, if executable then .ok entry else .error (.inl .entryNotExecutable))
  | header :: rest =>
    match validateNext g before header with
    | .error e => (handed, .error (.inl e))
    | .ok segment =>
      match onSegment (handed ++ [segment]) with
      | some e => (handed ++ [segment], .error (.inr e))
      | none => planFrom (before ++ [header]) (handed ++ [segment])
          (executable || (segment.flags.execute && segment.firstPage ≤ entry && entry <
            segment.stop)) rest

def emRiscv : ℕ := 243
def etExec : ℕ := 2
def ptLoad : ℕ := 1

/-- The image's headers, checked as a whole. -/
def headers (elf : Option Elf) : Except BadImage (ℕ × List ProgramHeader) :=
  match elf with
  | none => .error .malformed
  | some elf => do
      refuse (elf.machine ≠ emRiscv ∨ elf.width ≠ width) .wrongMachine
      refuse (elf.type ≠ etExec) .wrongType
      let entry ← toUsize width elf.entry
      match elf.segments with
      | none => .error .malformed
      | some segments => do
          refuse (maxPhnum < segments.length) .tooManySegments
          .ok (entry, segments.filter fun s => s.type = ptLoad ∧ 0 < s.memsz)

/-- The segments handed to the mapping call before the plan ends, and its end. -/
def plan (elf : Option Elf) : List Segment × Except (BadImage ⊕ E) ℕ :=
  match headers g.width elf with
  | .error e => ([], .error (.inl e))
  | .ok (entry, loads) => planFrom g onSegment entry [] [] false loads

end Model

/-! ### What a segment may be -/

/-- A segment's addresses. -/
def Segment.range (s : Segment) : Set ℕ := Set.Ico s.firstPage s.stop

/-- A segment that an image may have mapped. -/
structure Segment.Allowed (g : Given) (s : Segment) : Prop where
  aligned : s.firstPage % pageSize = 0
  linked : s.range ⊆ Set.Ico pageSize stubEntry
  off_image : ∀ a ∈ s.range, ∀ b ∈ Set.Ico g.imageAddr (g.imageAddr + g.image.length),
    a / pageSize ≠ b / pageSize
  off_exclude : ∀ range ∈ g.exclude, Disjoint s.range (Set.Ico range.1 range.2)
  inside : s.file <:+: g.image
  fits : s.fileOffset + s.file.length ≤ s.pages * pageSize
  flagged : (s.flags.read ∨ s.flags.execute) ∧ ¬ (s.flags.write ∧ s.flags.execute)

variable {width : Width} {g : Given}

theorem disjoint_of_not_overlaps {a b c d : ℕ} (h : ¬ overlaps a b c d = true) :
    Disjoint (Set.Ico a b) (Set.Ico c d) := by
  rw [overlaps, Bool.and_eq_true, decide_eq_true_eq, decide_eq_true_eq] at h
  rw [Set.disjoint_left]
  rintro x ⟨hax, hxb⟩ ⟨hcx, hxd⟩
  omega

theorem toUsize_eq_ok {v n : ℕ} (h : toUsize width v = .ok n) : n = v := by
  rw [toUsize] at h
  split at h
  · exact (Except.ok.inj h).symm
  · cases h

theorem pageAlignUp_eq_ok {addr n : ℕ} (h : pageAlignUp width addr = .ok n) :
    n = (addr + (pageSize - 1)) / pageSize * pageSize := by
  obtain ⟨v, hv, heq⟩ := bind_eq_ok_iff.mp h
  rw [← toUsize_eq_ok hv]
  exact (Except.ok.inj heq).symm

/-- A checked segment is allowed. -/
theorem validate_allowed {header : ProgramHeader} {s : Segment}
    (h : validate g header = .ok s) : s.Allowed g := by
  simp only [validate, bind_eq_ok_iff] at h
  obtain ⟨vaddr, -, memsz, -, filesz, -, offset, -, align, -, _, -, _, hsize, segEnd,
    hsegEnd, fileEnd, hfileEnd,
    _, hfile, pageEnd, hpageEnd, _, hrange, imageEnd, himageEnd, imageLast, himageLast,
    _, hover, _, hflags, heq⟩ := h
  cases heq
  rw [refuse_eq_ok] at hsize hfile hrange hover hflags
  have hsegEnd := toUsize_eq_ok hsegEnd
  have himageEnd := toUsize_eq_ok himageEnd
  have hpageEnd := pageAlignUp_eq_ok hpageEnd
  have himageLast := pageAlignUp_eq_ok himageLast
  rw [not_or] at hrange hover hflags
  simp only [pageAlign, pageSize] at hpageEnd himageLast hrange hover ⊢
  -- The end of the pages is the rounded end of the segment.
  have hstop : vaddr / 4096 * 4096 + (pageEnd - vaddr / 4096 * 4096) / 4096 * 4096 =
      pageEnd := by omega
  refine ⟨Nat.mul_mod_left _ _, ?_, ?_, ?_, ?_, ?_, ?_⟩
  · rintro a ⟨ha, ha'⟩
    rw [Segment.stop, pageSize, hstop] at ha'
    rw [Set.mem_Ico, pageSize]
    dsimp only at ha
    omega
  · rintro a ⟨ha, ha'⟩ b ⟨hb, hb'⟩
    rw [Segment.stop, pageSize, hstop] at ha'
    have hno := hover.1
    rw [overlaps, Bool.and_eq_true, decide_eq_true_eq, decide_eq_true_eq] at hno
    rw [pageSize]
    dsimp only at ha
    omega
  · intro range hmem
    have hno : ¬ overlaps (vaddr / 4096 * 4096) pageEnd range.1 range.2 = true :=
      fun hyes => hover.2 (List.any_eq_true.mpr ⟨range, hmem, hyes⟩)
    have hdisjoint := disjoint_of_not_overlaps hno
    rwa [Segment.range, Segment.stop, pageSize, hstop]
  · exact (List.take_prefix _ _).isInfix.trans (List.drop_suffix _ _).isInfix
  · dsimp only
    rw [List.length_take, pageSize]
    omega
  · refine ⟨?_, hflags.1⟩
    have hwrite := hflags.2
    revert hwrite
    dsimp only
    generalize header.flags.testBit 2 = read
    generalize header.flags.testBit 1 = write
    generalize header.flags.testBit 0 = execute
    revert read write execute
    decide

/-! ### The whole plan -/

variable {E : Type} {onSegment : List Segment → Option E} {entry : ℕ}
    {before : List ProgramHeader}
  {handed : List Segment} {executable : Bool}

/-- The segments handed out so far are those of the headers before, allowed and apart;
and one of them is executable where the program starts, if the plan says so. -/
structure Handed (g : Given) (entry : ℕ) (before : List ProgramHeader)
    (handed : List Segment) (executable : Bool) : Prop where
  checked : ∀ s ∈ handed, ∃ header ∈ before, validate g header = .ok s
  apart : handed.Pairwise fun s t => Disjoint s.range t.range
  starts : executable = true → ∃ s ∈ handed, s.flags.execute ∧ entry ∈ s.range

/-- One more segment, checked against those before it. -/
theorem Handed.snoc (h : Handed g entry before handed executable)
    {header : ProgramHeader} {s : Segment}
    (hnext : validateNext g before header = .ok s) :
    Handed g entry (before ++ [header]) (handed ++ [s])
      (executable || (s.flags.execute && s.firstPage ≤ entry && entry < s.stop)) := by
  obtain ⟨segment, hvalid, hrest⟩ := bind_eq_ok_iff.mp hnext
  obtain ⟨hothers, heq⟩ := bind_eq_ok.mp hrest
  cases heq
  refine ⟨fun t ht => ?_, List.pairwise_append.mpr
    ⟨h.apart, List.pairwise_singleton _ _, ?_⟩, fun hstarts => ?_⟩
  · rcases List.mem_append.mp ht with ht | ht
    · obtain ⟨other, hother, ht⟩ := h.checked t ht
      exact ⟨other, List.mem_append_left _ hother, ht⟩
    · rw [List.mem_singleton.mp ht]
      exact ⟨header, List.mem_append_right _ (List.mem_singleton_self _), hvalid⟩
  · intro t ht last hlast
    rw [List.mem_singleton.mp hlast]
    obtain ⟨other, hother, ht⟩ := h.checked t ht
    obtain ⟨j, hj⟩ := List.mem_iff_getElem?.mp hother
    obtain ⟨t', ht', hno⟩ := bind_eq_ok_iff.mp (each_eq_ok.mp hothers j other hj)
    rw [Except.ok.inj (ht.symm.trans ht')]
    exact (disjoint_of_not_overlaps (refuse_eq_ok.mp hno)).symm
  · rw [Bool.or_eq_true, Bool.and_eq_true, Bool.and_eq_true, decide_eq_true_eq,
      decide_eq_true_eq] at hstarts
    rcases hstarts with hstarts | ⟨⟨hexecute, hfrom⟩, hto⟩
    · obtain ⟨t, ht, hstart⟩ := h.starts hstarts
      exact ⟨t, List.mem_append_left _ ht, hstart⟩
    · exact ⟨s, List.mem_append_right _ (List.mem_singleton_self _),
        hexecute, hfrom, hto⟩

/-- Wherever the plan stops, what it handed out is as it should be. -/
theorem planFrom_handed (loads : List ProgramHeader)
    (h : Handed g entry before handed executable) :
    ∃ before' executable', Handed g entry before'
        (planFrom g onSegment entry before handed executable loads).1 executable' ∧
      ∀ found, (planFrom g onSegment entry before handed executable loads).2 =
      .ok found →
        found = entry ∧ executable' = true := by
  induction loads generalizing before handed executable with
  | nil =>
    refine ⟨before, executable, h, fun found hfound => ?_⟩
    rw [planFrom] at hfound
    split at hfound
    · next hstarts => exact ⟨(Except.ok.inj hfound).symm, hstarts⟩
    · cases hfound
  | cons header rest ih =>
    rw [planFrom]
    cases hnext : validateNext g before header with
    | error e => exact ⟨before, executable, h, fun found hfound => by cases hfound⟩
    | ok s =>
      have hsnoc := h.snoc hnext
      dsimp only
      cases onSegment (handed ++ [s]) with
      | some e => exact ⟨_, _, hsnoc, fun found hfound => by cases hfound⟩
      | none => exact ih hsnoc

/-- Every segment handed to the mapping call, however the plan ends, is allowed and
apart from the others; and a plan that returns names an address in one of them that is
executable. -/
theorem plan_allowed (g : Given) {E : Type} (onSegment : List Segment → Option E)
    (elf : Option Elf) :
    (plan g onSegment elf).1.Pairwise (fun s t => Disjoint s.range t.range) ∧
    (∀ s ∈ (plan g onSegment elf).1, s.Allowed g) ∧
    ∀ entry, (plan g onSegment elf).2 = .ok entry →
      ∃ s ∈ (plan g onSegment elf).1, s.flags.execute ∧ entry ∈ s.range := by
  rw [plan]
  cases headers g.width elf with
  | error e =>
    exact ⟨.nil, fun s hs => absurd hs List.not_mem_nil,
      fun entry hentry => by cases hentry⟩
  | ok read =>
    have hnone : Handed g read.1 [] [] false :=
      ⟨fun s hs => absurd hs List.not_mem_nil, .nil, fun hno => by cases hno⟩
    obtain ⟨before, executable, h, hend⟩ := planFrom_handed read.2 hnone
    refine ⟨h.apart, fun s hs => ?_, fun entry hentry => ?_⟩
    · obtain ⟨header, -, hvalid⟩ := h.checked s hs
      exact validate_allowed hvalid
    · obtain ⟨rfl, hstarts⟩ := hend entry hentry
      exact h.starts hstarts

end Redoubt.Stub
