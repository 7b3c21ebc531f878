import Redoubt.Walfs.Log

/-!
# Transactions are atomic

A power cut anywhere in `writeThrough`, and then any number of cuts inside
`recover`, leave a volume on which `recover` completes with every home block as
before the transaction or every one as after it.  What a cut can leave is one of
three things: a settled volume (the homes of one side, the header empty or torn),
or a committed one (the header and the logged blocks whole, the other homes as
before).
-/

namespace Redoubt.Walfs

open PowerCut Function List Header

variable {sha : List UInt8 → Hash} {l : Layout} {old side medium : ℕ → Block}
  {blocks : List (ℕ × Block)}

/-- What a torn write may leave: of the header, bytes that fail its own hash. -/
def TornWrite (sha : List UInt8 → Hash) (a : ℕ) (bytes : Block) : Prop :=
  a = logStart → selfHashOk sha bytes = false

/-- Blocks of one transaction: at most a log's worth of distinct homes. -/
structure Transaction (l : Layout) (blocks : List (ℕ × Block)) : Prop where
  homes : ∀ e ∈ blocks, l.isHome e.1 = true
  nodup : (blocks.map Prod.fst).Nodup
  room : blocks.length ≤ logBlocks

/-- The home blocks are those of `side`. -/
def Homes (l : Layout) (side medium : ℕ → Block) : Prop :=
  ∀ a, l.isHome a = true → medium a = side a

def HeaderEmpty (sha : List UInt8 → Hash) (l : Layout) (medium : ℕ → Block) : Prop :=
  parse sha (medium logStart) l = .ok (some {})

/-- One side's homes, and a header that commits nothing. -/
structure Settled (sha : List UInt8 → Hash) (l : Layout)
    (side medium : ℕ → Block) : Prop where
  homes : Homes l side medium
  header : HeaderEmpty sha l medium ∨ selfHashOk sha (medium logStart) = false

/-- The log's blocks from `k` on hold the transaction's. -/
def LogHolds (medium : ℕ → Block) : ℕ → List (ℕ × Block) → Prop
  | _, [] => True
  | k, e :: rest => medium (logStart + 1 + k) = e.2 ∧ LogHolds medium (k + 1) rest

/-- The header commits the transaction, and the log holds it. -/
structure Committed (sha : List UInt8 → Hash) (l : Layout) (old : ℕ → Block)
    (blocks : List (ℕ × Block)) (medium : ℕ → Block) : Prop where
  header : parse sha (medium logStart) l = .ok (some (commitHeader sha blocks))
  logged : LogHolds medium 0 blocks
  others : ∀ a, l.isHome a = true → a ∉ blocks.map Prod.fst → medium a = old a

/-- The transaction can only come out done. -/
def Decided (sha : List UInt8 → Hash) (l : Layout) (old : ℕ → Block)
    (blocks : List (ℕ × Block)) (medium : ℕ → Block) : Prop :=
  Settled sha l (applied old blocks) medium ∨ Committed sha l old blocks medium

/-! ### Addresses -/

theorem inodeStart_le_of_isHome {a : ℕ} (ha : l.isHome a = true) : inodeStart ≤ a := by
  rw [Layout.isHome, Bool.and_eq_true, decide_eq_true_eq] at ha
  exact ha.1

theorem ne_logStart_of_isHome {a : ℕ} (ha : l.isHome a = true) : a ≠ logStart := by
  have hle := inodeStart_le_of_isHome ha
  rintro rfl
  exact absurd hle (by decide)

theorem Transaction.notMem_of_lt (htx : Transaction l blocks) {a : ℕ}
    (ha : a < inodeStart) :
    a ∉ blocks.map Prod.fst := by
  intro hmem
  obtain ⟨e, he, rfl⟩ := mem_map.mp hmem
  exact absurd (inodeStart_le_of_isHome (htx.homes e he)) (not_le.mpr ha)

theorem logWrites_lt {a : ℕ} (hroom : blocks.length ≤ logBlocks)
    (ha : a ∈ (logWrites 0 blocks).map Prod.fst) : logStart < a ∧ a < inodeStart := by
  have hrange := mem_logWrites ha
  simp only [inodeStart, log] at *
  omega

theorem Transaction.of_sealed {out : List (ℕ × Block)} (htx : Transaction l blocks)
    (hsealed : sealed sha l blocks = .ok out) : Transaction l out := by
  have haddr := map_fst_sealed hsealed
  refine ⟨?_, ?_, ?_⟩
  · intro e he
    have hmem : e.1 ∈ blocks.map Prod.fst := haddr ▸ mem_map_of_mem he
    obtain ⟨other, hother, heq⟩ := mem_map.mp hmem
    rw [← heq]
    exact htx.homes other hother
  · rw [haddr]
    exact htx.nodup
  · rw [← length_map (f := Prod.fst), haddr, length_map]
    exact htx.room

/-! ### What cuts leave -/

theorem Homes.update (hhomes : Homes l side medium) (bytes : Block) :
    Homes l side (Function.update medium logStart bytes) := by
  intro a ha
  rw [update_of_ne (ne_logStart_of_isHome ha)]
  exact hhomes a ha

/-- The log is above its header and below the homes. -/
theorem LogHolds.congr {left : ℕ → Block} {k : ℕ} (hlogged : LogHolds medium k blocks)
    (hroom : k + blocks.length ≤ logBlocks)
    (hlow : ∀ a, logStart < a → a < inodeStart → left a = medium a) :
    LogHolds left k blocks := by
  induction blocks generalizing k with
  | nil => trivial
  | cons e rest ih =>
    rw [length_cons] at hroom
    refine ⟨?_, ih hlogged.2 (by omega)⟩
    rw [hlow _ (by omega) (by simp only [inodeStart, log] at *; omega)]
    exact hlogged.1

theorem Committed.congr {left : ℕ → Block} (hm : Committed sha l old blocks medium)
    (htx : Transaction l blocks)
    (hsame : ∀ a, a ∉ blocks.map Prod.fst → left a = medium a) :
    Committed sha l old blocks left := by
  have hlow : ∀ a, a < inodeStart → left a = medium a := fun a ha =>
    hsame a (htx.notMem_of_lt ha)
  refine ⟨?_, ?_, ?_⟩
  · rw [hlow logStart (by decide)]
    exact hm.header
  · exact hm.logged.congr (by rw [zero_add]; exact htx.room) fun a _ ha => hlow a ha
  · intro a ha hnot
    rw [hsame a hnot]
    exact hm.others a ha hnot

/-- Pending writes to the transaction's homes leave it committed. -/
theorem Committed.cutLeaves_homes (hm : Committed sha l old blocks medium)
    (htx : Transaction l blocks) {pending : List (ℕ × Block)}
    (hpending : ∀ a ∈ pending.map Prod.fst, a ∈ blocks.map Prod.fst) :
    CutLeaves (TornWrite sha) (Decided sha l old blocks) { medium, pending } := by
  intro left hcut
  apply Or.inr
  exact hm.congr htx fun a hnot => hcut.eq_of_notMem fun hmem => hnot (hpending a hmem)

theorem Committed.homes_applied (hm : Committed sha l old blocks medium) :
    Homes l (applied old blocks) (applied medium blocks) := fun a ha =>
  applied_congr a fun hnot => hm.others a ha hnot

/-! ### Steps of the log -/

theorem ensures_checkLogged {cut : Disk Block → Prop} {d : Disk Block} {k : ℕ}
    {post : Except Error Unit → Disk Block → Prop} (hcut : cut d)
    (hpost : post (.ok ()) d)
    (hlogged : LogHolds d.read k blocks) :
    (checkLogged sha k (commitHeader sha blocks).entries).Ensures post cut d := by
  induction blocks generalizing k with
  | nil => exact ⟨hcut, hpost⟩
  | cons e rest ih =>
    change (checkLogged sha k
      ((e.1, sha e.2.bytes) :: (commitHeader sha rest).entries)).Ensures
      post cut d
    apply Prog.ensures_readBlock hcut
    rw [hlogged.1, if_pos rfl]
    exact ih hlogged.2

/-- The copies home, in order: each logged block is read back as it was logged,
since only homes are pending. -/
theorem ensures_copyHome {cut : Disk Block → Prop} (done : List (ℕ × Block)) {k : ℕ}
    {post : Except Error Unit → Disk Block → Prop}
    (hhomes : ∀ e ∈ done ++ blocks, l.isHome e.1 = true)
    (hroom : k + blocks.length ≤ logBlocks)
    (hlogged : LogHolds medium k blocks)
    (hcut : ∀ some rest, done ++ blocks = some ++ rest →
      cut { medium, pending := some })
    (hpost : post (.ok ()) { medium, pending := done ++ blocks }) :
    (copyHome sha k (commitHeader sha blocks).entries).Ensures post cut
      { medium, pending := done } := by
  induction blocks generalizing k done with
  | nil =>
    rw [append_nil] at hpost
    exact ⟨hcut done [] rfl, hpost⟩
  | cons e rest ih =>
    have hread : ({ medium, pending := done } : Disk Block).read (logStart + 1 + k) =
        e.2 := by
      rw [← hlogged.1]
      apply applied_of_notMem
      intro hmem
      obtain ⟨other, hother, heq⟩ := mem_map.mp hmem
      have hle := inodeStart_le_of_isHome (hhomes other (mem_append_left _ hother))
      rw [length_cons] at hroom
      simp only [inodeStart, log] at *
      omega
    have hfirst := hcut done (e :: rest) rfl
    change (copyHome sha k
      ((e.1, sha e.2.bytes) :: (commitHeader sha rest).entries)).Ensures
      post cut _
    apply Prog.ensures_readBlock hfirst
    rw [hread, if_pos rfl]
    apply Prog.ensures_writeBlock hfirst
    have happend : done ++ e :: rest = done ++ [e] ++ rest := by
      rw [append_assoc]
      rfl
    rw [happend] at hhomes hcut hpost
    rw [length_cons] at hroom
    exact ih (done ++ [e]) hhomes (by omega) hlogged.2 hcut hpost

/-- Pending writes to the log leave the old side settled. -/
theorem cutLeaves_logging (hroom : blocks.length ≤ logBlocks)
    (hold : HeaderEmpty sha l old)
    {pending : List (ℕ × Block)}
    (hpending : ∀ a ∈ pending.map Prod.fst, a ∈ (logWrites 0 blocks).map Prod.fst) :
    CutLeaves (TornWrite sha) (Settled sha l old) { medium := old, pending } := by
  intro left hcut
  constructor
  · intro a ha
    apply hcut.eq_of_notMem
    intro hmem
    have hlt := (logWrites_lt hroom (hpending a hmem)).2
    exact absurd (inodeStart_le_of_isHome ha) (not_le.mpr hlt)
  · left
    rw [HeaderEmpty, hcut.eq_of_notMem]
    · exact hold
    · intro hmem
      exact absurd (logWrites_lt hroom (hpending _ hmem)).1 (lt_irrefl _)

theorem logHolds_applied (k : ℕ) (blocks : List (ℕ × Block)) (medium : ℕ → Block) :
    LogHolds (applied medium (logWrites k blocks)) k blocks := by
  induction blocks generalizing k medium with
  | nil => trivial
  | cons e rest ih =>
    refine ⟨?_, ih (k + 1) _⟩
    exact applied_of_mem medium (nodup_logWrites k (e :: rest)) mem_cons_self

/-- What a completed recovery leaves of one side. -/
def Recovered (sha : List UInt8 → Hash) (l : Layout) (side : ℕ → Block)
    (result : Except Error Unit) (d : Disk Block) : Prop :=
  result = .ok () ∧ d.pending = [] ∧ Homes l side d.medium ∧ HeaderEmpty sha l d.medium

/-- The log holds the transaction and the homes are the old ones. -/
structure Logged (sha : List UInt8 → Hash) (l : Layout) (old : ℕ → Block)
    (blocks : List (ℕ × Block)) (medium : ℕ → Block) : Prop where
  settled : Settled sha l old medium
  logged : LogHolds medium 0 blocks

/-! ### A settled side -/

section

variable (hl : l.blockCount < 2 ^ 32)
include hl

theorem headerEmpty_update (medium : ℕ → Block) :
    HeaderEmpty sha l (Function.update medium logStart (emptyHeader sha)) := by
  exact parse_encode hl {} (Nat.zero_le _) (fun _ h => by contradiction) nodup_nil

/-- Nothing but a write that empties the header is pending. -/
theorem Settled.cutLeaves (hm : Settled sha l side medium)
    {pending : List (ℕ × Block)}
    (hpending : pending = [] ∨ pending = [(logStart, emptyHeader sha)]) :
    CutLeaves (TornWrite sha) (Settled sha l side) { medium, pending } := by
  intro left hcut
  rcases hpending with rfl | rfl
  · rw [hcut.of_nil]
    exact hm
  · rcases hcut.of_single with rfl | rfl | ⟨bytes, htorn, rfl⟩
    · exact hm
    · exact ⟨hm.homes.update _, Or.inl (headerEmpty_update hl _)⟩
    · refine ⟨hm.homes.update _, Or.inr ?_⟩
      exact htorn rfl

/-- While a settled side's header is emptied, the side stays settled. -/
theorem ensures_clearHeader {d : Disk Block}
    {reach : (ℕ → Block) → Prop} (hfirst : CutLeaves (TornWrite sha) reach d)
    (hhomes : Homes l side (applied d.medium d.pending))
    (hsynced : ∀ pending, pending = [] ∨ pending = [(logStart, emptyHeader sha)] →
      CutLeaves (TornWrite sha) reach { medium := applied d.medium d.pending, pending })
    (hsettled : ∀ medium, Settled sha l side medium → reach medium) :
    (clearHeader sha).Ensures
      (fun result d => result = .ok () ∧ d.pending = [] ∧ Homes l side d.medium ∧
        HeaderEmpty sha l d.medium)
      (CutLeaves (TornWrite sha) reach) d := by
  have hempty : HeaderEmpty sha l
      (Function.update (applied d.medium d.pending) logStart (emptyHeader sha)) :=
    headerEmpty_update hl (applied d.medium d.pending)
  have hhomes' := hhomes.update (emptyHeader sha)
  refine ⟨hfirst, hsynced [] (Or.inl rfl), hsynced _ (Or.inr rfl), ?_, rfl, rfl,
    hhomes', hempty⟩
  intro left hcut
  rw [hcut.of_nil]
  exact hsettled _ ⟨hhomes', Or.inl hempty⟩

/-- A settled volume recovers to its own side. -/
theorem Settled.ensures_recover (hm : Settled sha l side medium) :
    (recover sha l).Ensures (Recovered sha l side)
      (CutLeaves (TornWrite sha) (Settled sha l side)) { medium } := by
  have hfirst := hm.cutLeaves hl (Or.inl rfl)
  refine ⟨hfirst, ?_⟩
  have hread : PowerCut.Disk.read { medium } logStart = medium logStart := rfl
  dsimp only [Prog.bind]
  rw [hread]
  rcases hm.header with hempty | htorn
  · rw [hempty]
    exact ⟨hfirst, rfl, rfl, hm.homes, hempty⟩
  · have hparse : parse sha (medium logStart) l = .ok none := by
      rw [parse, htorn]
      rfl
    rw [hparse]
    exact ensures_clearHeader hl hfirst hm.homes
      (fun _ hpending => hm.cutLeaves hl hpending)
      fun _ hsettled => hsettled

/-- Recovery after any number of cuts, from a volume that is settled. -/
theorem Settled.recovered (hm : Settled sha l side medium)
    {final : ℕ → Block}
    (hreboots : Reboots (TornWrite sha) (recover sha l) medium final) :
    Recovered sha l side ((recover sha l).run { medium := final }).1
      ((recover sha l).run { medium := final }).2 := by
  have hfinal := hreboots.recoverable (fun _ hsettled => hsettled.ensures_recover hl) hm
  exact (hfinal.ensures_recover hl).run

/-! ### The transaction -/

variable (htx : Transaction l blocks)
include htx

theorem parse_commitHeader : parse sha ((commitHeader sha blocks).encode sha) l =
      .ok (some (commitHeader sha blocks)) := by
  apply parse_encode hl
  · rw [commitHeader, length_map]
    exact htx.room
  · intro entry hentry
    obtain ⟨e, he, rfl⟩ := mem_map.mp hentry
    exact htx.homes e he
  · rw [commitHeader, map_map]
    exact htx.nodup

/-- The homes copied and the header being emptied: the transaction is decided. -/
theorem Committed.cutLeaves_synced
    (hm : Committed sha l old blocks medium) {pending : List (ℕ × Block)}
    (hpending : pending = [] ∨ pending = [(logStart, emptyHeader sha)]) :
    CutLeaves (TornWrite sha) (Decided sha l old blocks)
      { medium := applied medium blocks, pending } := by
  have hcopied : Committed sha l old blocks (applied medium blocks) :=
    hm.congr htx fun a hnot => applied_of_notMem medium hnot
  have hhomes := hm.homes_applied
  intro left hcut
  rcases hpending with rfl | rfl
  · rw [hcut.of_nil]
    exact Or.inr hcopied
  · rcases hcut.of_single with rfl | rfl | ⟨bytes, htorn, rfl⟩
    · exact Or.inr hcopied
    · exact Or.inl ⟨hhomes.update _, Or.inl (headerEmpty_update hl _)⟩
    · refine Or.inl ⟨hhomes.update _, Or.inr ?_⟩
      exact htorn rfl

/-- From a committed medium, the homes written in full, the header is emptied. -/
theorem Committed.ensures_clearHeader (hm : Committed sha l old blocks medium) :
    (clearHeader sha).Ensures
      (fun result d => result = .ok () ∧ d.pending = [] ∧
        Homes l (applied old blocks) d.medium ∧
        HeaderEmpty sha l d.medium)
      (CutLeaves (TornWrite sha) (Decided sha l old blocks))
      { medium, pending := blocks } :=
  Walfs.ensures_clearHeader hl (hm.cutLeaves_homes htx fun _ ha => ha) hm.homes_applied
    (fun _ hpending => hm.cutLeaves_synced hl htx hpending) fun _ => Or.inl

/-- A committed volume recovers to the transaction done. -/
theorem Committed.ensures_recover (hblocks : blocks ≠ [])
    (hm : Committed sha l old blocks medium) :
    (recover sha l).Ensures (Recovered sha l (applied old blocks))
      (CutLeaves (TornWrite sha) (Decided sha l old blocks)) { medium } := by
  have hroom : 0 + blocks.length ≤ logBlocks := by
    rw [zero_add]
    exact htx.room
  have hfirst : CutLeaves (TornWrite sha) (Decided sha l old blocks) { medium } :=
    hm.cutLeaves_homes htx fun _ ha => by contradiction
  refine ⟨hfirst, ?_⟩
  have hread : PowerCut.Disk.read { medium } logStart = medium logStart := rfl
  dsimp only [Prog.bind]
  rw [hread]
  have hentries : (commitHeader sha blocks).entries ≠ [] := by
    rw [commitHeader, ne_eq, map_eq_nil_iff]
    exact hblocks
  simp only [hm.header, if_neg hentries]
  apply Prog.Ensures.bind
  apply ensures_checkLogged hfirst _ hm.logged
  apply Prog.Ensures.bind
  apply ensures_copyHome [] htx.homes hroom hm.logged
  · intro some rest hsplit
    apply hm.cutLeaves_homes htx
    intro a ha
    rw [nil_append] at hsplit
    rw [hsplit, map_append]
    exact mem_append_left _ ha
  · exact hm.ensures_clearHeader hl htx

theorem Decided.ensures_recover (hm : Decided sha l old blocks medium) :
    (recover sha l).Ensures (Recovered sha l (applied old blocks))
      (CutLeaves (TornWrite sha) (Decided sha l old blocks)) { medium } := by
  have hsettles : ∀ medium, Settled sha l (applied old blocks) medium →
      (recover sha l).Ensures (Recovered sha l (applied old blocks))
        (CutLeaves (TornWrite sha) (Decided sha l old blocks)) { medium } :=
    fun medium hsettled => (hsettled.ensures_recover hl).weaken_cut
      fun d hcut left hleft => Or.inl (hcut left hleft)
  rcases hm with hsettled | hcommitted
  · exact hsettles medium hsettled
  · by_cases hblocks : blocks = []
    · subst hblocks
      exact hsettles medium
        ⟨fun a ha => hcommitted.others a ha not_mem_nil, Or.inl hcommitted.header⟩
    · exact hcommitted.ensures_recover hl htx hblocks

theorem Logged.committed (hm : Logged sha l old blocks medium) :
    Committed sha l old blocks
      (Function.update medium logStart ((commitHeader sha blocks).encode sha)) := by
  refine ⟨?_, ?_, ?_⟩
  · rw [update_self]
    exact parse_commitHeader hl htx
  · apply hm.logged.congr (by rw [zero_add]; exact htx.room)
    intro a hlow _
    rw [update_of_ne (ne_of_gt hlow)]
  · intro a ha _
    exact hm.settled.homes.update _ a ha

/-- Logging the transaction: until the header is written the old side is settled,
and once it is synced the transaction is committed. -/
theorem ensures_logTransaction (hold : HeaderEmpty sha l old) :
    (logTransaction sha blocks).Ensures
      (fun result d => result = .ok () ∧ d.pending = [] ∧
        Committed sha l old blocks d.medium)
      (CutLeaves (TornWrite sha)
        fun left => Settled sha l old left ∨ Committed sha l old blocks left)
          { medium := old } := by
  have hlogging : ∀ pending,
      (∀ a ∈ pending.map Prod.fst, a ∈ (logWrites 0 blocks).map Prod.fst) →
      CutLeaves (TornWrite sha)
        (fun left => Settled sha l old left ∨ Committed sha l old blocks left)
        { medium := old, pending } :=
    fun _ hpending left hleft =>
      Or.inl (cutLeaves_logging htx.room hold hpending left hleft)
  have hlogged : Logged sha l old blocks (applied old (logWrites 0 blocks)) :=
    ⟨cutLeaves_logging htx.room hold (fun _ ha => ha) _ (survives_applied _ _),
      logHolds_applied 0 blocks old⟩
  have hcommitted := hlogged.committed hl htx
  apply Prog.Ensures.bind
  apply Prog.ensures_writeAll
  · intro done rest hsplit
    apply hlogging
    intro a ha
    rw [hsplit, map_append]
    exact mem_append_left _ ha
  · refine ⟨hlogging _ fun _ ha => ha, ?_⟩
    apply Prog.ensures_writeBlock
    · intro left hcut
      rw [hcut.of_nil]
      exact Or.inl hlogged.settled
    · refine ⟨?_, ?_, rfl, rfl, hcommitted⟩
      · intro left hcut
        rcases hcut.of_single with rfl | rfl | ⟨bytes, htorn, rfl⟩
        · exact Or.inl hlogged.settled
        · exact Or.inr hcommitted
        · refine Or.inl ⟨hlogged.settled.homes.update _, Or.inr ?_⟩
          exact htorn rfl
      · intro left hcut
        rw [hcut.of_nil]
        exact Or.inr hcommitted

/-- Copying home what is committed: wherever it is cut, the transaction is decided. -/
theorem Committed.ensures_install (hm : Committed sha l old blocks medium) :
    (install sha blocks).Ensures (Recovered sha l (applied old blocks))
      (CutLeaves (TornWrite sha) (Decided sha l old blocks)) { medium } := by
  apply Prog.Ensures.bind
  apply Prog.ensures_writeAll
  · intro done rest hsplit
    apply hm.cutLeaves_homes htx
    intro a ha
    rw [hsplit, map_append]
    exact mem_append_left _ ha
  · exact hm.ensures_clearHeader hl htx

theorem Decided.recovered (hm : Decided sha l old blocks medium) {final : ℕ → Block}
    (hreboots : Reboots (TornWrite sha) (recover sha l) medium final) :
    Recovered sha l (applied old blocks) ((recover sha l).run { medium := final }).1
      ((recover sha l).run { medium := final }).2 := by
  have hfinal :=
    hreboots.recoverable (fun _ hdecided => hdecided.ensures_recover hl htx) hm
  exact (hfinal.ensures_recover hl htx).run

/-- A whole transaction: a cut leaves the old side settled or the transaction
decided. -/
theorem ensures_writeThrough (hold : HeaderEmpty sha l old) {out : List (ℕ × Block)}
    (hsealed : sealed sha l blocks = .ok out) :
    (writeThrough sha l blocks).Ensures (Recovered sha l (applied old out))
      (CutLeaves (TornWrite sha) fun left => Settled sha l old left ∨
        Decided sha l old out left)
      { medium := old } := by
  have hout := htx.of_sealed hsealed
  rw [writeThrough, hsealed]
  apply Prog.Ensures.bind
  apply ((ensures_logTransaction hl hout hold).weaken_cut _).imp
  · rintro result ⟨medium, pending⟩ ⟨rfl, rfl, hcommitted⟩
    exact (hcommitted.ensures_install hl hout).weaken_cut fun d hcut left hleft =>
      Or.inr (hcut left hleft)
  · intro d hcut left hleft
    exact (hcut left hleft).imp id Or.inr

end

/-- The header's sync is the second one: what is left then is the copying home. -/
theorem synced_writeThrough {out : List (ℕ × Block)}
    (hsealed : sealed sha l blocks = .ok out) :
    (writeThrough sha l blocks).synced 2 { medium := old } =
      some (install sha out, ((logTransaction sha out).run { medium := old }).2) := by
  have hlogged : (logTransaction sha out).synced 2 { medium := old } =
      some (Prog.ret (.ok ()),
      { medium := Function.update (applied old (logWrites 0 out)) logStart
          ((commitHeader sha out).encode sha) }) := by
    rw [logTransaction, Prog.synced_writeAll]
    rfl
  obtain ⟨hrest, hrun⟩ := Prog.synced_bind (fun _ => install sha out) hlogged
  rw [writeThrough, hsealed, hrun]
  exact hrest

/-- A transaction is atomic: wherever `writeThrough` is cut, and however often
`recover` is cut after it, recovery completes with the header empty and every
home as before the transaction or every home as after it; after it, if the cut
came once the header's sync, the second of `writeThrough`, was complete.  Not cut,
it leaves every home as after it. -/
theorem writeThrough_atomic (sha : List UInt8 → Hash) (g : Geometry) (l : Layout)
    (hl : Layout.new g = some l) (blocks : List (ℕ × Block))
    (htx : Transaction l blocks)
    (old : ℕ → Block) (hold : HeaderEmpty sha l old) :
    (∀ found, (writeThrough sha l blocks).Stops { medium := old } found →
      ∀ left, Survives (TornWrite sha) found.pending found.medium left →
      ∀ final, Reboots (TornWrite sha) (recover sha l) left final →
        ∃ side, (side = old ∨ ∃ out, sealed sha l blocks = .ok out ∧
          side = applied old out) ∧
          Recovered sha l side ((recover sha l).run { medium := final }).1
            ((recover sha l).run { medium := final }).2) ∧
    ∀ out, sealed sha l blocks = .ok out →
      (∀ found, (writeThrough sha l blocks).StopsSynced 2 { medium := old } found →
        ∀ left, Survives (TornWrite sha) found.pending found.medium left →
        ∀ final, Reboots (TornWrite sha) (recover sha l) left final →
          Recovered sha l (applied old out) ((recover sha l).run { medium := final }).1
            ((recover sha l).run { medium := final }).2) ∧
      Recovered sha l (applied old out)
        ((writeThrough sha l blocks).run { medium := old }).1
        ((writeThrough sha l blocks).run { medium := old }).2 := by
  have hcount := Layout.blockCount_new hl
  constructor
  · intro found hstops left hleft final hreboots
    cases hsealed : sealed sha l blocks with
    | error e =>
      -- nothing was written
      rw [writeThrough, hsealed] at hstops
      have hsame : found = { medium := old } := hstops
      rw [hsame] at hleft
      rw [hleft.of_nil] at hreboots
      have hsettled : Settled sha l old old := ⟨fun _ _ => rfl, Or.inl hold⟩
      exact ⟨old, Or.inl rfl, hsettled.recovered hcount hreboots⟩
    | ok out =>
      rcases (ensures_writeThrough hcount htx hold hsealed).stops hstops left hleft with
        hsettled | hdecided
      · exact ⟨old, Or.inl rfl, hsettled.recovered hcount hreboots⟩
      · exact ⟨applied old out, Or.inr ⟨out, rfl, rfl⟩,
          hdecided.recovered hcount (htx.of_sealed hsealed) hreboots⟩
  · intro out hsealed
    refine ⟨?_, (ensures_writeThrough hcount htx hold hsealed).run⟩
    rintro found ⟨rest, now, hsynced, hstops⟩ left hleft final hreboots
    rw [synced_writeThrough hsealed] at hsynced
    obtain ⟨rfl, rfl⟩ := Prod.mk.inj (Option.some.inj hsynced)
    have hout := htx.of_sealed hsealed
    obtain ⟨-, hpending, hcommitted⟩ := (ensures_logTransaction hcount hout hold).run
    generalize ((logTransaction sha out).run { medium := old }).2 = logged at *
    obtain ⟨medium, pending⟩ := logged
    have hnone : pending = [] := hpending
    subst hnone
    have hdecided := (hcommitted.ensures_install hcount hout).stops hstops left hleft
    exact hdecided.recovered hcount hout hreboots

/-- A volume of 100 blocks. -/
def smallGeometry : Geometry := ⟨100, 32, by decide, by decide⟩

def smallLayout : Layout := ⟨100, 32, 35, 37, 38, 39⟩

/-- A polynomial of the bytes, to 32 bytes. -/
def sumHash (bytes : List UInt8) : Hash :=
  ⟨(List.range hashSize).map fun i =>
    UInt8.ofNat (bytes.foldl (fun sum byte => sum * 257 + byte.toNat + 1) 0 / 256 ^ i),
    by rw [length_map, length_range]⟩

/-- Data block 40 and the hash block its slot is in. -/
def dataTransaction (data : Block) : List (ℕ × Block) := [(40, data), (37, Block.zero)]

/-- As it is written: the slot of block 40 filled in, the hash block sealed. -/
def dataOut (data : Block) : List (ℕ × Block) :=
  [(40, data), (37, sealBlock sumHash
    (Block.zero.put (smallLayout.slot 40).2 (sumHash data.bytes).bytes))]

theorem dataTransaction_valid (data : Block) :
    Transaction smallLayout (dataTransaction data) :=
  ⟨by simp only [dataTransaction, forall_mem_cons]; decide, by simp [dataTransaction],
    (by decide : 2 ≤ logBlocks)⟩

theorem sealed_dataTransaction (data : Block) :
    sealed sumHash smallLayout (dataTransaction data) = .ok (dataOut data) := by
  have hdata : smallLayout.isHashed 40 = true := by decide
  have hhash : smallLayout.isHashed 37 = false := by decide
  have hslot : (smallLayout.slot 40).1 = 37 := by decide
  have hseal : smallLayout.isHash 40 = false ∧ smallLayout.isHash 37 = true := by decide
  simp [sealed, slots, dataTransaction, dataOut, hdata, hhash, hslot, hseal,
    putSlots, putSlot,
    sealHashes, Except.map, Except.bind]

/-- The header is synced and the first block is on its way home. -/
def halfHome (data : Block) (old : ℕ → Block) : Disk Block :=
  ((logTransaction sumHash (dataOut data)).run { medium := old }).2.write 40 data

theorem halfHome_stops (data : Block) (old : ℕ → Block) :
    (writeThrough sumHash smallLayout (dataTransaction data)).StopsSynced 2
      { medium := old }
      (halfHome data old) :=
  ⟨_, _, synced_writeThrough (sealed_dataTransaction data), Or.inr (Or.inl rfl)⟩

/-- A cut may tear it. -/
theorem halfHome_tears (data : Block) (old : ℕ → Block) :
    Survives (TornWrite sumHash) (halfHome data old).pending (halfHome data old).medium
      (Function.update (halfHome data old).medium 40 fun _ => 7) := by
  have hpending : (halfHome data old).pending = (dataOut data).take 1 := rfl
  rw [hpending]
  exact Survives.tears (fun hheader => absurd hheader (by decide)) (Survives.none _)

/-- A volume of zero blocks with an empty header. -/
def zeroVolume : ℕ → Block :=
  Function.update (fun _ => Block.zero) logStart (emptyHeader sumHash)

theorem smallGeometry_new : Layout.new smallGeometry = some smallLayout := by
  decide

theorem zeroVolume_empty : HeaderEmpty sumHash smallLayout zeroVolume :=
  headerEmpty_update (Layout.blockCount_new smallGeometry_new) _

/-- The block's number in each byte. -/
def counting : Block := fun i => UInt8.ofNat i

theorem halfHome_recovers : sumHash Block.zero.bytes ≠ sumHash counting.bytes ∧
    (halfHome counting zeroVolume).pending = (dataOut counting).take 1 ∧
    Recovered sumHash smallLayout (applied zeroVolume (dataOut counting))
      ((recover sumHash smallLayout).run
        { medium := Function.update (halfHome counting zeroVolume).medium 40
            fun _ => 7 }).1
      ((recover sumHash smallLayout).run
        { medium := Function.update (halfHome counting zeroVolume).medium 40
            fun _ => 7 }).2 := by
  obtain ⟨-, hafter⟩ := writeThrough_atomic sumHash smallGeometry smallLayout
    smallGeometry_new
    (dataTransaction counting) (dataTransaction_valid counting) zeroVolume
    zeroVolume_empty
  refine ⟨by decide +kernel, rfl, ?_⟩
  exact (hafter _ (sealed_dataTransaction counting)).1 _
    (halfHome_stops counting zeroVolume) _
    (halfHome_tears counting zeroVolume) _ (Reboots.done _)

end Redoubt.Walfs
