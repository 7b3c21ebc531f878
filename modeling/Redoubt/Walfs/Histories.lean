import Redoubt.Walfs.Atomic

/-!
# The life of a volume

Transactions one after another, each completed, or cut by a loss of power and recovered
from, the recovery itself cut any number of times.
-/

namespace Redoubt.Walfs

open PowerCut List

/-- A sealed transaction, and whether it completed. -/
abbrev Issued := List (ℕ × Block) × Bool

variable (sha : List UInt8 → Hash) (l : Layout) (old : ℕ → Block)

/-- The volume `old` lived through these transactions and is now `medium`. -/
inductive Life : List Issued → (ℕ → Block) → Prop
  | start : Life [] old
  | complete {issued medium blocks out} (hlife : Life issued medium)
      (htx : Transaction l blocks)
      (hsealed : sealed sha l blocks = .ok out) :
      Life (issued ++ [(out, true)])
        ((writeThrough sha l blocks).run { medium }).2.medium
  | cut {issued medium blocks out left final} {found : Disk Block}
      (hlife : Life issued medium)
      (htx : Transaction l blocks) (hsealed : sealed sha l blocks = .ok out)
      (hstops : (writeThrough sha l blocks).Stops { medium } found)
      (hleft : Survives (TornWrite sha) found.pending found.medium left)
      (hreboots : Reboots (TornWrite sha) (recover sha l) left final) :
      Life (issued ++ [(out, false)]) ((recover sha l).run { medium := final }).2.medium

/-- What the homes may hold: each transaction that completed, in order, and of those
cut, each whole or not at all. -/
def sides (issued : List Issued) : Set (ℕ → Block) :=
  issued.foldl (fun before e => {side | ∃ s ∈ before, side = applied s e.1 ∨
    e.2 = false ∧ side = s}) {old}

variable {sha l old} {issued : List Issued} {medium : ℕ → Block}

theorem Homes.after {side new : ℕ → Block} {out : List (ℕ × Block)}
    (hhomes : Homes l side medium)
    (hnew : Homes l (applied medium out) new) :
    Homes l (applied side out) new := fun a ha =>
  (hnew a ha).trans (applied_congr a fun _ => hhomes a ha)

/-- Whatever a volume lives through, it is left with its log empty, all that completed,
and nothing in part or out of order. -/
theorem Life.exists_side {g : Geometry} (hl : Layout.new g = some l)
    (hold : HeaderEmpty sha l old)
    (hlife : Life sha l old issued medium) :
    HeaderEmpty sha l medium ∧ ∃ side ∈ sides old issued, Homes l side medium := by
  have hcount := Layout.blockCount_new hl
  induction hlife with
  | start => exact ⟨hold, old, rfl, fun _ _ => rfl⟩
  | @complete issued medium blocks out _ htx hsealed ih =>
    obtain ⟨hempty, side, hside, hhomes⟩ := ih
    obtain ⟨-, -, hnew, hcleared⟩ :=
      (ensures_writeThrough hcount htx hempty hsealed).run
    rw [sides, foldl_append]
    exact ⟨hcleared, applied side out, ⟨side, hside, .inl rfl⟩, hhomes.after hnew⟩
  | @cut issued medium blocks out left final found _ htx hsealed hstops hleft
      hreboots ih =>
    obtain ⟨hempty, side, hside, hhomes⟩ := ih
    rw [sides, foldl_append]
    rcases (ensures_writeThrough hcount htx hempty hsealed).stops hstops _ hleft with
      hsettled | hdecided
    · obtain ⟨-, -, hsame, hcleared⟩ := hsettled.recovered hcount hreboots
      exact ⟨hcleared, side, ⟨side, hside, .inr ⟨rfl, rfl⟩⟩,
        fun a ha => (hsame a ha).trans (hhomes a ha)⟩
    · obtain ⟨-, -, hnew, hcleared⟩ :=
        hdecided.recovered hcount (htx.of_sealed hsealed) hreboots
      exact ⟨hcleared, applied side out, ⟨side, hside, .inl rfl⟩, hhomes.after hnew⟩

/-- One transaction that completes, and one cut when its header is synced and its first
block torn on its way home. -/
theorem exists_side_of_two : ∃ medium,
    Life sumHash smallLayout zeroVolume
        [(dataOut counting, true), (dataOut Block.zero, false)] medium ∧
      ∃ side ∈ sides zeroVolume [(dataOut counting, true), (dataOut Block.zero, false)],
        Homes smallLayout side medium := by
  have hstart : Life sumHash smallLayout zeroVolume [] zeroVolume := .start
  have hdone :=
    hstart.complete (dataTransaction_valid counting) (sealed_dataTransaction counting)
  have hlife :=
    hdone.cut (dataTransaction_valid Block.zero) (sealed_dataTransaction Block.zero)
    (halfHome_stops Block.zero _).stops (halfHome_tears Block.zero _) (Reboots.done _)
  exact ⟨_, hlife, (hlife.exists_side smallGeometry_new zeroVolume_empty).2⟩

end Redoubt.Walfs
