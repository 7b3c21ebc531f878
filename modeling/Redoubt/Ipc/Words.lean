import Mathlib

/-!
# The kernel's intrusive lists

Every list keeps its head in the page of the object it belongs to and its links
in its members' own pages.  The members of the lists modelled here are threads,
named by a number that is never 0: 0 names nothing, so a zeroed page is an empty
list and an unlinked member.  `Words` is where the words are.
-/

namespace Redoubt.Ipclist

/-- A page the lists keep words in: a thread's IPC page or an endpoint's
frame. -/
inductive Page
  | thread (t : ℕ)
  | endpoint (e : ℕ)
deriving DecidableEq, Repr

/-- The words of the group queue.  A thread page holds the links of its wait,
its place in the one order of arrivals and takes, and the thread that holds its
group's node; a node holds its links on the endpoint's two group lists, its two
chains' ends, its count and its last take.  An endpoint holds the heads and
tails of its two group lists and its count of members. -/
inductive Word
  | tPrev
  | tNext
  | tSeq
  | tGroup
  | gPrev
  | gNext
  | gSprev
  | gSnext
  | gSends
  | gSendsTail
  | gCalls
  | gCallsTail
  | gCount
  | gTaken
  | eGroups
  | eGroupsTail
  | eSends
  | eSendsTail
  | eWaiting
deriving DecidableEq, Repr

/-- Word `word` of the lists' words in `page`; a page that was never written
reads as 0. -/
@[ext]
structure Words where
  read : Page → Word → ℕ

instance : CoeFun Words fun _ => Page → Word → ℕ := ⟨Words.read⟩

variable (w : Words)

def write (page : Page) (word : Word) (value : ℕ) : Words where
  read := fun page' word' =>
    if page' = page ∧ word' = word then value else w page' word'

@[simp]
theorem write_same (page : Page) (word : Word) (value : ℕ) :
    write w page word value page word = value := by
  simp [write]

theorem write_apply (page page' : Page) (word word' : Word) (value : ℕ) :
    write w page word value page' word' =
      if page' = page ∧ word' = word then value else w page' word' := rfl

theorem write_of_word_ne {word word' : Word} (page page' : Page)
    (value : ℕ) (hword : word' ≠ word) :
    write w page word value page' word' = w page' word' := by
  simp [write, hword]

theorem write_of_page_ne {page page' : Page} (word word' : Word)
    (value : ℕ) (hpage : page' ≠ page) :
    write w page word value page' word' = w page' word' := by
  simp [write, hpage]

/-- Add `by_` to an endpoint's count of members.  The real kernel stops if the
count would be negative. -/
def counts (page : Page) (by_ : ℤ) : Words :=
  write w page .eWaiting (Int.ofNat (w page .eWaiting) + by_).toNat

/-- How many members an endpoint's lists hold. -/
def waiting (e : ℕ) : ℕ :=
  w (.endpoint e) .eWaiting

/-- One doubly linked list of threads: where its head, and its tail if it keeps
one, is, which words of its members link them, and whether its members count in
its endpoint's `waiting`. -/
structure IpcList where
  owner : Page
  head : Word
  tail : Option Word
  counted : Bool
  prevWord : Word
  nextWord : Word

namespace IpcList

variable (list : IpcList)

/-- The groups with a message queued on an endpoint, by when their turns fall
due. -/
def groups (e : ℕ) : IpcList where
  owner := .endpoint e
  head := .eGroups
  tail := some .eGroupsTail
  counted := false
  prevWord := .gPrev
  nextWord := .gNext

/-- The groups with a send queued on an endpoint, by when their oldest sends
fall due. -/
def sendGroups (e : ℕ) : IpcList where
  owner := .endpoint e
  head := .eSends
  tail := some .eSendsTail
  counted := false
  prevWord := .gSprev
  nextWord := .gSnext

/-- The sends, or the calls, of the group whose node `node` holds, in arrival
order. -/
def chain (node : ℕ) (send : Bool) : IpcList where
  owner := .thread node
  head := if send then .gSends else .gCalls
  tail := some (if send then .gSendsTail else .gCallsTail)
  counted := false
  prevWord := .tPrev
  nextWord := .tNext

variable (w : Words)

def first : ℕ :=
  w list.owner list.head

def isEmpty : Bool :=
  list.first w == 0

def next (r : ℕ) : ℕ :=
  w (.thread r) list.nextWord

def prev (r : ℕ) : ℕ :=
  w (.thread r) list.prevWord

def last : ℕ :=
  (list.tail.map (w list.owner)).getD 0

/-- Whether `r` is on it, read from `r`'s own links. -/
def contains (r : ℕ) : Bool :=
  r != 0 && (list.prev w r != 0 || list.first w == r)

/-- The next link of `after`, or the head for 0, becomes `target`. -/
def setNextOf (after target : ℕ) : Words :=
  if after = 0 then
    write w list.owner list.head target
  else
    write w (.thread after) list.nextWord target

/-- The previous link of `next`, or the tail for 0 if there is one, becomes
`target`. -/
def setPrevOf (next target : ℕ) : Words :=
  if next ≠ 0 then
    write w (.thread next) list.prevWord target
  else
    match list.tail with
    | some tail => write w list.owner tail target
    | none => w

/-- Link `r` after `after`, or first for 0. -/
def insertAfter (after r : ℕ) : Words :=
  let next := if after = 0 then list.first w else list.next w after
  let w := write w (.thread r) list.prevWord after
  let w := write w (.thread r) list.nextWord next
  let w := list.setNextOf w after r
  let w := list.setPrevOf w next r
  if list.counted then counts w list.owner 1 else w

def pushBack (r : ℕ) : Words :=
  list.insertAfter w (list.last w) r

def remove (r : ℕ) : Words :=
  let prev := list.prev w r
  let next := list.next w r
  let w := list.setNextOf w prev next
  let w := list.setPrevOf w next prev
  let w := write w (.thread r) list.prevWord 0
  let w := write w (.thread r) list.nextWord 0
  if list.counted then counts w list.owner (-1) else w

def replace (old new : ℕ) : Words :=
  let prev := list.prev w old
  let next := list.next w old
  let w := write w (.thread new) list.prevWord prev
  let w := write w (.thread new) list.nextWord next
  let w := list.setNextOf w prev new
  let w := list.setPrevOf w next new
  let w := write w (.thread old) list.prevWord 0
  write w (.thread old) list.nextWord 0

/-- The walk of `movedBack`: from `after` to the last member before one whose
key is above `k`.  A walk takes fewer steps than the list has members, and
`fuel` is at least that. -/
def walkBack (w : Words) (key : Words → ℕ → ℕ) (k : ℕ) : ℕ → ℕ → ℕ
  | 0, after => after
  | fuel + 1, after =>
    let next := list.next w after
    if next = 0 ∨ key w next > k then after else walkBack w key k fuel next

/-- `r`'s key rose: move it toward the tail, past every member with a lower
key. -/
def movedBack (fuel r : ℕ) (key : Words → ℕ → ℕ) : Words :=
  let k := key w r
  let after := list.next w r
  if after = 0 ∨ key w after > k then
    w
  else
    let removed := list.remove w r
    list.insertAfter removed (list.walkBack removed key k fuel after) r

end IpcList

end Redoubt.Ipclist
