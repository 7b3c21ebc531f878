import Redoubt.Library.Chronicle
import Redoubt.Ninep.Mux

/-!
# The tag protocol

The history of the sessions' requests says which are outstanding.  In an orderly one a
tag is taken only while it is free, an answer is to the request outstanding under its
tag, and a `Tflush` that was kept leaves nothing outstanding under the tag it names.
-/

namespace Redoubt.Ninep

open History Serve List

/-- A request outstanding: its place in the history, its bytes, and whether it was
kept. -/
structure Taken where
  place : ℕ
  request : List UInt8
  kept : Bool
deriving DecidableEq, Repr

/-- The request outstanding under each connection's tags. -/
abbrev Outstanding := ConnKey → UInt16 → Option Taken

/-- What an event at place `n` makes of it. -/
def MuxEvent.mark (n : ℕ) (out : Outstanding) : MuxEvent → Outstanding
  | taken key tag request kept =>
  fun k t => if k = key ∧ t = tag then some ⟨n, request, kept⟩ else out k t
  | flushed key tag => fun k t => if k = key ∧ t = tag then none else out k t
  | answered key reply => fun k t => if k = key ∧ t = reply.tag then none else out k t
  | ended key => fun k t => if k = key then none else out k t

def outstandingFrom (n : ℕ) (out : Outstanding) : List MuxEvent → Outstanding
  | [] => out
  | e :: rest => outstandingFrom (n + 1) (e.mark n out) rest

/-- What is outstanding after a history. -/
def outstanding (history : List MuxEvent) : Outstanding :=
  outstandingFrom 0 (fun _ _ => none) history

variable {history past future : List MuxEvent} {key k : ConnKey} {tag t : UInt16}
    {out : Outstanding}
  {n : ℕ} {e : MuxEvent}

theorem outstandingFrom_append (n : ℕ) (out : Outstanding)
    (past future : List MuxEvent) :
    outstandingFrom n out (past ++ future) =
      outstandingFrom (n + past.length) (outstandingFrom n out past) future := by
  induction past generalizing n out with
  | nil => rfl
  | cons e rest ih =>
    rw [cons_append, outstandingFrom, ih, add_assoc, add_comm 1]
    rfl

theorem outstanding_snoc (history : List MuxEvent) (e : MuxEvent) :
    outstanding (history ++ [e]) = e.mark history.length (outstanding history) := by
  rw [outstanding, outstandingFrom_append, zero_add]
  rfl

section Snoc

variable (history : List MuxEvent) (k : ConnKey) (t : UInt16)

theorem outstanding_taken (request : List UInt8) (kept : Bool) :
    outstanding (history ++ [.taken key tag request kept]) k t =
      if k = key ∧ t = tag then some ⟨history.length, request, kept⟩
      else outstanding history k t := by
  rw [outstanding_snoc]
  rfl

theorem outstanding_flushed : outstanding (history ++ [.flushed key tag]) k t =
    if k = key ∧ t = tag then none else outstanding history k t := by
  rw [outstanding_snoc]
  rfl

theorem outstanding_ended : outstanding (history ++ [.ended key]) k t =
    if k = key then none else outstanding history k t := by
  rw [outstanding_snoc]
  rfl

end Snoc

variable {x : Taken}

theorem mark_eq_some (hmark : e.mark n out k t = some x) :
    out k t = some x ∨ x.place = n ∧ e = .taken k t x.request x.kept := by
  cases e with
  | taken key tag request kept =>
    dsimp only [MuxEvent.mark] at hmark
    split_ifs at hmark with hhere
    · obtain ⟨rfl, rfl⟩ := hhere
      cases hmark
      exact .inr ⟨rfl, rfl⟩
    · exact .inl hmark
  | flushed key tag =>
    dsimp only [MuxEvent.mark] at hmark
    split_ifs at hmark
    exact .inl hmark
  | answered key reply =>
    dsimp only [MuxEvent.mark] at hmark
    split_ifs at hmark
    exact .inl hmark
  | ended key =>
    dsimp only [MuxEvent.mark] at hmark
    split_ifs at hmark
    exact .inl hmark

/-- A request not outstanding before was taken since. -/
theorem le_place (hsome : outstandingFrom n out history k t = some x)
    (hnone : out k t = none) : n ≤ x.place := by
  suffices h : out k t = some x ∨ n ≤ x.place from
    h.resolve_left fun hsome => nomatch hnone.symm.trans hsome
  clear hnone
  induction history generalizing n out with
  | nil => exact .inl hsome
  | cons e rest ih =>
    rcases ih hsome with hmark | hle
    · rcases mark_eq_some hmark with hout | ⟨hplace, -⟩
      · exact .inl hout
      · exact .inr hplace.ge
    · exact .inr (Nat.le_of_succ_le hle)

/-- A request outstanding is where its place says. -/
theorem event_at_place (hsome : outstanding history k t = some x) :
    ∃ past future, history = past ++ .taken k t x.request x.kept :: future ∧
      past.length = x.place := by
  induction history using List.reverseRecOn with
  | nil => exact nomatch hsome
  | append_singleton init e ih =>
    rw [outstanding_snoc] at hsome
    rcases mark_eq_some hsome with hout | ⟨hplace, rfl⟩
    · obtain ⟨past, future, rfl, hlength⟩ := ih hout
      exact ⟨past, future ++ [e], by rw [append_assoc, cons_append], hlength⟩
    · exact ⟨init, [], rfl, hplace.symm⟩

/-- A read is given the data that it would be given alone in the lend, and is given it
whenever it would be. -/
def Reply.Whole (r : Reply) : Prop :=
  ∀ tag data, r.message = ⟨tag, .rread data⟩ ↔ ∃ size,
    r.alone = .replied ⟨tag, .rread data⟩ size

theorem whole_busyReply (tag : UInt16) (size : ℕ) : (busyReply tag size).Whole := by
  intro tag' data
  simp only [busyReply, busy, Message.mk.injEq, Answer.replied.injEq,
    reduceCtorEq, and_false,
    false_and, exists_false]

/-- What may happen next. -/
def InOrder (past : List MuxEvent) : MuxEvent → Prop
  | .taken key tag request kept =>
    outstanding past key tag = none ∧
      (kept = true → ∀ old, flushes tag request = some old →
        outstanding past key old = none)
  | .flushed key tag => outstanding past key tag ≠ none
  | .answered key reply =>
    (∃ x, outstanding past key reply.tag = some x ∧
      (x.kept = false → reply.message = busy reply.tag)) ∧ reply.Whole
  | .ended _ => True

variable {request : List UInt8}

theorem flushes_ne {old : UInt16} (hflush : flushes tag request = some old) :
    tag ≠ old := by
  rw [flushes] at hflush
  split at hflush
  · split_ifs at hflush with heq
    cases hflush
    exact Ne.symm heq
  · exact nomatch hflush

/-! ### One request's life -/

/-- An event that is the last of a request outstanding under a tag. -/
def Closes (key : ConnKey) (tag : UInt16) : MuxEvent → Bool
  | .taken .. => false
  | .flushed k t => k = key ∧ t = tag
  | .answered k reply => k = key ∧ reply.tag = tag
  | .ended k => k = key

theorem mark_of_closes (hcloses : Closes key tag e = true) :
    e.mark n out key tag = none := by
  cases e with
  | taken k t request kept => exact nomatch hcloses
  | flushed k t =>
    obtain ⟨rfl, rfl⟩ := of_decide_eq_true hcloses
    exact if_pos ⟨rfl, rfl⟩
  | answered k reply =>
    obtain ⟨rfl, rfl⟩ := of_decide_eq_true hcloses
    exact if_pos ⟨rfl, rfl⟩
  | ended k =>
    obtain rfl := of_decide_eq_true hcloses
    exact if_pos rfl

/-- Any other event leaves a request outstanding. -/
theorem mark_of_not_closes (horder : InOrder past e)
    (hout : outstanding past key tag = some x)
    (hopen : Closes key tag e = false) :
    e.mark n (outstanding past) key tag = some x := by
  rw [← hout]
  cases e with
  | taken k t request kept =>
    refine if_neg fun hhere => ?_
    obtain ⟨rfl, rfl⟩ := hhere
    exact nomatch horder.1.symm.trans hout
  | flushed k t =>
    exact if_neg fun hhere => of_decide_eq_false hopen ⟨hhere.1.symm, hhere.2.symm⟩
  | answered k reply =>
    exact if_neg fun hhere => of_decide_eq_false hopen ⟨hhere.1.symm, hhere.2.symm⟩
  | ended k => exact if_neg fun hhere => of_decide_eq_false hopen hhere.symm

/-- A request stays outstanding until something closes it. -/
theorem outstanding_until {kept : Bool} {mid : List MuxEvent}
    (horder : Chronicle InOrder (past ++ .taken key tag request kept :: mid))
    (hopen : ∀ e ∈ mid, Closes key tag e = false) :
    outstanding (past ++ .taken key tag request kept :: mid) key tag =
      some ⟨past.length, request, kept⟩ := by
  induction mid using List.reverseRecOn with
  | nil => rw [outstanding_taken, if_pos ⟨rfl, rfl⟩]
  | append_singleton mid e ih =>
    have hsplit : past ++ .taken key tag request kept :: (mid ++ [e]) =
        (past ++ .taken key tag request kept :: mid) ++ [e] := by
      rw [append_assoc, cons_append]
    rw [hsplit] at horder ⊢
    have hbefore := ih (fun before e' after heq => horder before e' (after ++ [e]) (by
      rw [heq, append_assoc, cons_append])) fun e he => hopen e (mem_append_left _ he)
    rw [outstanding_snoc]
    exact mark_of_not_closes (horder _ e [] rfl) hbefore
      (hopen e (mem_append_right _ mem_cons_self))

/-- A request outstanding that was not before is among the events since. -/
theorem taken_since (hsome : outstandingFrom n out history key tag = some x)
    (hnone : out key tag = none) :
    ∃ request kept, .taken key tag request kept ∈ history := by
  suffices h : out key tag = some x ∨ ∃ request kept,
      .taken key tag request kept ∈ history from
    h.resolve_left fun hsome => nomatch hnone.symm.trans hsome
  clear hnone
  induction history generalizing n out with
  | nil => exact .inl hsome
  | cons e rest ih =>
    rcases ih hsome with hmark | ⟨request, kept, htaken⟩
    · rcases mark_eq_some hmark with hout | ⟨-, rfl⟩
      · exact .inl hout
      · exact .inr ⟨_, _, mem_cons_self⟩
    · exact .inr ⟨request, kept, mem_cons_of_mem _ htaken⟩

variable {reply : Reply}

section

variable (horder : Chronicle InOrder history)
include horder

/-- An answer after a request was closed is to one taken since. -/
theorem answered_since (closing mid rest : List MuxEvent)
    (hhistory : history = closing ++ mid ++ .answered key reply :: rest)
    (hclosed : outstanding closing key reply.tag = none) :
    ∃ request kept, .taken key reply.tag request kept ∈ mid := by
  obtain ⟨⟨x, hx, -⟩, -⟩ := horder _ _ rest hhistory
  rw [outstanding, outstandingFrom_append] at hx
  exact taken_since hx hclosed

/-- Under each tag a request is open, or closed once, and what is answered after that
was taken after it. -/
theorem closed_once {kept : Bool}
    (hhistory : history = past ++ .taken key tag request kept :: future) :
    (outstanding history key tag = some ⟨past.length, request, kept⟩ ∧
        ∀ e ∈ future, Closes key tag e = false) ∨
      ∃ mid e rest, future = mid ++ e :: rest ∧
      (∀ e' ∈ mid, Closes key tag e' = false) ∧
        Closes key tag e = true ∧
        ∀ mid' reply rest', rest = mid' ++ .answered key reply :: rest' →
        reply.tag = tag →
          ∃ request' kept', .taken key tag request' kept' ∈ mid' := by
  cases hfind : future.find? (Closes key tag) with
  | none =>
    have hopen (e : MuxEvent) (he : e ∈ future) : Closes key tag e = false :=
      Bool.eq_false_iff.mpr (find?_eq_none.mp hfind e he)
    rw [hhistory] at horder ⊢
    exact .inl ⟨outstanding_until horder hopen, hopen⟩
  | some e =>
    obtain ⟨hcloses, mid, rest, rfl, hopen⟩ := find?_eq_some_iff_append.mp hfind
    refine .inr ⟨mid, e, rest, rfl, fun e' he' => Bool.eq_false_iff.mpr fun h =>
      ?_, hcloses, ?_⟩
    · have hnot := hopen e' he'
      rw [h] at hnot
      exact nomatch hnot
    · rintro mid' reply rest' rfl rfl
      refine answered_since horder
        (past ++ .taken key reply.tag request kept :: (mid ++ [e])) mid' rest' ?_ ?_
      · simp only [hhistory, append_assoc, cons_append, nil_append]
      · rw [← cons_append, ← append_assoc, outstanding_snoc]
        exact mark_of_closes hcloses

/-- Every answer is to a request taken under its tag and open until then. -/
theorem answers_taken (hhistory : history = past ++ .answered key reply :: future) :
    ∃ before request kept between,
      past = before ++ .taken key reply.tag request kept :: between ∧
      ∀ e ∈ between, Closes key reply.tag e = false := by
  obtain ⟨⟨x, hx, -⟩, -⟩ := horder past _ future hhistory
  obtain ⟨before, between, hpast, hplace⟩ := event_at_place hx
  refine ⟨before, x.request, x.kept, between, hpast,
    fun e he => Bool.eq_false_iff.mpr fun hcloses => ?_⟩
  obtain ⟨mid, rest, rfl⟩ := append_of_mem he
  -- what is outstanding after the closing event was taken after it
  have hnone : outstanding (before ++ .taken key reply.tag x.request x.kept ::
      (mid ++ [e])) key reply.tag = none := by
    rw [← cons_append, ← append_assoc, outstanding_snoc]
    exact mark_of_closes hcloses
  have hsplit : past =
      (before ++ .taken key reply.tag x.request x.kept :: (mid ++ [e])) ++ rest := by
    simp only [hpast, append_assoc, cons_append, nil_append]
  rw [hsplit, outstanding, outstandingFrom_append] at hx
  have hle := le_place hx hnone
  simp only [length_append, length_cons] at hle
  omega

/-- Once an `Rflush` says that a request was flushed, every answer under its tag is to
one taken later than the `Tflush`. -/
theorem answered_after_flush {before between mid rest : List MuxEvent}
    {kept : Bool} {flush : Reply}
    (hhistory : history = before ++ .taken key flush.tag request kept ::
      (between ++ .answered key flush :: (mid ++ .answered key reply :: rest)))
    (hopen : ∀ e ∈ between, Closes key flush.tag e = false)
    (hbody : flush.message.body = .rflush)
    (hold : flushes flush.tag request = some reply.tag) :
    ∃ request' kept', .taken key reply.tag request' kept' ∈
      between ++ .answered key flush :: mid := by
  have hanswered : history = (before ++ .taken key flush.tag request kept :: between) ++
      .answered key flush :: (mid ++ .answered key reply :: rest) := by
    rw [hhistory, append_assoc, cons_append]
  have hout : outstanding (before ++ .taken key flush.tag request kept :: between)
      key flush.tag =
      some ⟨before.length, request, kept⟩ :=
    outstanding_until (fun past e future heq => horder past e (future ++ _) (by
      rw [hanswered, heq, append_assoc, cons_append])) hopen
  obtain ⟨⟨x, hx, hbusy⟩, -⟩ := horder _ _ _ hanswered
  obtain rfl : x = ⟨before.length, request, kept⟩ :=
    Option.some_injective _ (hx.symm.trans hout)
  have hkept : kept = true := by
    by_contra hrefused
    have hreply := congrArg Message.body (hbusy (Bool.eq_false_iff.mpr hrefused))
    rw [hbody] at hreply
    exact Body.noConfusion hreply
  obtain ⟨-, hfree⟩ := horder before _ _ hhistory
  refine answered_since horder (before ++ [.taken key flush.tag request kept]) _ rest ?_
    ?_
  · simp only [hhistory, append_assoc, cons_append, nil_append]
  · rw [outstanding_taken, if_neg fun h => flushes_ne hold h.2.symm]
    exact hfree hkept _ hold

end

end Redoubt.Ninep
