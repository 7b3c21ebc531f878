import Redoubt.Library.Chronicle
import Redoubt.Client.Hub

/-!
# Each request in one place

What holds of the requests of a hub between any two of its steps: each that was accepted
is outstanding, or has come back, once; on the way, one may be in hand.
-/

namespace Redoubt.Client

open List Buffer

/-- A request's connection, tag and slot. -/
abbrev InHand := Option (ℕ × UInt16 × Slot)

/-- The requests outstanding, queued, come back and accepted agree. -/
structure Once (hand : InHand) (slot : ℕ → UInt16 → Option Slot)
    (queue : ℕ → List Queued)
    (taken done : List Done) (accepted : List Accepted) : Prop where
  names : ∀ c t s, slot c t = some s →
    accepted[s.request]? = some ⟨c, t, s.buffer.map page⟩
  returns : ∀ d ∈ taken ++ done,
    accepted[d.request]? = some ⟨d.conn, d.tag, d.buffer.map page⟩
  once : (taken ++ done).Pairwise fun d e => d.request ≠ e.request
  apart : ∀ c t s, slot c t = some s → ∀ d ∈ taken ++ done, d.request ≠ s.request
  all : ∀ n < accepted.length, (∃ c t s, slot c t = some s ∧ s.request = n) ∨
    (∃ c t s, hand = some (c, t, s) ∧ s.request = n) ∨ ∃ d ∈ taken ++ done,
      d.request = n
  tags : ∀ c t s, slot c t = some s → ∀ d ∈ done, ¬ (d.conn = c ∧ d.tag = t)
  done_tags : done.Pairwise fun d e => ¬ (d.conn = e.conn ∧ d.tag = e.tag)
  queued : ∀ c, ∀ q ∈ queue c, ∃ s, slot c q.tag = some s ∧ s.request = q.request
  queue_tags : ∀ c, (queue c).Pairwise fun q r => q.tag ≠ r.tag
  flushes : ∀ c t s old, slot c t = some s → s.flushes = some old → old ≠ t →
    ∀ q ∈ queue c, q.tag ≠ old
  held : ∀ c t s, hand = some (c, t, s) →
    accepted[s.request]? = some ⟨c, t, s.buffer.map page⟩ ∧ slot c t = none ∧
      (∀ d ∈ taken ++ done, d.request ≠ s.request) ∧
      (∀ d ∈ done, ¬ (d.conn = c ∧ d.tag = t)) ∧
      ∀ old, s.flushes = some old → ∀ q ∈ queue c, q.tag ≠ old

namespace Once

variable {hand : InHand} {slot slot' : ℕ → UInt16 → Option Slot}
    {queue queue' : ℕ → List Queued}
  {taken done : List Done} {accepted : List Accepted} {c : ℕ} {t : UInt16}
    {s : Slot} {d : Done}

/-- No two requests outstanding are one. -/
theorem place_eq (h : Once hand slot queue taken done accepted) {c' : ℕ}
    {t' : UInt16} {s' : Slot}
    (hs : slot c t = some s) (hs' : slot c' t' = some s')
    (heq : s.request = s'.request) : c = c' ∧ t = t' := by
  have hname := h.names c t s hs
  rw [heq, h.names c' t' s' hs'] at hname
  have hsame := Option.some.inj hname
  exact ⟨(congrArg Accepted.conn hsame).symm, (congrArg Accepted.tag hsame).symm⟩

/-- Nor is one in hand outstanding. -/
theorem held_ne (h : Once (some (c, t, s)) slot queue taken done accepted) {c' : ℕ}
    {t' : UInt16} {s' : Slot}
    (hs' : slot c' t' = some s') : s'.request ≠ s.request := by
  intro heq
  obtain ⟨hname, hnone, -⟩ := h.held c t s rfl
  rw [← heq, h.names c' t' s' hs'] at hname
  have hsame := Option.some.inj hname
  obtain rfl : c' = c := congrArg Accepted.conn hsame
  obtain rfl : t' = t := congrArg Accepted.tag hsame
  exact nomatch hnone.symm.trans hs'

/-- A request that is not queued is taken in hand. -/
theorem take (h : Once none slot queue taken done accepted) (hs : slot c t = some s)
    (hqueue : ∀ q ∈ queue c, q.tag ≠ t)
    (hslot : ∀ c' t', slot' c' t' = if c' = c ∧ t' = t then none else slot c' t') :
    Once (some (c, t, s)) slot' queue taken done accepted := { h with
  names := by
    intro c' t' s' hs'
    have := h.names c' t' s'
    grind
  apart := by
    intro c' t' s' hs'
    have := h.apart c' t' s'
    grind
  all := by
    intro n hn
    have := h.all n hn
    grind
  tags := by
    intro c' t' s' hs'
    have := h.tags c' t' s'
    grind
  queued := by
    intro c' q hq
    have := h.queued c' q hq
    grind
  flushes := by
    intro c' t' s' old hs'
    have := h.flushes c' t' s' old
    grind
  held := by
    intro c' t' s' heq
    cases heq
    have := h.flushes c t s
    exact ⟨h.names c t s hs, by grind, h.apart c t s hs, h.tags c t s hs, by grind⟩ }

/-- The request in hand comes back. -/
theorem give (h : Once (some (c, t, s)) slot queue taken done accepted)
    (hconn : d.conn = c) (htag : d.tag = t)
    (hrequest : d.request = s.request) (hpage : d.buffer.map page = s.buffer.map page) :
    Once none slot queue taken (done ++ [d]) accepted := by
  obtain ⟨hname, hnone, hnew, htags, -⟩ := h.held c t s rfl
  exact { h with
    returns := by
      intro e he
      have := h.returns e
      grind
    once := by
      rw [← append_assoc]
      refine pairwise_append.mpr ⟨h.once, pairwise_singleton _ _, fun e he e' he' => ?_⟩
      grind
    apart := by
      intro c' t' s' hs' e he
      have := h.apart c' t' s' hs' e
      have := h.held_ne hs'
      grind
    all := by
      intro n hn
      have := h.all n hn
      grind
    tags := by
      intro c' t' s' hs' e he
      have := h.tags c' t' s' hs' e
      grind
    done_tags := by
      refine pairwise_append.mpr ⟨h.done_tags, pairwise_singleton _ _,
        fun e he e' he' => ?_⟩
      grind
    held := nofun }

/-- A request that is not queued comes back. -/
theorem complete (h : Once hand slot queue taken done accepted) (hs : slot c t = some s)
    (hqueue : ∀ q ∈ queue c, q.tag ≠ t)
    (hslot : ∀ c' t', slot' c' t' = if c' = c ∧ t' = t then none else slot c' t')
    (hconn : d.conn = c) (htag : d.tag = t) (hrequest : d.request = s.request)
    (hpage : d.buffer.map page = s.buffer.map page) :
    Once hand slot' queue taken (done ++ [d]) accepted := { h with
  names := by
    intro c' t' s' hs'
    have := h.names c' t' s'
    grind
  returns := by
    intro e he
    have := h.returns e
    have := h.names c t s hs
    grind
  once := by
    rw [← append_assoc]
    refine pairwise_append.mpr ⟨h.once, pairwise_singleton _ _, fun e he e' he' => ?_⟩
    have := h.apart c t s hs e he
    grind
  apart := by
    intro c' t' s' hs' e he
    have := h.apart c' t' s'
    have hplace (hs' : slot c' t' = some s') := h.place_eq hs hs'
    grind
  all := by
    intro n hn
    rcases h.all n hn with ⟨c', t', s', hs', rfl⟩ | hheld | ⟨e, he, rfl⟩
    · by_cases hhere : c' = c ∧ t' = t
      · obtain ⟨rfl, rfl⟩ := hhere
        cases hs.symm.trans hs'
        exact .inr (.inr ⟨d, by grind, hrequest⟩)
      · exact .inl ⟨c', t', s', by grind, rfl⟩
    · exact .inr (.inl hheld)
    · exact .inr (.inr ⟨e, by grind, rfl⟩)
  tags := by
    intro c' t' s' hs' e he
    have := h.tags c' t' s'
    grind
  done_tags := by
    refine pairwise_append.mpr ⟨h.done_tags, pairwise_singleton _ _,
      fun e he e' he' => ?_⟩
    have := h.tags c t s hs e he
    grind
  queued := by
    intro c' q hq
    have := h.queued c' q hq
    grind
  flushes := by
    intro c' t' s' old hs'
    have := h.flushes c' t' s' old
    grind
  held := by
    rintro c' t' s' rfl
    obtain ⟨hname, hnone, hnew, htags, hflush⟩ := h.held c' t' s' rfl
    have := h.held_ne hs
    exact ⟨hname, by grind, by grind, by grind, hflush⟩ }

theorem accepted_snoc {n : ℕ} {a : Accepted} (ha : accepted[n]? = some a)
    (a' : Accepted) :
    n ≠ accepted.length ∧ (accepted ++ [a'])[n]? = some a := by
  have hlt := (List.getElem?_eq_some_iff.mp ha).1
  exact ⟨hlt.ne, (getElem?_append_left hlt).trans ha⟩

/-- A request with a free tag is accepted and queued. -/
theorem accept (h : Once none slot queue taken done accepted) (hfree : slot c t = none)
    (hdone : ∀ d ∈ done, ¬ (d.conn = c ∧ d.tag = t))
    (hnamed : ∀ t' s', slot c t' = some s' → s'.flushes ≠ some t)
    (hflush : ∀ old, s.flushes = some old → ∀ q ∈ queue c, q.tag ≠ old)
    (hrequest : s.request = accepted.length) {q : Queued} (hqtag : q.tag = t)
    (hqrequest : q.request = s.request)
    (hslot : ∀ c' t', slot' c' t' = if c' = c ∧ t' = t then some s else slot c' t')
    (hqueue : ∀ c', queue' c' = if c' = c then queue c ++ [q] else queue c') :
    Once none slot' queue' taken done (accepted ++ [⟨c, t, s.buffer.map page⟩]) := by
  have hold {n : ℕ} {a : Accepted} (ha : accepted[n]? = some a) (a' : Accepted) :=
    accepted_snoc ha a'
  exact { h with
    names := by
      intro c' t' s' hs'
      have := h.names c' t' s'
      grind
    returns := by
      intro d hd
      exact (hold (h.returns d hd) _).2
    apart := by
      intro c' t' s' hs' d hd
      have := h.apart c' t' s'
      have := (hold (h.returns d hd) ⟨c, t, none⟩).1
      grind
    all := by
      intro n hn
      rw [length_append] at hn
      rcases Nat.lt_succ_iff_lt_or_eq.mp hn with hlt | rfl
      · rcases h.all n hlt with ⟨c', t', s', hs', hn⟩ | hheld | hreturned
        · exact .inl ⟨c', t', s', by grind, hn⟩
        · exact .inr (.inl hheld)
        · exact .inr (.inr hreturned)
      · exact .inl ⟨c, t, s, by grind, hrequest⟩
    tags := by
      intro c' t' s' hs'
      have := h.tags c' t' s'
      grind
    queued := by
      intro c' q' hq'
      have := h.queued c' q'
      grind
    queue_tags := by
      intro c'
      rw [hqueue]
      split
      · next heq =>
        subst heq
        refine pairwise_append.mpr ⟨h.queue_tags c', pairwise_singleton _ _,
          fun q' hq' r hr => ?_⟩
        have := h.queued c' q' hq'
        grind
      · exact h.queue_tags c'
    flushes := by
      intro c' t' s' old hs' hold' hne q' hq'
      have := h.flushes c' t' s' old
      grind
    held := nofun }

/-- A request with a free tag is accepted and comes back at once. -/
theorem acceptDone (h : Once none slot queue taken done accepted)
    (hfree : slot d.conn d.tag = none)
    (hdone : ∀ e ∈ done, ¬ (e.conn = d.conn ∧ e.tag = d.tag))
    (hrequest : d.request = accepted.length) :
    Once none slot queue taken (done ++ [d])
      (accepted ++ [⟨d.conn, d.tag, d.buffer.map page⟩]) := { h with
  names := fun c t s hs => (accepted_snoc (h.names c t s hs) _).2
  returns := by
    intro e he
    rw [← append_assoc] at he
    rcases mem_append.mp he with he | he
    · exact (accepted_snoc (h.returns e he) _).2
    · rw [mem_singleton.mp he, hrequest]
      exact getElem?_concat_length
  once := by
    rw [← append_assoc]
    refine pairwise_append.mpr ⟨h.once, pairwise_singleton _ _, fun e he e' he' => ?_⟩
    have := (accepted_snoc (h.returns e he) ⟨0, 0, none⟩).1
    grind
  apart := by
    intro c t s hs e he
    have := h.apart c t s hs e
    have := (accepted_snoc (h.names c t s hs) ⟨0, 0, none⟩).1
    grind
  all := by
    intro n hn
    rw [length_append] at hn
    rcases Nat.lt_succ_iff_lt_or_eq.mp hn with hlt | rfl
    · rcases h.all n hlt with hslot | hheld | ⟨e, he, hn⟩
      · exact .inl hslot
      · exact .inr (.inl hheld)
      · exact .inr (.inr ⟨e, by grind, hn⟩)
    · exact .inr (.inr ⟨d, by grind, hrequest⟩)
  tags := by
    intro c t s hs e he
    have := h.tags c t s hs e
    grind
  done_tags := by
    refine pairwise_append.mpr ⟨h.done_tags, pairwise_singleton _ _,
      fun e he e' he' => ?_⟩
    grind
  held := nofun }

/-- Requests of a connection whose queue is empty come back together. -/
theorem completeAll (h : Once none slot queue taken done accepted)
    (hqueue : queue c = []) {ds : List Done}
    (htags : ds.Pairwise fun d e => d.tag ≠ e.tag)
    (hds : ∀ d ∈ ds, d.conn = c ∧ ∃ s, slot c d.tag = some s ∧ d.request = s.request ∧
      d.buffer.map page = s.buffer.map page)
    (hslot : ∀ c' t', slot' c' t' = if c' = c ∧ t' ∈ ds.map Done.tag then none
      else slot c' t') :
    Once none slot' queue taken (done ++ ds) accepted := by
  induction ds generalizing slot done with
  | nil =>
    have hsame : slot' = slot := by
      funext c' t'
      rw [hslot, if_neg fun hhere => nomatch hhere.2]
    rwa [hsame, append_nil]
  | cons d rest ih =>
    obtain ⟨hconn, s, hs, hrequest, hpage⟩ := hds d mem_cons_self
    obtain ⟨hfirst, hrest⟩ := pairwise_cons.mp htags
    have hone := h.complete hs (fun q hq => nomatch hqueue ▸ hq) (fun c' t' => rfl)
      hconn rfl hrequest hpage
    rw [append_cons]
    refine ih hone hrest (fun e he => ?_) fun c' t' => ?_
    · have := hds e (mem_cons_of_mem _ he)
      grind
    · rw [hslot]
      grind

/-- Messages at the front of the queues are sent. -/
theorem sends (h : Once hand slot queue taken done accepted)
    (hqueue : ∀ c, (queue' c).Sublist (queue c)) :
    Once hand slot queue' taken done accepted :=
  { h with
    queued := fun c q hq => h.queued c q ((hqueue c).subset hq)
    queue_tags := fun c => (h.queue_tags c).sublist (hqueue c)
    flushes := fun c t s old hs hold hne q hq => h.flushes c t s old hs hold hne q
      ((hqueue c).subset hq)
    held := by
      intro c t s heq
      obtain ⟨hname, hnone, hnew, htags, hflush⟩ := h.held c t s heq
      exact ⟨hname, hnone, hnew, htags, fun old hold q hq =>
        hflush old hold q ((hqueue c).subset hq)⟩ }

/-- A request still queued and one that flushes it come back together. -/
theorem flushQueued (h : Once none slot queue taken done accepted) {i : ℕ}
    {old : Queued} {e : Done}
    (hget : (queue c)[i]? = some old)
    (hqueue : ∀ c', queue' c' = if c' = c then (queue c).eraseIdx i else queue c')
    (hslot : ∀ c' t', slot' c' t' = if c' = c ∧ t' = old.tag then none else slot c' t')
    (hconn : d.conn = c) (htag : d.tag = old.tag) (hrequest : d.request = old.request)
    (hbuffer : d.buffer = (slot c old.tag).bind Slot.buffer)
    (hfree : slot e.conn e.tag = none)
    (hdone : ∀ d ∈ done, ¬ (d.conn = e.conn ∧ d.tag = e.tag))
    (hnew : e.request = accepted.length) :
    Once none slot' queue' taken (done ++ [d] ++ [e])
      (accepted ++ [⟨e.conn, e.tag, e.buffer.map page⟩]) := by
  obtain ⟨held, hheld, hheldRequest⟩ := h.queued c old (mem_of_getElem? hget)
  have hsublist (c' : ℕ) : (queue' c').Sublist (queue c') := by
    rw [hqueue]
    split
    · next heq => exact heq ▸ eraseIdx_sublist _ _
    · exact .refl _
  -- no other message of the queue has its tag
  have hapart (q : Queued) (hq : q ∈ queue' c) : q.tag ≠ d.tag := by
    rw [hqueue, if_pos rfl] at hq
    obtain ⟨j, hj, hne, rfl⟩ := mem_eraseIdx_iff_getElem.mp hq
    obtain ⟨hi, rfl⟩ := List.getElem?_eq_some_iff.mp hget
    rw [htag]
    have hpairs := pairwise_iff_getElem.mp (h.queue_tags c)
    rcases Nat.lt_or_gt_of_ne hne with hlt | hlt
    · exact hpairs j i hj hi hlt
    · exact (hpairs i j hi hj hlt).symm
  have hold := (h.sends hsublist).complete (s := held) (htag ▸ hheld) hapart
    (htag ▸ hslot) hconn rfl
    (hrequest.trans hheldRequest.symm) (by rw [hbuffer, hheld]; rfl)
  refine hold.acceptDone ?_ (fun d' hd' => ?_) hnew
  · rw [hslot, hfree]
    exact ite_self _
  · rcases mem_append.mp hd' with hd' | hd'
    · exact hdone d' hd'
    · rw [mem_singleton.mp hd']
      rintro ⟨hc, ht⟩
      rw [← hc, ← ht, hconn, htag, hheld] at hfree
      exact nomatch hfree

/-- The oldest completion is taken. -/
theorem pop (h : Once hand slot queue taken (d :: done) accepted) :
    Once hand slot queue (taken ++ [d]) done accepted := by
  have hsame : taken ++ [d] ++ done = taken ++ d :: done := by
    rw [append_assoc, singleton_append]
  exact { h with
    returns := hsame ▸ h.returns
    once := hsame ▸ h.once
    apart := hsame ▸ h.apart
    all := hsame ▸ h.all
    tags := fun c t s hs e he => h.tags c t s hs e (mem_cons_of_mem _ he)
    done_tags := (pairwise_cons.mp h.done_tags).2
    held := by
      intro c t s heq
      obtain ⟨hname, hnone, hnew, htags, hflush⟩ := h.held c t s heq
      exact ⟨hname, hnone, hsame ▸ hnew, fun e he => htags e (mem_cons_of_mem _ he),
        hflush⟩ }

end Once

end Redoubt.Client
