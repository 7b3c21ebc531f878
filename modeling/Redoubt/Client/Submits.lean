import Redoubt.Client.Sends

/-!
# Requests are accepted

A request is accepted under a tag that no other request of its connection has, and it is
queued; one that flushes a request still queued comes back with it at once.
-/

namespace Redoubt.Client

open Actions Action Ninep History List Hub Meets Buffer

variable {ε : Type} {h : Hub} {c : ℕ} {t : UInt16}

/-! ### Slots -/

theorem Connection.slot_set {conn : Connection} {v : Option Slot}
    {queue : List Queued} (t' : UInt16)
    (hrange : v = none ∨ t.toNat < conn.slots.length) :
    Connection.slot { conn with slots := conn.slots.set t.toNat v, queue := queue } t' =
      if t' = t then v else conn.slot t' := by
  change ((conn.slots.set t.toNat v)[t'.toNat]?).join = _
  rw [getElem?_set]
  by_cases heq : t' = t
  · subst heq
    rw [if_pos rfl, if_pos rfl]
    split
    · rfl
    · next hnot => rw [hrange.resolve_right hnot]; rfl
  · rw [if_neg heq, if_neg fun hnat => heq (UInt16.toNat_inj.mp hnat).symm]
    rfl

/-- A slot of one connection, set. -/
theorem Hub.slot_set {v : Option Slot} {g : Connection → List Queued}
    (hrange : v = none ∨ ∃ conn, h.conns[c]? = some conn ∧ t.toNat < conn.slots.length)
    (c' : ℕ) (t' : UInt16) :
    (h.changeConn c fun conn =>
      { conn with slots := conn.slots.set t.toNat v, queue := g conn }).slot c' t' =
      if c' = c ∧ t' = t then v else h.slot c' t' := by
  rw [slot_changeConn]
  by_cases hc : c' = c
  · subst hc
    rw [if_pos rfl, slot]
    cases hconn : h.conns[c']? with
    | none =>
      rw [hconn] at hrange
      rcases hrange with rfl | ⟨conn, hconn', -⟩
      · simp
      · cases hconn'
    | some conn =>
      rw [Option.bind_some, Option.bind_some, Connection.slot_set]
      · simp only [true_and]
      · rcases hrange with rfl | ⟨conn', hconn', hlt⟩
        · exact .inl rfl
        · cases hconn.symm.trans hconn'
          exact .inr hlt
  · rw [if_neg hc, if_neg fun hhere => hc hhere.1]

/-! ### Free tags -/

/-- A tag that no request of the connection has. -/
structure Free (h : Hub) (c : ℕ) (t : UInt16) : Prop where
  running : h.ended c = false
  small : t.toNat < maxTags
  slot : h.slot c t = none
  done : ∀ d ∈ h.done, ¬ (d.conn = c ∧ d.tag = t)
  unnamed : ∀ t' s', h.slot c t' = some s' → s'.flushes ≠ some t

theorem Hub.freeTag_eq_ok (hfree : h.freeTag c = .ok t) : Free h c t := by
  rw [freeTag] at hfree
  split at hfree
  · cases hfree
  · next hrunning =>
      split at hfree
      · next tag hfind =>
          cases hfree
          have hmem := mem_of_find?_eq_some hfind
          have hgood := find?_some hfind
          simp only [tagFree, Bool.and_eq_true, Bool.not_eq_true', any_eq_false,
            decide_eq_true_eq,
            Option.isNone_iff_eq_none] at hgood
          obtain ⟨⟨hdone, hslot⟩, hflush⟩ := hgood
          refine ⟨Bool.eq_false_iff.mpr hrunning, ?_, hslot, hdone,
            fun t' s' hs' hold => ?_⟩
          · obtain ⟨i, hi, rfl⟩ := mem_map.mp hmem
            have hlt := mem_range.mp hi
            rwa [toNat_ofNat_tag hlt]
          · obtain ⟨conn, hconn, hs'⟩ := Option.bind_eq_some_iff.mp hs'
            rw [hconn] at hflush
            refine hflush (some s') (mem_of_getElem? (Option.join_eq_some_iff.mp hs'))
              ?_
            exact hold
      · cases hfree

/-! ### Accepting -/

/-- A connection that goes on is there, with every slot. -/
theorem Sound.running {hand : InHand} (hsound : Sound hand h)
    (hrunning : h.ended c = false) :
    ∃ conn, h.conns[c]? = some conn ∧ conn.slots.length = maxTags := by
  cases hconn : h.conns[c]? with
  | none =>
    rw [ended, hconn] at hrunning
    cases hrunning
  | some conn =>
    rw [ended, hconn] at hrunning
    exact ⟨conn, rfl, (hsound.sized c conn hconn).2 hrunning⟩

section Enqueue

variable {queued : Queued} {slot : Slot} (hsound : Safe h) (hfree : Free h c queued.tag)
  (hrequest : slot.request = h.accepted.length)
    (hqueued : queued.request = h.accepted.length)
include hsound hfree hrequest hqueued

/-- The request is queued. -/
theorem Sound.accept (hflush : ∀ old, slot.flushes = some old → ∀ q ∈ h.queue c,
      q.tag ≠ old) :
    Safe { h.changeConn c fun conn => { conn with
        slots := conn.slots.set queued.tag.toNat (some slot),
        queue := conn.queue ++ [queued] } with
      accepted := h.accepted ++ [⟨c, queued.tag, slot.buffer.map page⟩] } := by
  obtain ⟨conn, hconn, hlength⟩ := hsound.running hfree.running
  have hslot := slot_set (h := h) (g := fun conn => conn.queue ++ [queued])
    (v := some slot)
    (.inr ⟨conn, hconn, hlength ▸ hfree.small⟩)
  have hqueue :=
    queue_of (h := h) (c := c) (g := (· ++ [queued])) (f := fun conn => { conn with
    slots := conn.slots.set queued.tag.toNat (some slot),
    queue := conn.queue ++ [queued] }) (fun _ => rfl)
    (.inr ⟨conn, hconn⟩)
  refine hsound.change ?_ (fun conn => length_set) (fun _ => rfl) fun hended => ?_
  · exact hsound.once.accept hfree.slot hfree.done hfree.unnamed hflush hrequest rfl
      (hqueued.trans hrequest.symm)
      hslot hqueue
  · exact nomatch hfree.running.symm.trans hended

omit hrequest in
/-- The request flushes one still queued, and both come back. -/
theorem Sound.flushQueued {i : ℕ} {old : Queued} (hget : (h.queue c)[i]? = some old) :
    Meets (fun h' =>
      h' = { h with accepted := h.accepted ++ [⟨c, queued.tag, slot.buffer.map page⟩] })
      (Client.flushQueued c i old queued slot : Hubbed ε Unit)
      (fun _ => Safe) fun _ => Safe := by
  rintro h' rfl
  have hslot := Hub.slot_set (h := h) (c := c) (t := old.tag) (v := none)
    (g := fun conn => conn.queue.eraseIdx i)
    (.inl rfl)
  have hqueue := Hub.queue_of (h := h) (c := c) (g := (·.eraseIdx i))
    (f := fun conn => { conn with
    slots := conn.slots.set old.tag.toNat none, queue := conn.queue.eraseIdx i })
      (fun _ => rfl) (.inl rfl)
  have hafter : Safe { h.changeConn c fun conn => { conn with
        slots := conn.slots.set old.tag.toNat none,
        queue := conn.queue.eraseIdx i } with
      done := h.done ++
        [⟨c, old.tag, .flushed, (h.slot c old.tag).bind Slot.buffer, old.request⟩] ++
        [⟨c, queued.tag, .flushed, slot.buffer, queued.request⟩]
      accepted := h.accepted ++ [⟨c, queued.tag, slot.buffer.map page⟩] } := by
    refine hsound.change ?_ (fun conn => length_set) (fun _ => rfl) fun hended => ?_
    · exact hsound.once.flushQueued hget hqueue hslot rfl rfl rfl rfl hfree.slot
        hfree.done hqueued
    · exact nomatch hfree.running.symm.trans hended
  have hheld : (Hub.changeConn { h with
      accepted := h.accepted ++ [⟨c, queued.tag, slot.buffer.map page⟩] } c
        fun conn => { conn with queue := conn.queue.eraseIdx i }).slot c old.tag =
          h.slot c old.tag :=
    congrFun (congrFun Hub.slot_queue c) old.tag
  have hconns : h.conns.modify c (fun conn => { conn with
      slots := conn.slots.set old.tag.toNat none, queue := conn.queue.eraseIdx i }) =
      (h.conns.modify c fun conn =>
          { conn with queue := conn.queue.eraseIdx i }).modify c
        fun conn => { conn with slots := conn.slots.set old.tag.toNat none } := by
    rw [modify_modify_eq]
    rfl
  suffices hstate : (Client.flushQueued c i old queued slot { h with
        accepted := h.accepted ++ [⟨c, queued.tag, slot.buffer.map page⟩] } :
          Except ε Unit × Hub).2 = _ from
    (congrArg Safe hstate).mpr hafter
  refine Hub.ext hconns.symm ?_ rfl rfl rfl rfl rfl rfl
  exact congrArg (fun held =>
    h.done ++ [⟨c, old.tag, .flushed, held.bind Slot.buffer, old.request⟩] ++
    [⟨c, queued.tag, .flushed, slot.buffer, queued.request⟩]) hheld

theorem enqueue_safe : Meets (fun h' => h' = h) (enqueue c queued slot : Hubbed ε Unit)
      (fun _ => Safe) fun _ => Safe := by
  have haccept : Meets (fun h' => h' = h)
      (change fun h =>
        { h with accepted := h.accepted ++ [⟨c, queued.tag, slot.buffer.map page⟩] } :
        Hubbed ε Unit)
      (fun _ h' => h' =
        { h with accepted := h.accepted ++ [⟨c, queued.tag, slot.buffer.map page⟩] })
      fun _ => Safe :=
    meets_change fun h' hh' => by rw [hh']
  refine haccept.bind fun _ => .known (a := h.queue c) (fun h' hh' => hh' ▸ rfl) ?_
  cases hat : (flushedAt (h.queue c) slot).bind fun i =>
    ((h.queue c)[i]?).map (i, ·) with
  | some found =>
    obtain ⟨i, old⟩ := found
    obtain ⟨j, -, hget⟩ := Option.bind_eq_some_iff.mp hat
    obtain ⟨old', hget, heq⟩ := Option.map_eq_some_iff.mp hget
    cases heq
    exact Sound.flushQueued hsound hfree hqueued hget
  | none =>
    have hflush (old : UInt16) (hold : slot.flushes = some old) (q : Queued) (hq :
        q ∈ h.queue c) : q.tag ≠ old := by
      intro htag
      cases hfind : (h.queue c).findIdx? fun q => q.tag = old with
      | none => exact of_decide_eq_false (findIdx?_eq_none_iff.mp hfind q hq) htag
      | some i =>
        have hlt := (findIdx?_eq_some_iff_getElem.mp hfind).1
        rw [flushedAt, hold, Option.bind_some, hfind, Option.bind_some,
          getElem?_eq_getElem hlt] at hat
        cases hat
    refine bind (meets_change fun h' hh' => ?_) fun _ => whatever fun batching =>
      .ite (fun _ => meets_pure fun _ hs => hs) fun _ => sendQueued_safe
    rw [hh']
    exact Sound.accept hsound hfree hrequest hqueued hflush

end Enqueue

/-! ### Submitting -/

theorem freeTag_safe :
    Meets Safe (freeTag c) (fun t h => Safe h ∧ Free h c t) fun _ => Safe := by
  intro h hs
  change Ends _ _ (h.freeTag c, h)
  cases hfree : h.freeTag c with
  | error e => exact hs
  | ok t => exact ⟨hs, freeTag_eq_ok hfree⟩

/-- A message under a free tag is accepted. -/
theorem accept_safe {message : Option (List UInt8)} {buffer : Option Buffer}
    {flushes : Option UInt16} :
    Meets (fun h => Safe h ∧ Free h c t) (do
        let message ← found message .wire
        let request ← query (·.accepted.length)
        enqueue c ⟨t, message, request⟩ ⟨buffer, flushes, request⟩
        return t : Hubbed Error UInt16) (fun _ => Safe) fun _ => Safe := by
  refine bind (found (fun _ _ _ hs => hs) fun _ _ hs => hs.1) fun message =>
    ask fun request => bind ?_ fun _ => meets_pure fun _ hs => hs
  rintro h ⟨⟨hsound, hfree⟩, rfl⟩
  exact enqueue_safe hsound hfree rfl rfl h rfl

theorem submit_safe {body : Body} {buffer : Option Buffer} :
    Safely (submit c body buffer) :=
  freeTag_safe.bind fun _ => accept_safe

theorem write_safe {fid : UInt32} {offset : UInt64} {buffer : Buffer} {len : ℕ} :
    Safely (write c fid offset buffer len) :=
  freeTag_safe.bind fun _ => bind (require (fun _ _ hs => hs) fun _ _ hs => hs.1)
    fun _ => accept_safe

end Redoubt.Client
