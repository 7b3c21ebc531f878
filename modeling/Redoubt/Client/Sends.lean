import Redoubt.Client.Once

/-!
# The hub's steps keep each request in one place

What holds of a hub between any two of its steps, and that sending and submitting keep
it.
-/

namespace Redoubt.Client

open Actions Action Ninep History List Hub Option

/-- Nothing is sent on a connection that is over. -/
def InOrder (past : List HubEvent) : HubEvent → Prop
  | .sent c => .ended c ∉ past
  | .ended _ => True

/-- Each request is in one place, a connection that is over holds none, and nothing was
sent on it after its end. -/
structure Sound (hand : InHand) (h : Hub) : Prop where
  once : Once hand h.slot h.queue h.taken h.done h.accepted
  sized : ∀ (c : ℕ) (conn : Connection), h.conns[c]? = some conn →
    conn.slots.length ≤ maxTags ∧ (conn.ended = false → conn.slots.length = maxTags)
  closed : ∀ c, h.ended c = true → (∀ t, h.slot c t = none) ∧ h.queue c = []
  silent : ∀ c, .ended c ∈ h.log → h.ended c = true
  known : ∀ c, .ended c ∈ h.log → c < h.conns.length
  order : Chronicle InOrder h.log

namespace Hub

variable {h : Hub} {c c' : ℕ} {f : Connection → Connection} {t : UInt16}

theorem conns_changeConn (h : Hub) (c c' : ℕ) (f : Connection → Connection) :
    (h.changeConn c f).conns[c']? = if c' = c then (h.conns[c]?).map f
    else h.conns[c']? := by
  rw [changeConn, getElem?_modify]
  by_cases heq : c' = c
  · simp only [heq]
    rfl
  · simp only [if_neg heq, if_neg (Ne.symm heq)]
    exact map_id'

theorem slot_changeConn : (h.changeConn c f).slot c' t =
    if c' = c then (h.conns[c]?).bind fun conn => (f conn).slot t else h.slot c' t := by
  rw [slot, conns_changeConn]
  split
  · rw [bind_map]
    rfl
  · rfl

theorem queue_changeConn : (h.changeConn c f).queue c' =
    if c' = c then (h.conns[c]?).elim [] fun conn => (f conn).queue
      else h.queue c' := by
  rw [queue, conns_changeConn]
  split
  · cases h.conns[c]? <;> rfl
  · rfl

/-- A queue of one connection, changed. -/
theorem queue_of {g : List Queued → List Queued}
    (hf : ∀ conn, (f conn).queue = g conn.queue)
    (hthere : g [] = [] ∨ ∃ conn, h.conns[c]? = some conn) (c' : ℕ) :
    (h.changeConn c f).queue c' = if c' = c then g (h.queue c) else h.queue c' := by
  rw [queue_changeConn]
  by_cases hc : c' = c
  · rw [if_pos hc, if_pos hc, queue]
    cases hconn : h.conns[c]? with
    | none =>
      rcases hthere with hnil | ⟨conn, hconn'⟩
      · exact hnil.symm
      · exact nomatch hconn.symm.trans hconn'
    | some conn => exact hf conn
  · rw [if_neg hc, if_neg hc]

theorem ended_changeConn : (h.changeConn c f).ended c' =
    if c' = c then (h.conns[c]?).elim true fun conn => (f conn).ended
      else h.ended c' := by
  rw [ended, conns_changeConn]
  split
  · cases h.conns[c]? <;> rfl
  · rfl

end Hub

section Steps

variable {hand : InHand} {h : Hub} {c : ℕ} {f : Connection → Connection}

/-- The hub after a change of one connection, of what came back and of what was
accepted. -/
theorem Sound.replace {hand' : InHand} {done : List Done} {accepted : List Accepted}
    (hsound : Sound hand h)
    (honce : Once hand' (h.changeConn c f).slot (h.changeConn c f).queue h.taken
      done accepted)
    (hlength : ∀ conn, h.conns[c]? = some conn →
      (f conn).slots.length ≤ conn.slots.length ∧
      (conn.ended = false → (f conn).slots.length = conn.slots.length))
    (hended : ∀ conn, (f conn).ended = conn.ended)
    (hover : h.ended c = true → (∀ t, (h.changeConn c f).slot c t = none) ∧
      (h.changeConn c f).queue c = []) :
    Sound hand' { h.changeConn c f with done := done, accepted := accepted } := by
  have hsame (c' : ℕ) : (h.changeConn c f).ended c' = h.ended c' := by
    rw [ended_changeConn]
    split
    · next heq =>
        rw [heq, ended]
        cases h.conns[c]? with
        | none => rfl
        | some conn => exact hended conn
    · rfl
  refine ⟨honce, fun c' conn hconn => ?_, fun c' hc' => ?_, fun c' hc' => ?_,
    fun c' hc' => ?_, hsound.order⟩
  · change (h.changeConn c f).conns[c']? = some conn at hconn
    rw [conns_changeConn] at hconn
    split at hconn
    · obtain ⟨before, hbefore, rfl⟩ := map_eq_some_iff.mp hconn
      obtain ⟨hle, hsame⟩ := hlength before hbefore
      obtain ⟨hmax, hall⟩ := hsound.sized c before hbefore
      rw [hended]
      exact ⟨hle.trans hmax, fun hopen => (hsame hopen).trans (hall hopen)⟩
    · exact hsound.sized c' conn hconn
  · change (h.changeConn c f).ended c' = true at hc'
    rw [hsame] at hc'
    by_cases heq : c' = c
    · exact heq ▸ hover (heq ▸ hc')
    · obtain ⟨hslots, hqueue⟩ := hsound.closed c' hc'
      refine ⟨fun t => ?_, ?_⟩
      · change (h.changeConn c f).slot c' t = none
        rw [slot_changeConn, if_neg heq, hslots]
      · change (h.changeConn c f).queue c' = []
        rw [queue_changeConn, if_neg heq, hqueue]
  · exact (hsame c').trans (hsound.silent c' hc')
  · change c' < (h.conns.modify c f).length
    rw [length_modify]
    exact hsound.known c' hc'

/-- One that leaves it as many slots. -/
theorem Sound.change {hand' : InHand} {done : List Done} {accepted : List Accepted}
    (hsound : Sound hand h)
    (honce : Once hand' (h.changeConn c f).slot (h.changeConn c f).queue h.taken
      done accepted)
    (hlength : ∀ conn, (f conn).slots.length = conn.slots.length)
    (hended : ∀ conn, (f conn).ended = conn.ended)
    (hover : h.ended c = true → (∀ t, (h.changeConn c f).slot c t = none) ∧
      (h.changeConn c f).queue c = []) :
    Sound hand' { h.changeConn c f with done := done, accepted := accepted } :=
  hsound.replace honce (fun conn _ => ⟨(hlength conn).le, fun _ => hlength conn⟩) hended
    hover

theorem Hub.slot_same (hslots : ∀ conn, (f conn).slots = conn.slots) :
    (h.changeConn c f).slot = h.slot := by
  funext c' t
  rw [slot_changeConn]
  split
  · next heq => simp only [heq, slot, Connection.slot, hslots]
  · rfl

theorem Hub.queue_same (hqueue : ∀ conn, (f conn).queue = conn.queue) :
    (h.changeConn c f).queue = h.queue := by
  funext c'
  rw [queue_changeConn]
  split
  · next heq =>
      rw [heq, queue]
      cases h.conns[c]? with
      | none => rfl
      | some conn => exact hqueue conn
  · rfl

/-- A change of a connection that leaves its requests alone. -/
theorem Sound.same (hsound : Sound hand h)
    (hslots : ∀ conn, (f conn).slots = conn.slots)
    (hqueue : ∀ conn, (f conn).queue = conn.queue)
    (hended : ∀ conn, (f conn).ended = conn.ended) :
    Sound hand (h.changeConn c f) := by
  have hslot : (h.changeConn c f).slot = h.slot := slot_same hslots
  have hqueues : (h.changeConn c f).queue = h.queue := queue_same hqueue
  refine hsound.change ?_ (fun conn => by rw [hslots]) hended ?_
  · rw [hslot, hqueues]
    exact hsound.once
  · rw [hslot, hqueues]
    exact hsound.closed c

theorem Hub.slot_queue {g : Connection → List Queued} :
    (h.changeConn c fun conn => { conn with queue := g conn }).slot = h.slot :=
  slot_same fun _ => rfl

/-- Messages leave a queue. -/
theorem Sound.dequeue (hsound : Sound hand h) {g : Connection → List Queued}
    (hg : ∀ conn, (g conn).Sublist conn.queue) :
    Sound hand (h.changeConn c fun conn => { conn with queue := g conn }) := by
  have hqueue (c' : ℕ) :
      ((h.changeConn c fun conn => { conn with queue := g conn }).queue c').Sublist
      (h.queue c') := by
    rw [queue_changeConn]
    split
    · next heq =>
        rw [heq, queue]
        cases h.conns[c]? with
        | none => exact .refl _
        | some conn => exact hg conn
    · exact .refl _
  refine hsound.change ?_ (fun _ => rfl) (fun _ => rfl) fun hended => ?_
  · rw [slot_queue]
    exact hsound.once.sends hqueue
  · obtain ⟨hslots, hempty⟩ := hsound.closed c hended
    rw [slot_queue]
    exact ⟨hslots, sublist_nil.mp (hempty ▸ hqueue c)⟩

/-! ### The end of a connection -/

theorem mem_endings {conn : Connection} {d : Done} : d ∈ endings c conn ↔
    ∃ i s, conn.slots[i]? = some (some s) ∧
      d = ⟨c, UInt16.ofNat i, .ended, s.buffer, s.request⟩ := by
  simp only [endings, mem_filterMap, Prod.exists, mem_zipIdx_iff_getElem?,
    map_eq_some_iff]
  constructor
  · rintro ⟨slot, i, hget, s, rfl, rfl⟩
    exact ⟨i, s, hget, rfl⟩
  · rintro ⟨i, s, hget, rfl⟩
    exact ⟨some s, i, hget, s, rfl, rfl⟩

theorem toNat_ofNat_tag {i : ℕ} (hi : i < maxTags) : (UInt16.ofNat i).toNat = i :=
  UInt16.toNat_ofNat_of_lt' (hi.trans (by decide))

theorem endings_tags {conn : Connection} (hlength : conn.slots.length ≤ maxTags) :
    (endings c conn).Pairwise fun d e => d.tag ≠ e.tag := by
  have hindex : conn.slots.zipIdx.Pairwise fun a b => a.2 < b.2 ∧ b.2 < maxTags := by
    refine pairwise_iff_getElem.mpr fun i j hi hj hlt => ?_
    rw [length_zipIdx] at hj
    simpa only [getElem_zipIdx, zero_add] using ⟨hlt, hj.trans_le hlength⟩
  refine hindex.filterMap _ fun a b hab d hd e he => ?_
  obtain ⟨s, -, rfl⟩ := map_eq_some_iff.mp hd
  obtain ⟨s', -, rfl⟩ := map_eq_some_iff.mp he
  intro heq
  have hnat := congrArg UInt16.toNat heq
  rw [toNat_ofNat_tag (hab.1.trans hab.2), toNat_ofNat_tag hab.2] at hnat
  exact hab.1.ne hnat

section End

variable {conn : Connection}

theorem Hub.endConn_of_none (hconn : h.conns[c]? = none) : h.endConn c = h := by
  have hsame : h.conns.modify c (fun conn => { conn with
      slots := conn.slots.map fun _ => none, queue := [], ended := true }) = h.conns :=
    modify_eq_self (List.getElem?_eq_none_iff.mp hconn)
  rw [endConn, changeConn, hsame, hconn]
  simp only [elim_none, append_nil]

theorem Hub.slot_endConn (h : Hub) (c c' : ℕ) (t : UInt16) :
    (h.endConn c).slot c' t = if c' = c then none else h.slot c' t := by
  refine slot_changeConn.trans ?_
  split
  · cases h.conns[c]? with
    | none => rfl
    | some conn =>
      change ((conn.slots.map fun _ => none)[t.toNat]?).join = none
      rw [getElem?_map]
      cases conn.slots[t.toNat]? <;> rfl
  · rfl

theorem Hub.queue_endConn (h : Hub) (c c' : ℕ) :
    (h.endConn c).queue c' = if c' = c then [] else h.queue c' := by
  refine queue_changeConn.trans ?_
  split
  · cases h.conns[c]? <;> rfl
  · rfl

theorem Hub.ended_endConn (h : Hub) (c c' : ℕ) :
    (h.endConn c).ended c' = if c' = c then true else h.ended c' := by
  refine ended_changeConn.trans ?_
  split
  · cases h.conns[c]? <;> rfl
  · rfl

/-- What was outstanding has come back. -/
theorem Once.endConn (hsound : Sound none h) (hconn : h.conns[c]? = some conn) :
    Once none (h.endConn c).slot (h.endConn c).queue h.taken (h.done ++ endings c conn)
      h.accepted := by
  have hslot (t : UInt16) : h.slot c t = conn.slot t := by rw [slot, hconn, bind_some]
  have hlength := (hsound.sized c conn hconn).1
  have hqueue (c' : ℕ) : ((h.endConn c).queue c').Sublist (h.queue c') := by
    rw [queue_endConn]
    split
    · exact nil_sublist _
    · exact .refl _
  have hempty : (h.endConn c).queue c = [] := by rw [queue_endConn, if_pos rfl]
  refine (hsound.once.sends hqueue).completeAll hempty (endings_tags hlength)
    (fun d hd => ?_) fun c' t' => ?_
  · obtain ⟨i, s, hget, rfl⟩ := mem_endings.mp hd
    have hi := (List.getElem?_eq_some_iff.mp hget).1.trans_le hlength
    refine ⟨rfl, s, ?_, rfl, rfl⟩
    rw [hslot, Connection.slot, toNat_ofNat_tag hi, hget]
    rfl
  · rw [slot_endConn]
    by_cases heq : c' = c
    · subst heq
      rw [if_pos rfl]
      split
      · rfl
      · next hnot =>
          cases hs : h.slot c' t' with
          | none => rfl
          | some s =>
            rw [hslot] at hs
            have hget := join_eq_some_iff.mp hs
            refine absurd
              ⟨rfl, mem_map.mpr ⟨_, mem_endings.mpr ⟨t'.toNat, s, hget, rfl⟩, ?_⟩⟩ hnot
            exact UInt16.ofNat_toNat
    · rw [if_neg heq, if_neg fun hhere => heq hhere.1]

theorem Sound.endConn (hsound : Sound none h) : Sound none (h.endConn c) := by
  cases hconn : h.conns[c]? with
  | none =>
    rw [endConn_of_none hconn]
    exact hsound
  | some conn =>
    have hdone : (h.endConn c).done = h.done ++ endings c conn := by
      change h.done ++ (h.conns[c]?).elim [] (endings c) = _
      rw [hconn]
      rfl
    have hlog : (h.endConn c).log = h.log ++ [.ended c] := by
      change h.log ++ (h.conns[c]?).elim [] (fun _ => [.ended c]) = _
      rw [hconn]
      rfl
    refine ⟨?_, fun c' conn' hconn' => ?_, fun c' hc' => ?_, fun c' hc' => ?_,
      fun c' hc' => ?_, ?_⟩
    · rw [hdone]
      exact Once.endConn hsound hconn
    · have hget := (conns_changeConn h c c' _).symm.trans hconn'
      split at hget
      · rw [hconn] at hget
        cases hget
        refine ⟨?_, nofun⟩
        rw [length_map]
        exact (hsound.sized c conn hconn).1
      · exact hsound.sized c' conn' hget
    · rw [ended_endConn] at hc'
      rw [queue_endConn]
      by_cases heq : c' = c
      · exact ⟨fun t => by rw [slot_endConn, if_pos heq], if_pos heq⟩
      · rw [if_neg heq] at hc'
        obtain ⟨hslots, hqueue⟩ := hsound.closed c' hc'
        exact ⟨fun t => by rw [slot_endConn, if_neg heq, hslots],
          by rw [if_neg heq, hqueue]⟩
    · rw [ended_endConn]
      split
      · rfl
      · next heq =>
          rw [hlog, mem_append, mem_singleton] at hc'
          refine hsound.silent c' (hc'.resolve_right fun h => heq ?_)
          cases h
          rfl
    · change c' < (h.conns.modify c _).length
      rw [length_modify]
      rw [hlog, mem_append, mem_singleton] at hc'
      rcases hc' with hc' | hc'
      · exact hsound.known c' hc'
      · cases hc'
        exact (List.getElem?_eq_some_iff.mp hconn).1
    · rw [hlog]
      exact hsound.order.snoc trivial

end End

end Steps

/-! ### Sending -/

section Sending

variable {ε : Type} {c : ℕ}

abbrev Safe (h : Hub) : Prop := Sound none h

/-- However it ends, each request is in one place. -/
abbrev Safely {α : Type} (x : Hubbed ε α) : Prop :=
  Meets Safe x (fun _ => Safe) fun _ => Safe

theorem Sound.told {h : Hub} (hsound : Safe h) (outside : Outside) :
    Safe { h with outside := outside } :=
  { hsound with }

theorem tryReserve_safe : Safely (tryReserve : Hubbed ε Bool) := fun _ hs => hs.told _

/-- A send on a connection with something to send. -/
theorem send_safe {queue : List Queued} (hqueue : queue ≠ []) :
    Meets (fun h => Safe h ∧ h.queue c = queue) (send c : Hubbed ε Sent)
      (fun _ => Safe) fun _ => Safe := by
  intro h ⟨hsound, hq⟩
  refine ⟨hsound.once, hsound.sized, hsound.closed, fun c' hc' => ?_, fun c' hc' => ?_,
    hsound.order.snoc ?_⟩
  · exact hsound.silent c'
      ((mem_append.mp hc').resolve_right fun h => nomatch mem_singleton.mp h)
  · exact hsound.known c'
      ((mem_append.mp hc').resolve_right fun h => nomatch mem_singleton.mp h)
  · intro hended
    exact hqueue (hq.symm.trans (hsound.closed c (hsound.silent c hended)).2)

theorem endConn_safe : Safely (endConn c : Hubbed ε Unit) :=
  meets_change fun _ hs => hs.endConn

theorem sendLoop_safe (n : ℕ) : Safely (sendLoop c n : Hubbed ε Unit) := by
  induction n with
  | zero => exact meets_pure fun _ hs => hs
  | succ n ih =>
    refine Meets.ask fun queue => Meets.whatever fun width =>
      .ite (fun _ => meets_pure fun _ hs => hs.1)
      fun hqueue => ?_
    have hpages : Meets (fun h => Safe h ∧ h.queue c = queue)
        (pagesFor (nextSend width queue).2 : Hubbed ε Bool)
        (fun _ h => Safe h ∧ h.queue c = queue)
        fun _ => Safe :=
      .ite (fun _ h hs => ⟨hs.1.told _, hs.2⟩) fun _ => meets_pure fun _ hs => hs
    refine hpages.bind fun _ => .ite (fun _ => ?_) fun _ => meets_pure fun _ hs => hs.1
    refine (send_safe hqueue).bind fun sent => ?_
    cases sent with
    | taken =>
      refine Meets.bind (meets_change fun h hs => ?_) fun _ => ih
      exact hs.dequeue fun conn => drop_sublist _ _
    | later => exact meets_pure fun _ hs => hs
    | failed => exact endConn_safe

theorem sendQueued_safe : Safely (sendQueued c : Hubbed ε Unit) :=
  Meets.whatever fun n => sendLoop_safe n

theorem pollFrom_safe (cs : List ℕ) : Safely (pollFrom cs : Hubbed ε Unit) := by
  induction cs with
  | nil => exact meets_pure fun _ hs => hs
  | cons c rest ih => exact sendQueued_safe.bind fun _ => ih

theorem poll_safe : Safely (poll : Hubbed ε Unit) :=
  Meets.whatever fun _ => pollFrom_safe _

/-- The first message of a queue goes in every send. -/
theorem nextSend_pos {width : ℕ} {first : Queued} {rest : List Queued} :
    0 < (nextSend width (first :: rest)).1 := by
  rw [nextSend]
  split
  · exact Nat.one_pos
  · rw [fitting, if_neg (by omega)]
    exact Nat.succ_pos _

theorem length_drop_nextSend (width : ℕ) {queue : List Queued} (hqueue : queue ≠ []) :
    (queue.drop (nextSend width queue).1).length < queue.length := by
  cases queue with
  | nil => exact absurd rfl hqueue
  | cons first rest =>
    rw [length_drop]
    exact Nat.sub_lt (Nat.succ_pos _) nextSend_pos

theorem Hub.queue_drop {h : Hub} {n : ℕ} :
    (h.changeConn c fun conn => { conn with queue := conn.queue.drop n }).queue c =
    (h.queue c).drop n := by
  rw [queue_of (g := List.drop n) (fun _ => rfl) (.inl drop_nil), if_pos rfl]

/-- A queue of `n` messages takes no more than `n` sends. -/
theorem sendLoop_enough (n : ℕ) {h : Hub} (hle : (h.queue c).length ≤ n) :
    (sendLoop c (n + 1) : Hubbed ε Unit) h = sendLoop c n h := by
  induction n generalizing h with
  | zero =>
    have hempty : h.queue c = [] := length_eq_zero_iff.mp (Nat.le_zero.mp hle)
    change (if h.queue c = [] then pure () else _ : Hubbed ε Unit) h = _
    rw [if_pos hempty]
    rfl
  | succ n ih =>
    refine bind_congr fun queue h' hqueue => bind_congr fun width h'' hwidth => ?_
    obtain ⟨rfl, rfl⟩ : h.queue c = queue ∧ h = h' :=
      ⟨Except.ok.inj (congrArg Prod.fst hqueue), congrArg Prod.snd hqueue⟩
    obtain rfl : h = h'' := congrArg Prod.snd hwidth
    split
    · rfl
    · next hne =>
        refine bind_congr fun pages h₁ hpages => ?_
        have hqueue₁ : h₁.queue c = h.queue c := by
          unfold pagesFor at hpages
          split at hpages <;> cases hpages <;> rfl
        split
        · refine bind_congr fun sent h₂ hsent => ?_
          have hqueue₂ : h₂.queue c = h.queue c := by
            rw [← hqueue₁]
            cases hsent
            rfl
          cases sent with
          | taken =>
            refine bind_congr fun _ h₃ hdrop => ih ?_
            cases hdrop
            have hfewer := length_drop_nextSend width hne
            rw [queue_drop, hqueue₂]
            exact Nat.le_of_lt_succ (hfewer.trans_le hle)
          | later => rfl
          | failed => rfl
        · rfl

end Sending

end Redoubt.Client
