import Redoubt.Client.Submits

/-!
# Answers

What a server answers is handed out once, if it answers no request that is still queued
and gives no read more data than its buffer holds.
-/

namespace Redoubt.Client

open Actions Action Ninep History Hub

variable {ε : Type} {h : Hub} {c : ℕ} {t : UInt16}

/-- An answer to an outstanding request is to none that is still queued, and brings a
read no more data than its buffer holds. -/
def FairAnswer (c : ℕ) (bytes : List UInt8) (h : Hub) : Prop :=
  ∀ message s, Message.decode bytes = some message → h.slot c message.tag = some s →
    (∀ q ∈ h.queue c, q.tag ≠ message.tag) ∧
      ∀ data b, message.body = .rread data → s.buffer = some b →
      data.length ≤ b.bytes.length

/-- Each answer is fair where it is handed out; what follows the message that ends the
connection is not handed out. -/
def Fair (c : ℕ) : List (List UInt8) → Hub → Prop
  | [], _ => True
  | bytes :: rest, h =>
      FairAnswer c bytes h ∧ ∀ h', handOut c bytes h = (.ok (), h') → Fair c rest h'

abbrev Hub.without (h : Hub) (c : ℕ) (t : UInt16) : Hub :=
  h.changeConn c fun conn => { conn with slots := conn.slots.set t.toNat none }

theorem Hub.slot_without (h : Hub) (c : ℕ) (t : UInt16) (c' : ℕ) (t' : UInt16) :
    (h.without c t).slot c' t' = if c' = c ∧ t' = t then none else h.slot c' t' :=
  slot_set (g := Connection.queue) (.inl rfl) c' t'

theorem Hub.queue_without (h : Hub) (c : ℕ) (t : UInt16) :
    (h.without c t).queue = h.queue :=
  queue_same fun _ => rfl

section Taking

variable {hand hand' : InHand} {s : Slot} {d : Done}

theorem Sound.without {done : List Done} (hsound : Sound hand h)
    (honce : Once hand' (h.without c t).slot h.queue h.taken done h.accepted) :
    Sound hand' { h.without c t with done := done } := by
  refine hsound.change (queue_without h c t ▸ honce) (fun _ => List.length_set)
    (fun _ => rfl) fun hended => ?_
  obtain ⟨hslots, hqueue⟩ := hsound.closed c hended
  refine ⟨fun t' => ?_, ?_⟩
  · rw [slot_without, hslots]
    exact ite_self _
  · rw [queue_without, hqueue]

/-- There was none. -/
theorem Sound.take_none (hsound : Sound hand h) (hs : h.slot c t = none) :
    Sound hand (h.without c t) := by
  have hsame : (h.without c t).slot = h.slot := by
    funext c' t'
    rw [slot_without]
    split
    · next heq => rw [heq.1, heq.2, hs]
    · rfl
  exact hsound.without (hsame ▸ hsound.once)

/-- It is taken in hand. -/
theorem Sound.take (hsound : Safe h) (hs : h.slot c t = some s)
    (hqueue : ∀ q ∈ h.queue c, q.tag ≠ t) :
    Sound (some (c, t, s)) (h.without c t) :=
  hsound.without (hsound.once.take hs hqueue (slot_without h c t))

/-- It comes back while another is in hand. -/
theorem Sound.complete (hsound : Sound hand h) (hs : h.slot c t = some s)
    (hqueue : ∀ q ∈ h.queue c, q.tag ≠ t)
    (hconn : d.conn = c) (htag : d.tag = t) (hrequest : d.request = s.request)
    (hbuffer : d.buffer = s.buffer) :
    Sound hand { h.without c t with done := h.done ++ [d] } :=
  hsound.without (hsound.once.complete hs hqueue (slot_without h c t) hconn htag
    hrequest (hbuffer ▸ rfl))

/-- The request in hand comes back. -/
theorem Sound.give (hsound : Sound (some (c, t, s)) h) (hconn : d.conn = c)
    (htag : d.tag = t)
    (hrequest : d.request = s.request)
    (hpage : d.buffer.map Buffer.page = s.buffer.map Buffer.page) :
    Safe { h with done := h.done ++ [d] } :=
  { hsound with once := hsound.once.give hconn htag hrequest hpage }

end Taking

theorem takeSlot_spec {fails : ε → Hub → Prop} :
    Meets (fun h' => h' = h) (takeSlot c t : Hubbed ε (Option Slot))
    (fun slot h' => h' = h.without c t ∧ h.slot c t = slot) fails := by
  rintro h' rfl
  exact ⟨rfl, rfl⟩

/-- The request that a flush in hand names comes back with it. -/
theorem endFlushed_spec {s : Slot} {fails : ε → Hub → Prop}
    (hsound : Sound (some (c, t, s)) h) :
    Meets (fun h' => h' = h) (endFlushed c s.flushes : Hubbed ε Unit)
      (fun _ => Sound (some (c, t, s))) fails := by
  cases hflush : s.flushes with
  | none =>
    rintro h' rfl
    exact hsound
  | some old =>
    have hqueue := (hsound.once.held c t s rfl).2.2.2.2 old hflush
    refine takeSlot_spec.bind fun slot => Meets.given fun hslot => ?_
    cases slot with
    | none =>
      rintro h' rfl
      exact hsound.take_none hslot
    | some s' =>
      rintro h' rfl
      exact hsound.complete hslot hqueue rfl rfl rfl rfl

/-- The request in hand comes back with its answer. -/
theorem answer_spec {s : Slot} {message : Message} {bytes : List UInt8}
    {fails : Unit → Hub → Prop}
    (hsound : Sound (some (c, message.tag, s)) h)
    (hsize : ∀ data b, message.body = .rread data → s.buffer = some b →
      data.length ≤ b.bytes.length) :
    Meets (fun h' => h' = h) (answer c message bytes s) (fun _ => Safe) fails := by
  have hgive (outcome : Outcome) {buffer : Option Buffer}
      (hpage : buffer.map Buffer.page = s.buffer.map Buffer.page) :
      Meets (Sound (some (c, message.tag, s)))
        (push ⟨c, message.tag, outcome, buffer, s.request⟩ : Hubbed Unit Unit)
        (fun _ => Safe) fails :=
    meets_change fun _ hs => hs.give rfl rfl rfl hpage
  have hdone (outcome : Outcome) {buffer : Option Buffer}
      (hpage : buffer.map Buffer.page = s.buffer.map Buffer.page) :
      Meets (fun h' => h' = h) (push ⟨c, message.tag, outcome, buffer, s.request⟩ :
        Hubbed Unit Unit)
        (fun _ => Safe) fails :=
    (hgive outcome hpage).weaken (fun _ hh' => hh'.symm ▸ hsound) (fun _ _ hs => hs)
      fun _ _ hs => hs
  cases hbody : message.body with
  | rread data =>
    cases hbuffer : s.buffer with
    | some b =>
      simp only [answer, hbody, hbuffer, if_pos (hsize data b hbody hbuffer)]
      exact hdone _ (hbuffer ▸ rfl)
    | none =>
      simp only [answer, hbody, hbuffer]
      exact hdone _ (hbuffer ▸ rfl)
  | rerror ename =>
    simp only [answer, hbody]
    exact .ite (fun _ => hdone _ rfl) fun _ => hdone _ rfl
  | rflush =>
    simp only [answer, hbody]
    exact (endFlushed_spec hsound).bind fun _ => hgive _ rfl
  | _ =>
    simp only [answer, hbody]
    exact hdone _ rfl

/-- One message. -/
theorem handOut_safe {bytes : List UInt8} :
    Meets (fun h => Safe h ∧ FairAnswer c bytes h) (handOut c bytes)
      (fun _ => Safe) fun _ => Safe := by
  intro h hstart
  suffices hfrom : Meets (fun h' => h' = h) (handOut c bytes) (fun _ => Safe)
      fun _ => Safe from
    hfrom h rfl
  have hdecoded : Meets (fun h' => h' = h) (found (Message.decode bytes) ())
      (fun message h' => h' = h ∧ Message.decode bytes = some message) fun _ => Safe :=
    .found (fun message hdecode h' hh' => ⟨hh', hdecode⟩) fun _ h' hh' => hh' ▸ hstart.1
  refine hdecoded.bind fun message => .given fun hdecode => ?_
  refine takeSlot_spec.bind fun slot => .given fun hslot => ?_
  cases slot with
  | none =>
    rintro h' rfl
    exact hstart.1.take_none hslot
  | some s =>
    obtain ⟨hqueue, hsize⟩ := hstart.2 message s hdecode hslot
    exact answer_spec (hstart.1.take hslot hqueue) hsize

/-- Every answer is handed out once. -/
theorem answers_safe (frames : List (List UInt8)) :
    Meets (fun h => Safe h ∧ Fair c frames h) (answers c frames)
      (fun _ => Safe) fun _ => Safe := by
  induction frames with
  | nil => exact meets_pure fun _ hs => hs.1
  | cons bytes rest ih =>
    have hfirst : Meets (fun h => Safe h ∧ Fair c (bytes :: rest) h) (handOut c bytes)
        (fun _ h => Safe h ∧ Fair c rest h) fun _ => Safe :=
      handOut_safe.reached.weaken (fun _ hs => ⟨⟨hs.1, hs.2.1⟩, fun _ => hs.2.2⟩)
        (fun _ _ hs => hs)
        fun _ _ hs => hs
    exact hfirst.bind fun _ => ih

/-- What a completion call brings: the answers in its buffer, if it holds as much as was
said. -/
def FairReply (c : ℕ) (reply : Option (ℕ × ℕ × ℕ)) (buffer : Option Buffer)
    (h : Hub) : Prop :=
  ∀ n lend, reply = some (0, n, 0) → buffer = some lend → n ≤ lend.bytes.length →
    Fair c (cut (lend.bytes.take n).length (lend.bytes.take n)).1 h

theorem endOnError_safe (ended : Except Unit Unit) :
    Safely (endOnError c ended : Hubbed ε Unit) := by
  cases ended with
  | ok _ => exact meets_pure fun _ hs => hs
  | error _ => exact endConn_safe

theorem collected_safe {reply : Option (ℕ × ℕ × ℕ)} {buffer : Option Buffer} :
    Meets (fun h => Safe h ∧ FairReply c reply buffer h)
      (collected c reply buffer : Hubbed ε Unit)
      (fun _ => Safe) fun _ => Safe := by
  unfold collected
  split
  · next n lend =>
      have htaken : Meets (fun h => Safe h ∧ FairReply c (some (0, n, 0)) (some lend) h)
          (attempt
            (do require (n ≤ lend.bytes.length) (); answersIn c (lend.bytes.take n)) :
            Hubbed ε (Except Unit Unit))
          (fun _ => Safe) fun _ => Safe := by
        refine .attempt
          (.bind (.require (fun hfits h hs => ?_) fun _ _ hs => hs.1) fun _ =>
          .bind (answers_safe _) fun _ => .require (fun _ _ hs => hs) fun _ _ hs => hs)
        exact ⟨hs.1, hs.2 n lend rfl rfl hfits⟩
      refine htaken.bind fun taken => (endOnError_safe taken).bind fun _ =>
        meets_change fun h hs => ?_
      exact hs.same (fun _ => rfl) (fun _ => rfl) fun _ => rfl
  · exact endConn_safe.weaken (fun _ hs => hs.1) (fun _ _ hs => hs) fun _ _ hs => hs

/-! ### Waiting and waking -/

variable {reply : Option (ℕ × ℕ × ℕ)} {buffer : Option Buffer}

theorem lendFor_safe : Safely (lendFor c) := by
  refine Meets.whatever fun lend => ?_
  cases lend with
  | none =>
    exact tryReserve_safe.bind fun _ => .require (fun _ _ hs => hs) fun _ _ hs => hs
  | some _ =>
    exact meets_change fun h hs => hs.same (fun _ => rfl) (fun _ => rfl) fun _ => rfl

theorem waitBegin_safe : Safely (waitBegin c) := by
  have hmust (p : Prop) [Decidable p] (e : Error) :
      Safely (require p e : Hubbed Error Unit) :=
    .require (fun _ _ hs => hs) fun _ _ hs => hs
  refine poll_safe.bind fun _ => .whatever fun _ => (hmust _ _).bind fun _ => ?_
  exact .whatever fun _ => (hmust _ _).bind fun _ => lendFor_safe

/-- A wait whose answers are fair where they arrive. -/
theorem wait_safe :
    Meets (fun h => Safe h ∧ ∀ u h', waitBegin c h = (.ok u, h') →
      FairReply c reply buffer h')
      (wait c reply buffer) (fun _ => Safe) fun _ => Safe :=
  waitBegin_safe.reached.bind fun _ => collected_safe.bind fun _ => poll_safe

/-- What a waiter's wake-up says of its completion call. -/
def wokenReply (words : ℕ × ℕ × ℕ × ℕ) : Option (ℕ × ℕ × ℕ) :=
  if words.2.2.1 ≠ failed then some (words.2.2.1, words.2.2.2, 0) else none

/-- The last wake-up brings no answers. -/
theorem fairReply_last {words : ℕ × ℕ × ℕ × ℕ} (hlast : words.2.2.1 ≠ 0) :
    FairReply c (wokenReply words) buffer h := by
  intro n lend hreply
  rw [wokenReply] at hreply
  split at hreply
  · exact absurd (congrArg Prod.fst (Option.some.inj hreply)) hlast
  · cases hreply

/-- A wake-up that is not the hub's is handed back, whatever it brings. -/
theorem deliver_safe {badge : ℕ} {words : ℕ × ℕ × ℕ × ℕ} :
    Meets (fun h => Safe h ∧ (words.1 = wake ∧ h.waiter words.2.1 = some badge →
        FairReply words.2.1 (wokenReply words) buffer h))
      (deliver badge words buffer : Hubbed ε Bool) (fun _ => Safe) fun _ => Safe := by
  refine Meets.ask fun waiter => .ite (fun hours => ?_) fun _ =>
    meets_pure fun _ hs => hs.1.1
  refine Meets.via (fun _ h => Safe h ∧ FairReply words.2.1 (wokenReply words) buffer h)
    ?_
    fun _ => collected_safe.bind fun _ => poll_safe.bind fun _ =>
      meets_pure fun _ hs => hs
  refine .when (fun hlast => meets_change fun h hs => ⟨?_, fairReply_last hlast⟩)
    fun _ h hs => ?_
  · exact hs.1.1.same (fun _ => rfl) (fun _ => rfl) fun _ => rfl
  · exact ⟨hs.1.1, hs.1.2 ⟨hours.1, hs.2.trans hours.2⟩⟩

end Redoubt.Client
