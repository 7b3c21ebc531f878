import Redoubt.Client.Answers

/-!
# Every request comes back once

Any run of a hub: its caller's calls in any order, whatever its servers answer and
however each send goes.  Each request that was accepted is outstanding or has come back,
once, under its own tag and with its own buffer, if the servers' answers are fair; an
answer to a request that is still queued lets the request come back twice.
-/

namespace Redoubt.Client

open Actions Action Ninep History List Hub

variable {ε : Type} {h : Hub} {c : ℕ}

/-! ### Messages end to end -/

/-- Every message takes a byte at least. -/
theorem cut_enough (n : ℕ) {bytes : List UInt8} (hle : bytes.length ≤ n) :
    cut (n + 1) bytes = cut n bytes := by
  induction n generalizing bytes with
  | zero =>
    rw [length_eq_zero_iff.mp (Nat.le_zero.mp hle)]
    rfl
  | succ n ih =>
    cases bytes with
    | nil => rfl
    | cons byte rest =>
      simp only [cut]
      split
      · rfl
      · next size hsize =>
          have hpos : 0 < size :=
            lt_of_lt_of_le (by decide) (messageSize_bounds hsize).1
          rw [ih]
          rw [length_drop]
          omega

/-! ### Connections come and go -/

/-- A connection of its own, with nothing outstanding. -/
theorem Sound.connect (hsound : Safe h) (lend : Option Buffer) :
    Safe { h with
      conns := h.conns ++ [⟨List.replicate maxTags none, [], lend, none, false⟩] } := by
  let fresh : Connection := ⟨List.replicate maxTags none, [], lend, none, false⟩
  have hconns (c : ℕ) :
      (h.conns ++ [fresh])[c]? = if c = h.conns.length then some fresh
        else h.conns[c]? := by
    split
    · next heq => rw [heq, getElem?_concat_length]
    · next hne =>
        rcases Nat.lt_or_gt_of_ne hne with hlt | hgt
        · exact getElem?_append_left hlt
        · rw [getElem?_eq_none (by rw [length_append]; exact hgt),
            getElem?_eq_none hgt.le]
  have hnone : h.conns[h.conns.length]? = none := getElem?_eq_none le_rfl
  have hslot : slot { h with conns := h.conns ++ [fresh] } = h.slot := by
    funext c t
    rw [slot, slot, hconns]
    split
    · next heq =>
        rw [heq, hnone, Option.bind_some, Connection.slot, getElem?_replicate]
        split <;> rfl
    · rfl
  have hqueue : queue { h with conns := h.conns ++ [fresh] } = h.queue := by
    funext c
    rw [queue, queue, hconns]
    split
    · next heq =>
        rw [heq, hnone]
        rfl
    · rfl
  have hended (c : ℕ) : ended { h with conns := h.conns ++ [fresh] } c =
      if c = h.conns.length then false else h.ended c := by
    rw [ended, hconns]
    split <;> rfl
  refine ⟨?_, fun c conn hconn => ?_, fun c hc => ?_, fun c hc => ?_, fun c hc => ?_,
    hsound.order⟩
  · rw [hslot, hqueue]
    exact hsound.once
  · rw [hconns] at hconn
    split at hconn
    · cases hconn
      exact ⟨length_replicate.le, fun _ => length_replicate⟩
    · exact hsound.sized c conn hconn
  · rw [hended] at hc
    split at hc
    · cases hc
    · rw [hslot, hqueue]
      exact hsound.closed c hc
  · rw [hended, if_neg (hsound.known c hc).ne]
    exact hsound.silent c hc
  · rw [length_append]
    exact Nat.lt_add_right _ (hsound.known c hc)

theorem connect_safe {reply : Option ((ℕ × ℕ × ℕ × ℕ) × ℕ)} {lend : Option Buffer} :
    Safely (connect reply lend) := by
  have hmust (p : Prop) [Decidable p] (e : Error) :
      Safely (require p e : Hubbed Error Unit) :=
    .require (fun _ _ hs => hs) fun _ _ hs => hs
  have hfound : Safely (found reply .sys : Hubbed Error _) :=
    .found (fun _ _ _ hs => hs) fun _ _ hs => hs
  refine tryReserve_safe.bind fun _ => (hmust _ _).bind fun _ =>
    hfound.bind fun words => ?_
  refine (hmust _ _).bind fun _ => (hmust _ _).bind fun _ => .whatever fun n => ?_
  exact Meets.bind (meets_change fun h hs => hs.connect lend) fun _ =>
    meets_pure fun _ hs => hs

theorem spawnWaiter_safe {badge : ℕ} {minted spawned : Bool} :
    Safely (spawnWaiter c badge minted spawned) := by
  have hmust (p : Prop) [Decidable p] (e : Error) :
      Safely (require p e : Hubbed Error Unit) :=
    .require (fun _ _ hs => hs) fun _ _ hs => hs
  refine (hmust _ _).bind fun _ => lendFor_safe.bind fun _ => (hmust _ _).bind fun _ =>
    meets_change fun h hs => ?_
  exact hs.same (fun _ => rfl) (fun _ => rfl) fun _ => rfl

/-- A connection that is over has nothing to lose. -/
theorem Sound.release (hsound : Safe h) (hended : h.ended c = true) :
    Safe (h.changeConn c fun conn =>
      { conn with slots := [], queue := [], lend := none }) := by
  obtain ⟨hslots, hempty⟩ := hsound.closed c hended
  have hslot :
      (h.changeConn c fun conn =>
        { conn with slots := [], queue := [], lend := none }).slot = h.slot := by
    funext c' t
    rw [slot_changeConn]
    split
    · next heq =>
        rw [heq, hslots]
        cases h.conns[c]? <;> rfl
    · rfl
  have hqueue :
      (h.changeConn c fun conn =>
        { conn with slots := [], queue := [], lend := none }).queue = h.queue := by
    funext c'
    rw [queue_changeConn]
    split
    · next heq =>
        rw [heq, hempty]
        cases h.conns[c]? <;> rfl
    · rfl
  refine hsound.replace ?_ (fun conn hconn => ⟨Nat.zero_le _, fun hopen => ?_⟩)
    (fun _ => rfl) ?_
  · rw [hslot, hqueue]
    exact hsound.once
  · rw [ended, hconn, Option.elim_some, hopen] at hended
    cases hended
  · rw [hslot, hqueue]
    exact hsound.closed c

theorem release_safe : Safely (release c : Hubbed ε Bool) := by
  refine Meets.ask fun ended => .whatever fun waiter => .ite (fun hp => ?_) fun _ =>
    meets_pure fun _ hs => hs.1
  refine Meets.bind (meets_change fun h hs => ?_) fun _ => meets_pure fun _ hs => hs
  exact hs.1.release (hs.2.trans hp.1)

theorem completed_safe : Safely (completed : Hubbed ε (Option Done)) := by
  intro h hs
  rw [completed]
  split
  · exact hs
  · next d rest hdone =>
      exact { hs with once := (hdone ▸ hs.once).pop }

/-! ### Runs -/

/-- What the hub's caller does, with what its servers and its waiters bring. -/
inductive Event
  | connect (reply : Option ((ℕ × ℕ × ℕ × ℕ) × ℕ)) (lend : Option Buffer)
  | submit (conn : ℕ) (body : Body) (buffer : Option Buffer)
  | read (conn : ℕ) (fid : UInt32) (offset : UInt64) (buffer : Buffer)
  | write (conn : ℕ) (fid : UInt32) (offset : UInt64) (buffer : Buffer) (len : ℕ)
  | batchBegin
  | batchEnd
  | poll
  | wait (conn : ℕ) (reply : Option (ℕ × ℕ × ℕ)) (buffer : Option Buffer)
  | spawnWaiter (conn badge : ℕ) (minted spawned : Bool)
  | deliver (badge : ℕ) (words : ℕ × ℕ × ℕ × ℕ) (transfer : Option Buffer)
  | release (conn : ℕ)
  | disconnect (conn : ℕ)
  | completed

/-- Inside a batch nothing is sent as it is queued; its end sends it. -/
def batchBegin : Hubbed ε Unit := change fun h => { h with batching := true }

def batchEnd : Hubbed ε Unit := do
  change fun h => { h with batching := false }
  poll

def handle (h : Hub) : Event → Hub
  | .connect reply lend => (connect reply lend h).2
  | .submit c body buffer => (submit c body buffer h).2
  | .read c fid offset buffer => (read c fid offset buffer h).2
  | .write c fid offset buffer len => (write c fid offset buffer len h).2
  | .batchBegin => ((batchBegin : Hubbed Error Unit) h).2
  | .batchEnd => ((batchEnd : Hubbed Error Unit) h).2
  | .poll => ((poll : Hubbed Error Unit) h).2
  | .wait c reply buffer => (wait c reply buffer h).2
  | .spawnWaiter c badge minted spawned => (spawnWaiter c badge minted spawned h).2
  | .deliver badge words transfer =>
    ((deliver badge words transfer : Hubbed Error Bool) h).2
  | .release c => ((release c : Hubbed Error Bool) h).2
  | .disconnect c => ((disconnect c : Hubbed Error Unit) h).2
  | .completed => ((completed : Hubbed Error (Option Done)) h).2

def run (events : List Event) (h : Hub) : Hub := events.foldl handle h

/-- The answers an event brings are fair where the hub takes them: a wait's if it comes
to its completion call, a delivery's if it is the wake-up of the connection's own
waiter. -/
def Event.Fair (h : Hub) : Event → Prop
  | .wait c reply buffer =>
  ∀ u h', waitBegin c h = (.ok u, h') → FairReply c reply buffer h'
  | .deliver badge words transfer => words.1 = wake ∧ h.waiter words.2.1 = some badge →
      FairReply words.2.1 (wokenReply words) transfer h
  | _ => True

/-- Every answer of a run is fair where it is handed out. -/
def FairRun : List Event → Hub → Prop
  | [], _ => True
  | event :: rest, h => event.Fair h ∧ FairRun rest (handle h event)

theorem safe_after {α : Type} {pre : Hub → Prop} {x : Hubbed ε α}
    (hx : Meets pre x (fun _ => Safe) fun _ => Safe)
    (hpre : pre h) : Safe (x h).2 := by
  have hend := hx h hpre
  generalize x h = ended at hend ⊢
  rcases ended with ⟨e | a, h'⟩ <;> exact hend

theorem Sound.batching (hsound : Safe h) (batching : Bool) :
    Safe { h with batching := batching } :=
  { hsound with }

/-- One event. -/
theorem handle_safe (hsound : Safe h) {event : Event} (hfair : event.Fair h) :
    Safe (handle h event) := by
  cases event with
  | connect reply lend => exact safe_after connect_safe hsound
  | submit c body buffer => exact safe_after submit_safe hsound
  | read c fid offset buffer => exact safe_after submit_safe hsound
  | write c fid offset buffer len => exact safe_after write_safe hsound
  | batchBegin => exact hsound.batching true
  | batchEnd =>
    have hpoll := safe_after (poll_safe : Safely (poll : Hubbed Error Unit))
      (hsound.batching false)
    exact hpoll
  | poll => exact safe_after poll_safe hsound
  | wait c reply buffer => exact safe_after wait_safe ⟨hsound, hfair⟩
  | spawnWaiter c badge minted spawned => exact safe_after spawnWaiter_safe hsound
  | deliver badge words transfer => exact safe_after deliver_safe ⟨hsound, hfair⟩
  | release c => exact safe_after release_safe hsound
  | disconnect c => exact hsound.endConn
  | completed => exact safe_after completed_safe hsound

theorem run_safe (events : List Event) (hsound : Safe h) (hfair : FairRun events h) :
    Safe (run events h) := by
  induction events generalizing h with
  | nil => exact hsound
  | cons event rest ih => exact ih (handle_safe hsound hfair.1) hfair.2

theorem safe_new (width : ℕ) (outside : Outside) : Safe (new width outside) where
  once := {
    names := nofun
    returns := nofun
    once := .nil
    apart := nofun
    all := nofun
    tags := nofun
    done_tags := .nil
    queued := nofun
    queue_tags := fun _ => .nil
    flushes := nofun
    held := nofun }
  sized := nofun
  closed := fun _ _ => ⟨fun _ => rfl, rfl⟩
  silent := nofun
  known := nofun
  order := chronicle_nil

/-! ### Exactly once -/

/-- A request of a connection that is outstanding, queued, or completed and not yet
taken. -/
def Named (h : Hub) (c : ℕ) (tag : UInt16) (request : ℕ) : Prop :=
  (∃ s, h.slot c tag = some s ∧ s.request = request) ∨
    (∃ q ∈ h.queue c, q.tag = tag ∧ q.request = request) ∨
      ∃ d ∈ h.done, d.conn = c ∧ d.tag = tag ∧ d.request = request

/-- What holds of every request that was accepted. -/
structure ExactlyOnce (h : Hub) : Prop where
  /-- No request has come back twice. -/
  once : ((h.taken ++ h.done).map Done.request).Nodup
  /-- What came back is a request's, under its own tag and with its own buffer. -/
  own : ∀ d ∈ h.taken ++ h.done,
    h.accepted[d.request]? = some ⟨d.conn, d.tag, d.buffer.map Buffer.page⟩
  /-- A request that has not come back is outstanding, on a connection that is not
  over. -/
  all : ∀ n < h.accepted.length, (∃ d ∈ h.taken ++ h.done, d.request = n) ∨
    ∃ c t s, h.slot c t = some s ∧ s.request = n ∧ h.ended c = false
  /-- One that is outstanding has its own buffer and has not come back. -/
  outstanding : ∀ c t s, h.slot c t = some s →
    h.accepted[s.request]? = some ⟨c, t, s.buffer.map Buffer.page⟩ ∧
    ∀ d ∈ h.taken ++ h.done, d.request ≠ s.request
  /-- No two requests of a connection share a tag. -/
  tags : ∀ c tag request request', Named h c tag request → Named h c tag request' →
    request = request'
  /-- Nothing is sent on a connection after its end. -/
  silent : ∀ past c future, h.log = past ++ .sent c :: future → .ended c ∉ past

theorem Sound.named (hsound : Safe h) {tag : UInt16} {request : ℕ}
    (hnamed : Named h c tag request) :
    (∃ s, h.slot c tag = some s ∧ s.request = request) ∨ ∃ d ∈ h.done, d.conn = c ∧
    d.tag = tag ∧ d.request = request := by
  rcases hnamed with hslot | ⟨q, hq, rfl, rfl⟩ | hdone
  · exact .inl hslot
  · exact .inl (hsound.once.queued c q hq)
  · exact .inr hdone

theorem Sound.exactlyOnce (hsound : Safe h) : ExactlyOnce h where
  once := pairwise_map.mpr hsound.once.once
  own := hsound.once.returns
  all := by
    intro n hn
    rcases hsound.once.all n hn with ⟨c, t, s, hs, hrequest⟩ | ⟨_, _, _, hnone,
      -⟩ | hreturned
    · refine .inr ⟨c, t, s, hs, hrequest, ?_⟩
      by_contra hended
      have hempty := (hsound.closed c (by simpa using hended)).1 t
      exact nomatch hempty.symm.trans hs
    · exact nomatch hnone
    · exact .inl hreturned
  outstanding := fun c t s hs =>
    ⟨hsound.once.names c t s hs, hsound.once.apart c t s hs⟩
  tags := by
    intro c tag request request' hnamed hnamed'
    rcases hsound.named hnamed with ⟨s, hs, rfl⟩ | ⟨d, hd, hconn, htag, rfl⟩ <;>
      rcases hsound.named hnamed' with ⟨s', hs', rfl⟩ | ⟨d', hd', hconn', htag', rfl⟩
    · cases hs.symm.trans hs'
      rfl
    · exact absurd ⟨hconn', htag'⟩ (hsound.once.tags c tag s hs d' hd')
    · exact absurd ⟨hconn, htag⟩ (hsound.once.tags c tag s' hs' d hd)
    · by_contra hne
      have : Std.Symm fun d e : Done => ¬ (d.conn = e.conn ∧ d.tag = e.tag) :=
        ⟨fun _ _ hnot heq => hnot ⟨heq.1.symm, heq.2.symm⟩⟩
      have hapart := hsound.once.done_tags.forall hd hd' fun heq =>
        hne (congrArg Done.request heq)
      exact hapart ⟨hconn.trans hconn'.symm, htag.trans htag'.symm⟩
  silent := fun past c future hlog => hsound.order past (.sent c) future hlog

/-- In every run whose answers are fair, each request comes back exactly once. -/
theorem requests_return_once (width : ℕ) (outside : Outside) (events : List Event)
    (hfair : FairRun events (new width outside)) :
    ExactlyOnce (run events (new width outside)) :=
  (run_safe events (safe_new width outside) hfair).exactlyOnce

def page : List UInt8 := List.replicate 4096 0

/-- The sixteen pages of a completion call's buffer, the bytes given first. -/
def filled (bytes : List UInt8) : Buffer :=
  ⟨0, bytes ++ List.replicate (16 * 4096 - bytes.length) 0⟩

/-- A clunk is sent, answered, and its completion taken. -/
def clunked : List Event :=
  [.connect (some ((0, 0, 1, 0), 0)) (some (filled [])),
    .submit 0 (.tclunk 1) (some ⟨1, page⟩),
    .wait 0 (some (0, 7, 0)) (some (filled [7, 0, 0, 0, 121, 0, 0])), .completed]

theorem requests_return_once_clunked :
    FairRun clunked (new 8 ⟨.const .taken, .const true⟩) ∧
    ExactlyOnce (run clunked (new 8 ⟨.const .taken, .const true⟩)) ∧
    (run clunked (new 8 ⟨.const .taken, .const true⟩)).taken.map Done.request =
    [0] := by
  have hfair : FairRun clunked (new 8 ⟨.const .taken, .const true⟩) := by
    refine ⟨trivial, trivial, ?_, trivial, trivial⟩
    intro u h' hbegin n lend hreply hbuffer _
    cases hreply
    cases hbuffer
    have hframes : (cut 7 [7, 0, 0, 0, 121, 0, 0]).1 = [[7, 0, 0, 0, 121, 0, 0]] := by
      decide +kernel
    have hclunk : Message.decode [7, 0, 0, 0, 121, 0, 0] = some ⟨0, .rclunk⟩ := by
      decide +kernel
    have hsent : ∀ q ∈ h'.queue 0, q.tag ≠ 0 := by
      obtain rfl : (waitBegin 0 _).2 = h' := congrArg Prod.snd hbegin
      decide +kernel
    change Fair 0 (cut 7 [7, 0, 0, 0, 121, 0, 0]).1 h'
    rw [hframes]
    refine ⟨fun message s hdecode _ => ?_, fun _ _ => trivial⟩
    cases hclunk.symm.trans hdecode
    exact ⟨hsent, fun _ _ hbody => by cases hbody⟩
  exact ⟨hfair, requests_return_once _ _ _ hfair, by decide +kernel⟩

/-- A clunk is answered before it is sent, and flushed after that. -/
def answeredUnsent : List Event :=
  [.connect (some ((0, 0, 1, 0), 0)) (some (filled [])),
    .submit 0 (.tclunk 1) (some ⟨1, page⟩),
    .wait 0 (some (0, 7, 0)) (some (filled [7, 0, 0, 0, 121, 0, 0])),
    .submit 0 (.tflush 0) none]

/-- A read of a page is answered with a byte more. -/
def answeredLong : List Event :=
  [.connect (some ((0, 0, 1, 0), 0)) (some (filled [])), .read 0 1 0 ⟨1, page⟩,
    .wait 0 (some (0, 4108, 0))
      (some (filled ([12, 16, 0, 0, 117, 0, 0, 1, 16, 0, 0] ++ 0 :: page)))]

/-- The clunk comes back twice, and the read never. -/
theorem unfair_answers :
    ¬ ExactlyOnce (run answeredUnsent (new 8 ⟨.const .later, .const true⟩)) ∧
    ¬ ExactlyOnce (run answeredLong (new 8 ⟨.const .taken, .const true⟩)) := by
  refine ⟨fun hexact => ?_, fun hexact => ?_⟩
  · have htwice : ¬ (((run answeredUnsent (new 8 ⟨.const .later, .const true⟩)).taken ++
        (run answeredUnsent (new 8 ⟨.const .later, .const true⟩)).done).map
        Done.request).Nodup := by
      decide +kernel
    exact htwice hexact.once
  · have hend : (∀ conn ∈ (run answeredLong (new 8 ⟨.const .taken, .const true⟩)).conns,
          conn.ended = true) ∧
        (run answeredLong (new 8 ⟨.const .taken, .const true⟩)).taken ++
          (run answeredLong (new 8 ⟨.const .taken, .const true⟩)).done = [] ∧
        (run answeredLong (new 8 ⟨.const .taken, .const true⟩)).accepted.length =
        1 := by
      decide +kernel
    obtain ⟨hended, hlost, haccepted⟩ := hend
    rcases hexact.all 0 (by rw [haccepted]; exact Nat.one_pos) with ⟨d, hd, -⟩ | ⟨c, t,
      s, hs, -, hopen⟩
    · rw [hlost] at hd
      cases hd
    · rw [slot] at hs
      obtain ⟨conn, hconn, -⟩ := Option.bind_eq_some_iff.mp hs
      rw [ended, hconn, Option.elim_some, hended conn (mem_of_getElem? hconn)] at hopen
      cases hopen

end Redoubt.Client
