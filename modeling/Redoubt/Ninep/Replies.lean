import Redoubt.Ninep.Reads
import Redoubt.Ninep.Requests

/-!
# Answers keep the tags in order

Answers are packed into a session's call, refused requests first; each is under the tag
of the request it answers, and counts once the call is delivered.  A call that is not
ends the session.
-/

namespace Redoubt.Ninep

open Actions Action Admission Vectors History Serve LittleEndian List Meets Always

/-! ### An answer's tag -/

/-- What reading `n` bytes leaves, and the number they are. -/
theorem take_eq_some {n : ℕ} {buf bytes rest : List UInt8}
    (htake : Reader.take n buf = some (bytes, rest)) :
    bytes = buf.take n ∧ rest = buf.drop n := by
  rw [Reader.take] at htake
  split_ifs at htake
  cases htake
  exact ⟨rfl, rfl⟩

/-- A message's tag is where `tagOf` looks. -/
theorem tagOf_of_decode {buf : List UInt8} {message : Message}
    (hdecode : Message.decode buf = some message) :
    tagOf buf = some message.tag := by
  obtain ⟨size, hsize, hdecode⟩ := Option.bind_eq_some_iff.mp hdecode
  obtain ⟨⟨decoded, _⟩, hread, hmessage⟩ := Option.bind_eq_some_iff.mp hdecode
  obtain ⟨⟨kind, afterKind⟩, hkind, hread⟩ := Option.bind_eq_some_iff.mp hread
  obtain ⟨⟨tag, afterTag⟩, htag, hread⟩ := Option.bind_eq_some_iff.mp hread
  obtain ⟨⟨body, afterBody⟩, -, hread⟩ := Option.bind_eq_some_iff.mp hread
  obtain ⟨⟨_, _⟩, -, hread⟩ := Option.bind_eq_some_iff.mp hread
  obtain ⟨⟨kindByte, _⟩, hkindByte, hkind⟩ := Option.bind_eq_some_iff.mp hkind
  obtain ⟨⟨tagBytes, _⟩, htagBytes, htag⟩ := Option.bind_eq_some_iff.mp htag
  cases hmessage
  cases hread
  cases hkind
  cases htag
  obtain ⟨hheader, hlength⟩ := messageSize_bounds hsize
  obtain ⟨-, rfl⟩ := take_eq_some hkindByte
  obtain ⟨rfl, -⟩ := take_eq_some htagBytes
  rw [tagOf, if_pos (hheader.trans hlength)]
  rw [drop_drop, drop_take, take_take, min_eq_left]
  · have hseven : 7 ≤ size := hheader
    omega

theorem encode_pos {message : Message} {room : ℕ} {bytes : List UInt8}
    (hencode : message.encode room = some bytes) : 0 < bytes.length := by
  obtain ⟨fields, -, hencode⟩ := Option.bind_eq_some_iff.mp hencode
  obtain ⟨_, -, hencode⟩ := Option.bind_eq_some_iff.mp hencode
  cases hencode
  rw [length_append, length_append, length_leBytes]
  omega

/-- A reply, if it is one, is under the tag and not empty. -/
def Answer.Under (tag : UInt16) : Answer → Prop
  | .replied reply size => reply.tag = tag ∧ 0 < size
  | _ => True

namespace Serve

theorem writeReply_under (tag : UInt16) (reply : Except Held Body) (room : ℕ) :
    (writeReply tag reply room).Under tag := by
  rcases writeReply_cases tag reply room with heq | heq | ⟨body, bytes, hbytes, heq, -⟩
  · exact heq ▸ trivial
  · exact heq ▸ trivial
  · rw [heq]
    exact ⟨rfl, encode_pos hbytes⟩

variable {σ Node : Type} {fs : FileServer σ Node} {m : Mux} {i : ℕ} {session : Session}

theorem answerInto_under {caller : Caller} {request : List UInt8} {out : ℕ}
    {tag : UInt16}
    (htag : tagOf request = some tag) :
    Always (fun _ => True) (answerInto fs caller request out) fun answer _ =>
      answer.Under tag := by
  rw [answerInto]
  cases hdecode : Message.decode request with
  | none =>
    rw [htag]
    exact meets_pure fun _ _ => writeReply_under _ _ _
  | some message =>
    have heq : message.tag = tag :=
      Option.some_injective _ ((tagOf_of_decode hdecode).symm.trans htag)
    rw [← heq]
    have hanswer :
        Always (fun _ => True) (attempt (answer fs caller message.body (min out msize)))
        fun _ _ => True := fun _ _ => trivial
    exact hanswer.bind fun _ => meets_pure fun _ _ => writeReply_under _ _ _

variable {now : ℕ} {clock : Bool}

theorem quiet_tick : Quiet (tick clock now : Serve σ Node Empty ℕ) :=
  .ite (fun _ => rfl) keeps_pure

theorem serveOne_spec {request : Pending} {out : ℕ}
    (htag : tagOf request.message.bytes = some request.tag)
    (hversion : isVersion request.message.bytes = false) :
    Always (Is m) (serveOne fs session request out now clock) fun r s => Is m s ∧
      r.1.Under request.tag := by
  refine .ite (fun _ => ?_) fun _ => ?_
  · exact meets_pure fun s hs => ⟨hs, writeReply_under _ (.error (.error .timeout)) _⟩
  have hanswer : Always (Is m) (answerInto fs session.caller request.message.bytes out)
      fun answer s => Is m s ∧ answer.Under request.tag :=
    weaken (and ((quiet_answerInto hversion).is m) (answerInto_under htag))
      (fun _ hs => ⟨hs, trivial⟩) fun _ _ hs => hs
  refine bind (meets_change fun s hs => ?_) fun _ => hanswer.bind fun answer =>
    bind (meets_change fun s hs => ?_) fun _ => bind ((quiet_tick.always fun m' =>
      m' = m ∧ answer.Under request.tag)) fun now => meets_pure fun s hs => hs
  · exact hs
  · exact hs

/-- The same of a request served in the room it asks for. -/
theorem serveOne_packed {request : Pending} {lend pos : ℕ} {alone : Answer}
    (htag : tagOf request.message.bytes = some request.tag)
    (hversion : isVersion request.message.bytes = false)
    (hroom : min request.need lend ≤ lend - pos) :
    Always (fun s => Is m s ∧ aloneAnswer fs session request lend now clock s = alone)
      (serveOne fs session request (lend - pos) now clock) fun r s => Is m s ∧
        (r.1.Under request.tag ∧ ∀ message size, r.1 = .replied message size →
          (Reply.mk message alone).Whole) :=
  weaken (and (serveOne_spec htag hversion) (serveOne_whole hroom)) (fun _ hs => hs)
    fun _ _ hs => ⟨hs.1.1, hs.1.2, hs.2⟩

/-! ### Packing -/

/-- Answers packed for a connection. -/
abbrev packedFor (key : ConnKey) (packed : List Reply) : List (ConnKey × Reply) :=
  packed.map (key, ·)

theorem packedFor_snoc (key : ConnKey) (packed : List Reply) (reply : Reply) :
    packedFor key (packed ++ [reply]) = packedFor key packed ++ [(key, reply)] := by
  rw [packedFor, map_append]
  rfl

/-- The sessions in order with answers packed for the one at `i`. -/
def Packing (i : ℕ) (key : ConnKey) (packed : List Reply) (m : Mux) : Prop :=
  Orderly none (packedFor key packed) m ∧ m.At i key

/-- Nothing is packed in no bytes. -/
def Sized (pos : ℕ) (packed : List Reply) : Prop := pos = 0 → packed = []

variable {pos : ℕ} {packed : List Reply}

theorem Sized.add {size : ℕ} (hsize : 0 < size) : Sized (pos + size) packed :=
  fun hzero => absurd hzero (Nat.add_pos_right pos hsize).ne'

variable {lend : ℕ}

theorem fillRefused_spec {key : ConnKey} (tags : List UInt16)
    (hpos : Sized pos packed) :
    Always (fun s => Packing i key packed s.mux)
      (fillRefused i lend tags pos packed : Serve σ Node Empty (ℕ × List Reply))
      fun r s => Packing i key r.2 s.mux ∧ Sized r.1 r.2 := by
  induction tags generalizing pos packed with
  | nil => exact meets_pure fun _ hs => ⟨hs, hpos⟩
  | cons tag rest ih =>
    refine of_mux (Packing i key packed) fun m ⟨h, session, hget, hkey⟩ => ?_
    have hpacking {s : NineServer σ Node} (hs : Is m s) :
        Packing i key packed s.mux := by
      rw [hs]
      exact ⟨h, session, hget, hkey⟩
    refine .known (fun s hs => Is.session hs hget) ?_
    refine .ite (fun hin => ?_) fun _ => weaken (ih hpos) (fun s hs => hpacking hs)
      fun _ _ h => h
    cases hencode : (busy tag).encode (lend - pos) with
    | none => exact meets_pure fun s hs => ⟨hpacking hs, hpos⟩
    | some bytes =>
      refine changeSession_spec.bind fun _ =>
        weaken (ih (Sized.add (encode_pos hencode))) (fun s hs => ?_) fun _ _ h => h
      rw [hs, Packing, packedFor_snoc, ← hkey]
      rw [← hkey] at h
      exact ⟨h.pack_refused hget (of_decide_eq_true hin) bytes.length,
        Mux.At.modify ⟨session, hget, rfl⟩ rfl fun _ => rfl⟩

theorem fillRequests_spec (rest kept : List Pending) (now : ℕ)
    (hpos : Sized pos packed) :
    Always (fun s => Packing i session.key packed s.mux ∧ s.mux.pending = kept ++ rest)
      (fillRequests fs session i lend clock kept rest pos now packed)
      fun r s => Packing i session.key r.2.1 s.mux ∧ Sized r.1 r.2.1 := by
  induction rest generalizing kept pos now packed with
  | nil => exact meets_pure fun _ hs => ⟨hs.1, hpos⟩
  | cons p rest ih =>
    refine .ite (fun _ => ?_) fun hkey =>
      .ite (fun _ => meets_pure fun _ hs => ⟨hs.1, hpos⟩) fun hroom => ?_
    · refine weaken (ih (kept ++ [p]) now hpos) (fun s hs => ⟨hs.1, ?_⟩) fun _ _ h => h
      rw [hs.2, append_assoc, singleton_append]
    · refine of_mux (fun m => Packing i session.key packed m ∧
        m.pending = kept ++ p :: rest)
        fun m ⟨⟨h, current, hget, hcurrent⟩, hpending⟩ => ?_
      rw [not_not] at hkey
      obtain ⟨htag, hversion⟩ :=
        h.agree.request p (hpending ▸ mem_append_right _ mem_cons_self)
      refine setPending_spec.bind fun _ => Meets.ask fun alone =>
        (serveOne_packed htag hversion (not_lt.mp hroom)).bind fun (answer, now) => ?_
      have hunanswered (tried : Bool) :
          Always (fun s => Is { m with pending := kept ++ rest } s)
            (do
              setPending (kept ++ { p with tried := tried } :: rest)
              fillRequests fs session i lend clock (kept ++ [{ p with tried := tried }])
                rest pos now packed)
            fun r s => Packing i session.key r.2.1 s.mux ∧ Sized r.1 r.2.1 := by
        refine setPending_spec.bind fun _ =>
          weaken (ih (kept ++ [{ p with tried := tried }]) now hpos) (fun s hs => ?_)
            fun _ _ h => h
        rw [hs]
        refine ⟨⟨⟨h.keys, h.small, ?_⟩, current, hget, hcurrent⟩, append_cons ..⟩
        exact (hpending ▸ h.agree).retry
      cases answer with
      | waiting => exact given fun _ => hunanswered _
      | noRoom => exact given fun _ => hunanswered _
      | replied reply size =>
        refine given fun ⟨⟨hreply, hsize⟩, hwhole⟩ => ?_
        have hat : m.At i session.key := ⟨current, hget, hcurrent⟩
        have htagged : (Reply.mk reply alone).tag = p.tag := hreply
        refine changeSession_spec.bind fun _ =>
          (quiet_release.is _).bind fun _ =>
            weaken (ih kept now (Sized.add hsize)) (fun s hs => ?_) fun _ _ h => h
        rw [hs]
        refine ⟨?_, rfl⟩
        rw [Packing, packedFor_snoc, ← hkey]
        refine ⟨hkey ▸ h.pack hget hpending (hkey.trans hcurrent.symm) htagged ?_, ?_⟩
        · exact hwhole reply size rfl
        · exact hkey ▸ hat.modify rfl fun _ => rfl

theorem fill_spec :
    Always (fun s => Packing i session.key [] s.mux) (fill fs session i lend now clock)
      fun r s => Packing i session.key r.2.1 s.mux ∧ Sized r.1 r.2.1 := by
  refine Meets.bind (fillRefused_spec _ fun _ => rfl) fun (pos, packed) =>
    Meets.given fun hpos =>
    Meets.ask fun pending => ?_
  exact weaken (fillRequests_spec pending [] now hpos) (fun s hs => hs) fun _ _ h => h

/-! ### Delivery -/

theorem recordAnswers_spec {key : ConnKey} (packed : List Reply) :
    Always (fun s => Packing i key packed s.mux)
      (recordAnswers key packed : Serve σ Node Empty Unit)
      fun _ s => Orderly none [] s.mux := by
  induction packed with
  | nil => exact meets_pure fun _ hs => hs.1
  | cons reply rest ih =>
    refine bind (meets_change fun s hs => ?_) fun _ => ih
    exact ⟨⟨hs.1.keys, hs.1.small, hs.1.agree.deliver⟩, hs.2⟩

theorem changeSession_tidy {f : Session → Session} (hkey : ∀ s, (f s).key = s.key)
    (htags : ∀ s, (f s).tags = s.tags) (hrefused : ∀ s, (f s).refused = s.refused) :
    Always Tidy (changeSession i f : Serve σ Node Empty Unit) fun _ => Tidy :=
  meets_change fun _ hs => Orderly.same hs hkey htags hrefused

theorem pump_tidy {empty : Bool} : Always Tidy (pump fs i now empty) fun _ => Tidy := by
  refine of_mux (Orderly none []) fun m h => ?_
  have htidy {s : NineServer σ Node} (hs : Is m s) : Tidy s :=
    Eq.mpr (congrArg (Orderly none []) hs) h
  cases hget : m.sessions[i]? with
  | none =>
    refine .known (fun s hs => Is.session hs hget) ?_
    exact meets_pure fun s hs => htidy hs
  | some session =>
    refine .known (fun s hs => Is.session hs hget) ?_
    dsimp only
    cases session.call with
    | none => exact meets_pure fun s hs => htidy hs
    | some call =>
      have hat : m.At i session.key := ⟨session, hget, rfl⟩
      have hstart : Always (Is m)
          (changeSession i fun session => { session with call := none } :
            Serve σ Node Empty Unit)
          fun _ s => Packing i session.key [] s.mux := by
        refine weaken changeSession_spec (fun _ hs => hs) fun _ s hs => ?_
        rw [hs]
        exact ⟨h.same (fun _ => rfl) (fun _ => rfl) fun _ => rfl,
          hat.modify rfl fun _ => rfl⟩
      refine bind hstart fun _ => fill_spec.bind fun (pos, packed, now) =>
        given fun hpos => .ite (fun hempty => ?_) fun _ => ?_
      · refine bind (meets_change fun s hs => ?_) fun _ => meets_pure fun _ hs => hs
        have horder := hs.1
        rw [hpos hempty.1] at horder
        exact horder.same (fun _ => rfl) (fun _ => rfl) fun _ => rfl
      · refine bind (quiet_finish.always (Packing i session.key packed))
          fun delivered =>
          .ite (fun _ => ?_) fun _ => ?_
        · refine (recordAnswers_spec packed).bind fun _ =>
            (Quiet.tidy fun _ => rfl).bind fun now =>
            whatever fun bound => bind ?_ fun _ => meets_pure fun _ hs => hs
          exact changeSession_tidy (fun _ => rfl) (fun _ => rfl) fun _ => rfl
        · have hpacked : ∀ a ∈ packedFor session.key packed, a.1 = session.key := by
            intro a ha
            obtain ⟨reply, -, rfl⟩ := mem_map.mp ha
            rfl
          exact (endSession_spec hpacked).bind fun _ => meets_pure fun _ hs => hs

theorem takeAll_tidy {width : ℕ} {d : Delivery} :
    Always Tidy (takeAll fs width i d now) fun _ => Tidy := by
  rw [takeAll]
  split
  · exact endSession_tidy
  · exact take_tidy.bind fun _ =>
      .ite (fun _ => pump_tidy.bind fun _ => meets_pure fun _ hs => hs)
      fun _ => meets_pure fun _ hs => hs
  · exact takePages_tidy.bind fun _ =>
      .ite (fun _ => pump_tidy.bind fun _ => meets_pure fun _ hs => hs)
      fun _ => meets_pure fun _ hs => hs

/-! ### What comes to the server -/

/-- A session opened for a connection that has none. -/
theorem Orderly.opened {added : Session} (h : Orderly none [] m)
    (hnew : m.session added.key = none)
    (htags : added.tags = ∅) (hrefused : added.refused = ∅) :
    Orderly none [] { m with sessions := m.sessions ++ [added] } := by
  have hnone (tags : Session → Finset UInt16) (hempty : tags added = ∅) (k : ConnKey)
      (t : UInt16) :
      (∃ s ∈ m.sessions ++ [added], s.key = k ∧ t ∈ tags s) = ∃ s ∈ m.sessions,
        s.key = k ∧ t ∈ tags s := by
    simp [hempty]
  have hused : Mux.Used { m with sessions := m.sessions ++ [added] } = m.Used := by
    funext k t
    exact hnone Session.tags htags k t
  have hrefused : Mux.Refused { m with sessions := m.sessions ++ [added] } =
      m.Refused := by
    funext k t
    exact hnone Session.refused hrefused k t
  refine ⟨?_, fun k t ht => h.small k t (hused ▸ ht), ?_⟩
  · rw [map_append]
    refine nodup_append.mpr ⟨h.keys, nodup_singleton _, fun a ha b hb heq => ?_⟩
    obtain ⟨s, hs, rfl⟩ := mem_map.mp ha
    have hkey := findIdx?_eq_none_iff.mp hnew s hs
    exact of_decide_eq_false hkey (heq.trans (mem_singleton.mp hb))
  · rw [hused, hrefused]
    exact h.agree

theorem openSession_tidy {caller : Caller} :
    Always Tidy (openSession caller now : Serve σ Node Empty Bool) fun _ => Tidy := by
  refine Meets.whatever fun key => Meets.whatever fun holder =>
    quiet_tryReserve.tidy.bind fun memory =>
    Meets.ask fun found => .ite (fun _ => meets_pure fun _ hs => hs.1) fun hnone => ?_
  rw [not_or, Option.not_isSome_iff_eq_none] at hnone
  obtain ⟨rfl, -⟩ := hnone
  have hcharge : Quiet (attempt (charge holder .inFlight false) :
      Serve σ Node Empty _) := quiet_charge.attempt
  refine (hcharge.always fun m => Orderly none [] m ∧ m.session key = none).bind
    fun charged => ?_
  cases charged with
  | error e => exact meets_pure fun _ hs => hs.1
  | ok _ =>
    refine Meets.whatever fun bound => Meets.bind (meets_change fun s hs => ?_) fun _ =>
      meets_pure fun _ hs => hs
    exact Orderly.opened hs.1 hs.2 rfl rfl

theorem collect_tidy {caller : Caller} {id hold : ℕ} :
    Always Tidy (collect fs caller id hold lend) fun _ => Tidy := by
  refine (Quiet.tidy fun _ => rfl).bind fun now =>
    .ite (fun _ => meets_pure fun _ hs => hs) fun _ =>
    whatever fun key => whatever fun found => ?_
  cases found with
  | none =>
    refine openSession_tidy.bind fun _ => .ite (fun _ => ?_) fun _ =>
      meets_pure fun _ hs => hs
    exact quiet_finish.tidy.bind fun _ =>
      .ite (fun _ => meets_pure fun _ hs => hs) fun _ =>
      whatever fun n => endSession_tidy
  | some i =>
    refine whatever fun session => .ite (fun _ => meets_pure fun _ hs => hs) fun _ =>
      whatever fun bound => bind ?_ fun _ => pump_tidy.bind fun _ =>
        meets_pure fun _ hs => hs
    exact changeSession_tidy (fun _ => rfl) (fun _ => rfl) fun _ => rfl

theorem deliver_tidy {width : ℕ} {d : Delivery} :
    Always Tidy (deliver fs width d now) fun _ => Tidy := by
  refine .ite (fun _ => meets_pure fun _ hs => hs) fun _ => whatever fun key =>
    whatever fun found => ?_
  cases found with
  | none => exact meets_pure fun _ hs => hs
  | some i => exact takeAll_tidy

theorem collectInto_tidy {caller : Caller} :
    Always Tidy (collectInto fs caller lend now) fun _ => Tidy := by
  refine Meets.whatever fun key => Meets.whatever fun found => ?_
  cases found with
  | none => exact meets_pure fun _ hs => hs
  | some i =>
    refine Meets.ask fun session => ?_
    cases session with
    | none => exact meets_pure fun _ hs => hs.1
    | some session =>
      have hfill : Always (fun s => Tidy s ∧ s.mux.sessions[i]? = some session)
          (fill fs session i lend now false)
          fun r s => Packing i session.key r.2.1 s.mux ∧ Sized r.1 r.2.1 :=
        weaken fill_spec (fun s hs => ⟨hs.1, session, hs.2, rfl⟩) fun _ _ h => h
      exact .ite (fun _ => meets_pure fun _ hs => hs.1) fun _ =>
        hfill.bind fun (_, packed, _) =>
        Meets.given fun _ => recordAnswers_spec packed

theorem abandoned_tidy {id : ℕ} :
    Always Tidy (abandoned id : Serve σ Node Empty Unit) fun _ => Tidy := by
  refine whatever fun found => ?_
  cases found with
  | none => exact meets_pure fun _ hs => hs
  | some i => exact endSession_tidy

theorem expireOne_tidy : Always Tidy (expireOne fs i now) fun _ => Tidy := by
  refine whatever fun found => ?_
  cases found with
  | none => exact meets_pure fun _ hs => hs
  | some session =>
    refine .ite (fun _ => .ite (fun _ => ?_) fun _ => meets_pure fun _ hs => hs)
      fun _ =>
      whatever fun late => .ite (fun _ => pump_tidy) fun _ => meets_pure fun _ hs => hs
    exact endSession_tidy.bind fun _ => meets_pure fun _ hs => hs

theorem eachSession_tidy {visit : ℕ → Serve σ Node Empty Bool}
    (hvisit : ∀ i, Always Tidy (visit i) fun _ => Tidy) (left i : ℕ) :
    Always Tidy (eachSession visit left i) fun _ => Tidy := by
  induction left generalizing i with
  | zero => exact meets_pure fun _ hs => hs
  | succ left ih =>
    exact (hvisit i).bind fun stays => .ite (fun _ => ih (i + 1)) fun _ => ih i

theorem expire_tidy : Always Tidy (expire fs now) fun _ => Tidy :=
  whatever fun n => eachSession_tidy (fun _ => expireOne_tidy) n 0

theorem wake_tidy : Always Tidy (wake fs now) fun _ => Tidy :=
  whatever fun n => eachSession_tidy (fun _ => pump_tidy) n 0

end Serve

end Redoubt.Ninep
