import Redoubt.Ninep.History

/-!
# What a read is given

A fill serves a read only in the room that it asks for.  So the file server is asked for
the same bytes as if the read were alone in the lend, and what it gives fits.
-/

namespace Redoubt.Ninep

open Actions Action Admission History Serve List

variable {σ Node : Type} {fs : FileServer σ Node} {s : NineServer σ Node}
    {caller : Caller}

/-- Data that fits what was asked for. -/
theorem length_listDir {caller : Caller} {dir : Node} {count : ℕ} (left index : ℕ)
    (out : List UInt8)
    (hout : out.length ≤ count) :
    Meets (fun _ => True) (listDir fs caller dir count left index out)
      (fun r _ => r.1.length ≤ count)
      fun _ _ => True := by
  induction left generalizing index out with
  | zero => exact meets_pure fun _ _ => hout
  | succ left ih =>
    refine meets_skip.bind fun found => ?_
    rcases found with - | ⟨entry, stat⟩
    · exact meets_pure fun _ _ => hout
    · refine Meets.whatever fun files => .ite (fun _ => ?_) fun _ => ih _ _ hout
      cases hentry : (Writer.entry stat.wire).filter fun bytes =>
        out.length + bytes.length ≤ count with
      | none =>
        exact .ite (fun _ => meets_fail fun _ _ => trivial) fun _ =>
          meets_pure fun _ _ => hout
      | some bytes =>
        refine ih _ _ ?_
        rw [length_append]
        exact of_decide_eq_true (Option.filter_eq_some_iff.mp hentry).2

variable {name asked : UInt32} {offset : UInt64}

theorem length_read {caller : Caller} {room : ℕ} :
    Meets (fun _ => True) (read fs caller name offset asked room)
      (fun data _ => data.length ≤ asked.toNat)
      fun _ _ => True := by
  refine Meets.whatever fun key => meets_skip.bind fun f => meets_skip.bind fun _ =>
    meets_skip.bind fun _ => meets_skip.bind fun _ => meets_skip.bind fun _ =>
      .ite (fun _ => ?_) fun _ => ?_
  · refine meets_skip.bind fun got => ?_
    rcases got with ⟨n, out⟩ | -
    · have hrequire : Meets (fun _ => True)
          (require (n ≤ min asked.toNat (room - ioHdrSz)) (.error .badMessage) :
            Serve σ Node Held Unit)
          (fun _ _ => n ≤ min asked.toNat (room - ioHdrSz)) fun _ _ => True :=
        Meets.require (fun hle _ _ => hle) fun _ _ _ => trivial
      refine hrequire.bind fun _ => meets_pure fun s hle => ?_
      calc
        (buffered n out).length ≤ n := length_take_le ..
        _ ≤ min asked.toNat (room - ioHdrSz) := hle
        _ ≤ asked.toNat := min_le_left ..
    · exact meets_fail fun _ _ => trivial
  · refine meets_skip.bind fun _ =>
      Meets.bind (Meets.mapError (length_listDir _ _ [] (Nat.zero_le _)))
      fun (out, index) => ?_
    exact meets_skip.bind fun _ => meets_pure fun _ hlength =>
      hlength.trans (min_le_left ..)

variable {lend pos : ℕ}

theorem length_encode {message : Message} {room : ℕ} {bytes : List UInt8}
    (hencode : message.encode room = some bytes) :
    (∃ fields, message.body.fields.2 = some fields ∧
      bytes.length = headerSize + fields.length) ∧
      bytes.length ≤ room ∧ ∀ room', bytes.length ≤ room' →
      message.encode room' = some bytes := by
  obtain ⟨fields, hfields, hguard⟩ := Option.bind_eq_some_iff.mp hencode
  obtain ⟨_, hsize, hbytes⟩ := Option.bind_eq_some_iff.mp hguard
  have hlength : bytes.length = headerSize + fields.length := by
    cases hbytes
    simp only [length_append, length_cons, LittleEndian.length_leBytes,
      Writer.u16, headerSize]
  have hle := of_guard hsize
  refine ⟨⟨fields, hfields, hlength⟩, hlength ▸ hle.1, fun room' hroom' => ?_⟩
  have hguard' :
      (guard (headerSize + fields.length ≤ room' ∧ headerSize + fields.length ≤ msize) :
        Option Unit) =
      some () := if_pos ⟨hlength ▸ hroom', hle.2⟩
  exact Option.bind_eq_some_iff.mpr
    ⟨fields, hfields, Option.bind_eq_some_iff.mpr ⟨(), hguard', hbytes⟩⟩

variable {data : List UInt8} {t : UInt16}

/-- What a reply of data says of the answer. -/
theorem writeReply_eq_rread {tag : UInt16} {reply : Except Held Body} {room size : ℕ}
    (hreply : writeReply tag reply room = .replied ⟨t, .rread data⟩ size) :
    reply = .ok (.rread data) ∧ t = tag ∧
      ∃ bytes, (Message.mk tag (.rread data)).encode room = some bytes ∧
      bytes.length = size := by
  rcases writeReply_cases tag reply room with heq | heq | ⟨body, bytes,
    hbytes, heq, hbody⟩
  · cases heq.symm.trans hreply
  · cases heq.symm.trans hreply
  · cases heq.symm.trans hreply
    rcases hbody with rfl | ⟨text, htext⟩
    · exact ⟨rfl, rfl, bytes, hbytes, rfl⟩
    · cases htext

theorem length_answer_rread {caller : Caller} {room : ℕ}
    (hanswer : (answer fs caller (.tread name offset asked) room s).1 =
      .ok (.rread data)) :
    data.length ≤ asked.toNat := by
  have hmeets : Meets (fun _ => True) (answer fs caller (.tread name offset asked) room)
      (fun body _ => ∀ data, body = .rread data → data.length ≤ asked.toNat) fun _ _ =>
        True := by
    refine meets_skip.bind fun _ => length_read.bind fun data =>
      meets_pure fun _ hlength data' heq => ?_
    cases heq
    exact hlength
  exact hmeets.value trivial hanswer data rfl

theorem answer_tread_congr {caller : Caller} {room room' : ℕ}
    (hcount : min asked.toNat (room - ioHdrSz) = min asked.toNat (room' - ioHdrSz)) :
    answer fs caller (.tread name offset asked) room =
      answer fs caller (.tread name offset asked) room' := by
  have hread : read fs caller name offset asked room =
      read fs caller name offset asked room' := by
    unfold Serve.read
    rw [hcount]
  rw [answer, answer, hread]

/-- Only a read is answered with data. -/
theorem answer_eq_rread {body : Body} {room : ℕ}
    (hanswer : (answer fs caller body room s).1 = .ok (.rread data)) :
    ∃ name offset asked, body = .tread name offset asked := by
  have hmeets : Meets (fun _ => True) (answer fs caller body room)
      (fun reply _ => ∀ data, reply = .rread data → ∃ name offset asked,
        body = .tread name offset asked)
      fun _ _ => True := by
    refine meets_skip.bind fun _ => ?_
    cases body with
    | tread name offset asked =>
      exact meets_skip.bind fun _ => meets_pure fun _ _ _ _ => ⟨_, _, _, rfl⟩
    | tversion size asked =>
      refine Meets.mapError (meets_skip.bind fun _ => meets_skip.bind fun _ =>
        meets_skip.bind fun _ => ?_)
      exact meets_pure fun _ _ _ heq => Body.noConfusion heq
    | tflush old => exact meets_pure fun _ _ _ heq => Body.noConfusion heq
    | tattach | twalk | topen | tcreate | twrite | tclunk | tremove | tstat =>
      exact meets_skip.bind fun _ => meets_pure fun _ _ _ heq => Body.noConfusion heq
    | _ => exact meets_fail fun _ _ => trivial
  exact hmeets.value trivial hanswer data rfl

/-- Data that fits the lend fits what is left of it. -/
theorem writeReply_whole {tag : UInt16} {reply : Except Held Body} {asked size : ℕ}
    (hroom : min (ioHdrSz + asked) lend ≤ lend - pos)
    (hasked : ∀ data, reply = .ok (.rread data) → data.length ≤ asked) :
    writeReply tag reply (min (lend - pos) msize) = .replied ⟨t, .rread data⟩ size ↔
      writeReply tag reply (min lend msize) = .replied ⟨t, .rread data⟩ size := by
  constructor
  · intro hreply
    obtain ⟨rfl, rfl, bytes, hencode, rfl⟩ := writeReply_eq_rread hreply
    obtain ⟨-, hfits, hagain⟩ := length_encode hencode
    rw [writeReply]
    dsimp only
    rw [hagain _ (by omega)]
  · intro hreply
    obtain ⟨rfl, rfl, bytes, hencode, rfl⟩ := writeReply_eq_rread hreply
    have hdata := hasked data rfl
    obtain ⟨⟨fields, hfields, hlength⟩, hfits, hagain⟩ := length_encode hencode
    have hfieldsLength : fields.length = 4 + data.length := by
      change Writer.bytes data = some fields at hfields
      rw [Writer.bytes] at hfields
      split_ifs at hfields
      cases hfields
      rw [length_append, LittleEndian.length_leBytes]
    have hle : bytes.length ≤ min (lend - pos) msize := by
      simp only [headerSize, ioHdrSz] at hlength hroom
      omega
    rw [writeReply]
    dsimp only
    rw [hagain _ hle]

section ServeOne

variable {session : Session} {p : Pending} {now : ℕ} {clock : Bool}

/-- The state in which the file server is asked for a request's answer. -/
def servingState (fs : FileServer σ Node) (session : Session) (s : NineServer σ Node) :
    NineServer σ Node :=
  { s with
    fs := (fs.serving session.caller session.charge (s.fs, s.admission)).1
    admission := (fs.serving session.caller session.charge (s.fs, s.admission)).2 }

theorem aloneAnswer_late (hlate : p.tried = true ∧ p.deadline ≤ now) (out : ℕ) :
    aloneAnswer fs session p out now clock s =
      writeReply p.tag (.error (.error .timeout)) out := by
  rw [aloneAnswer, serveOne, if_pos hlate]
  rfl

theorem aloneAnswer_malformed (hlate : ¬ (p.tried = true ∧ p.deadline ≤ now))
    (hdecode : Message.decode p.message.bytes = none) (out : ℕ) :
    aloneAnswer fs session p out now clock s =
      writeReply ((tagOf p.message.bytes).getD noTag)
      (.error (.error .badMessage)) (min out msize) := by
  rw [aloneAnswer, serveOne, if_neg hlate, answerInto, hdecode]
  cases clock <;> rfl

theorem aloneAnswer_decoded (hlate : ¬ (p.tried = true ∧ p.deadline ≤ now))
    {message : Message}
    (hdecode : Message.decode p.message.bytes = some message) (out : ℕ) :
    aloneAnswer fs session p out now clock s = writeReply message.tag
      (answer fs session.caller message.body (min out msize)
        (servingState fs session s)).1
      (min out msize) := by
  rw [aloneAnswer, serveOne, if_neg hlate, answerInto, hdecode]
  cases clock <;> rfl

/-- A read served in the room it asks for is given the data it would be given in the
whole lend. -/
theorem aloneAnswer_whole {size : ℕ} (hroom : min p.need lend ≤ lend - pos) :
    aloneAnswer fs session p (lend - pos) now clock s = .replied ⟨t, .rread data⟩ size ↔
      aloneAnswer fs session p lend now clock s = .replied ⟨t, .rread data⟩ size := by
  have herror {tag : UInt16} {e : NineError} {room : ℕ} :
      writeReply tag (.error (.error e)) room ≠ .replied ⟨t, .rread data⟩ size :=
    fun hreply => by cases (writeReply_eq_rread hreply).1
  by_cases hlate : p.tried = true ∧ p.deadline ≤ now
  · rw [aloneAnswer_late hlate, aloneAnswer_late hlate]
    exact iff_of_false herror herror
  cases hdecode : Message.decode p.message.bytes with
  | none =>
    rw [aloneAnswer_malformed hlate hdecode, aloneAnswer_malformed hlate hdecode]
    exact iff_of_false herror herror
  | some message =>
    rw [aloneAnswer_decoded hlate hdecode, aloneAnswer_decoded hlate hdecode]
    by_cases hread : ∃ name offset asked, message.body = .tread name offset asked
    · obtain ⟨name, offset, asked, hbody⟩ := hread
      have hneed : p.need = ioHdrSz + asked.toNat := by
        rw [Pending.need, hdecode]
        obtain ⟨tag, body⟩ := message
        obtain rfl : body = _ := hbody
        rfl
      rw [hneed] at hroom
      -- the room asked for leaves the file server's count as it would be alone
      have hcount : min asked.toNat (min (lend - pos) msize - ioHdrSz) =
          min asked.toNat (min lend msize - ioHdrSz) := by
        omega
      rw [hbody, answer_tread_congr hcount]
      exact writeReply_whole hroom fun _ hdata => length_answer_rread hdata
    · have hnone {room : ℕ} : writeReply message.tag
          (answer fs session.caller message.body room (servingState fs session s)).1
          room ≠ .replied ⟨t, .rread data⟩ size :=
        fun hreply => hread (answer_eq_rread (writeReply_eq_rread hreply).1)
      exact iff_of_false hnone hnone

/-- What is packed of a request served in the room it asks for. -/
theorem serveOne_whole {alone : Answer} (hroom : min p.need lend ≤ lend - pos) :
    Always (fun s => aloneAnswer fs session p lend now clock s = alone)
      (serveOne fs session p (lend - pos) now clock : Serve σ Node Empty _)
      fun r _ => ∀ message size, r.1 = .replied message size →
      (Reply.mk message alone).Whole := by
  intro s halone
  have hwhole (t : UInt16) (data : List UInt8) (size : ℕ) :
      aloneAnswer fs session p (lend - pos) now clock s =
        .replied ⟨t, .rread data⟩ size ↔
        alone = .replied ⟨t, .rread data⟩ size :=
    halone ▸ aloneAnswer_whole hroom
  simp only [aloneAnswer] at hwhole
  generalize (serveOne fs session p (lend - pos) now clock : Serve σ Node Empty _) s =
    ended at hwhole ⊢
  rcases ended with ⟨e | ⟨answer, later⟩, s'⟩
  · exact e.elim
  intro message size hanswer tag data
  constructor
  · intro hmessage
    refine ⟨size, (hwhole tag data size).mp ?_⟩
    exact hanswer.trans (congrArg (Answer.replied · size) hmessage)
  · rintro ⟨size', hread⟩
    cases ((hwhole tag data size').mpr hread).symm.trans hanswer
    rfl

end ServeOne

end Redoubt.Ninep
