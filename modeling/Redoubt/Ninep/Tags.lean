import Redoubt.Ninep.Orderly
import Redoubt.Ninep.Quiet

/-!
# Every step keeps the tags in order

What each part of the server does to the sessions, from one orderly state to the next.
-/

namespace Redoubt.Ninep

open Actions Action Admission Vectors History Meets

namespace Serve

variable {σ Node ε : Type} {fs : FileServer σ Node}

/-- The sessions and their requests are `m`. -/
abbrev Is (m : Mux) (s : NineServer σ Node) : Prop := s.mux = m

variable {α : Type} {x : Serve σ Node Empty α}

theorem Quiet.is (hx : Quiet x) (m : Mux) : Always (Is m) x fun _ => Is m :=
  hx.always (· = m)

theorem Is.session {m : Mux} {s : NineServer σ Node} {i : ℕ} {session : Option Session}
    (hs : Is m s) (hget : m.sessions[i]? = session) : s.mux.sessions[i]? = session :=
  (congrArg (fun m : Mux => m.sessions[i]?) hs).trans hget

/-! ### Ends -/

theorem quiet_releasePages {holder : AdmitKey × ℕ} (n : ℕ) :
    Quiet (releasePages holder n : Serve σ Node ε Unit) := by
  induction n with
  | zero => exact keeps_pure
  | succ n ih => exact quiet_discharge.bind fun _ => ih

variable {inHand : Option ℕ}

theorem quiet_release {holder : AdmitKey × ℕ} {request : Pending} :
    Quiet (release holder inHand request : Serve σ Node ε Unit) := by
  refine quiet_discharge.bind fun _ => ?_
  rcases request.message.transfer with - | ⟨transfer, npages⟩
  · exact keeps_pure
  · exact keeps_query.bind fun _ => .ite keeps_pure (quiet_releasePages npages)

variable {m : Mux}

theorem endRequests_spec {key : ConnKey} {holder : AdmitKey × ℕ}
    (kept rest : List Pending) :
    Always (Is { m with pending := kept ++ rest })
      (endRequests key holder inHand kept rest : Serve σ Node Empty Unit)
      fun _ => Is { m with pending := kept ++ rest.filter fun p => p.key ≠ key } := by
  induction rest generalizing kept with
  | nil => exact meets_pure fun _ hs => hs
  | cons p rest ih =>
    refine .ite (fun hkey => ?_) fun hkey => ?_
    · have hfilter : (p :: rest).filter (fun p => p.key ≠ key) = rest.filter fun p =>
          p.key ≠ key :=
        List.filter_cons_of_neg (by simp [hkey])
      have hset : Always (Is { m with pending := kept ++ p :: rest })
          (setPending (kept ++ rest) : Serve σ Node Empty Unit)
          fun _ => Is { m with pending := kept ++ rest } :=
        meets_change fun _ hs =>
          congrArg (fun m : Mux => { m with pending := kept ++ rest }) hs
      rw [hfilter]
      exact hset.bind fun _ => (quiet_release.is _).bind fun _ => ih kept
    · have hfilter : (p :: rest).filter (fun p => p.key ≠ key) = p ::
          rest.filter fun p => p.key ≠ key :=
        List.filter_cons_of_pos (by simp [hkey])
      rw [hfilter]
      simpa only [List.append_assoc, List.singleton_append] using ih (kept ++ [p])

theorem quiet_endCall (call : Option Parked) :
    Quiet (endCall call : Serve σ Node ε Unit) := by
  cases call with
  | none => exact keeps_pure
  | some call => exact quiet_finish.bind fun _ => keeps_pure

theorem record_spec {e : MuxEvent} :
    Always (Is m) (record e : Serve σ Node Empty Unit) fun _ =>
      Is { m with history := m.history ++ [e] } :=
  meets_change fun _ hs =>
    congrArg (fun m : Mux => { m with history := m.history ++ [e] }) hs

theorem finishSession_spec {session : Session} :
    Always (Is m) (finishSession inHand session : Serve σ Node Empty Unit) fun _ =>
      Is { m with pending := m.pending.filter fun p => p.key ≠ session.key
                  history := m.history ++ [.ended session.key] } := by
  refine .known (fun s hs => congrArg Mux.pending hs) ?_
  exact (endRequests_spec [] m.pending).bind fun _ =>
    (quiet_discharge.is _).bind fun _ =>
    ((quiet_endCall _).is _).bind fun _ => record_spec

theorem of_mux (holds : Mux → Prop)
    {post : α → NineServer σ Node → Prop} (hx : ∀ m, holds m → Always (Is m) x post) :
    Always (fun s => holds s.mux) x post :=
  fun s hs => hx s.mux hs s rfl

/-- What holds of the sessions keeps holding. -/
theorem Quiet.always (hx : Quiet x) (holds : Mux → Prop) :
    Always (fun s => holds s.mux) x fun _ s => holds s.mux :=
  Keeps.always hx holds

section Packed

variable {inHand : Option ℕ} {i : ℕ} {key : ConnKey} {packed : List (ConnKey × Reply)}

theorem endSession_spec (hpacked : ∀ a ∈ packed, a.1 = key) :
    Always (fun s => Orderly none packed s.mux ∧ s.mux.At i key)
      (endSession inHand i : Serve σ Node Empty Unit) fun _ s =>
      Orderly none [] s.mux := by
  refine of_mux (fun m => Orderly none packed m ∧ m.At i key)
    fun m ⟨h, session, hget, hkey⟩ => ?_
  refine .known (fun s hs => Is.session hs hget) ?_
  have hremove : Always (Is m)
      (change fun s => { s with mux.sessions := swapRemove s.mux.sessions i } :
        Serve σ Node Empty Unit)
      fun _ => Is { m with sessions := swapRemove m.sessions i } :=
    meets_change fun _ hs =>
      congrArg (fun m : Mux => { m with sessions := swapRemove m.sessions i }) hs
  refine Always.weaken (hremove.bind fun _ => finishSession_spec) (fun _ hs => hs)
    fun _ s hs => ?_
  rw [hs]
  exact h.finish hget fun a ha => (hpacked a ha).trans hkey.symm

end Packed

/-- The sessions are in order. -/
abbrev Tidy (s : NineServer σ Node) : Prop := Orderly none [] s.mux

theorem endSession_tidy {i : ℕ} :
    Always Tidy (endSession inHand i : Serve σ Node Empty Unit) fun _ => Tidy := by
  refine of_mux (Orderly none []) fun m h => ?_
  cases hget : m.sessions[i]? with
  | none =>
    refine .known (fun s hs => Is.session hs hget) ?_
    exact meets_pure fun s hs => Eq.mpr (congrArg (Orderly none []) hs) h
  | some session =>
    have hnone : ∀ a ∈ ([] : List (ConnKey × Reply)), a.1 = session.key :=
      fun _ ha => absurd ha List.not_mem_nil
    refine Always.weaken (endSession_spec hnone) (fun s hs => ?_) fun _ _ hs => hs
    rw [hs]
    exact ⟨h, session, hget, rfl⟩

theorem endSessions_tidy {which : ConnKey → Bool} (n : ℕ) :
    Always Tidy (endSessions which n : Serve σ Node Empty Unit) fun _ => Tidy := by
  induction n with
  | zero => exact meets_pure fun _ hs => hs
  | succ n ih =>
    refine whatever fun found => ?_
    cases found with
    | none => exact meets_pure fun _ hs => hs
    | some i => exact endSession_tidy.bind fun _ => ih

theorem endWhere_tidy {which : ConnKey → Bool} :
    Always Tidy (endWhere which : Serve σ Node Empty Unit) fun _ => Tidy :=
  whatever fun n => endSessions_tidy n

/-! ### Requests by one call -/

/-- Every session is as orderly as before. -/
theorem Quiet.tidy (hx : Quiet x) : Always Tidy x fun _ => Tidy :=
  hx.always (Orderly none [])

theorem version_tidy {caller : Caller} {size : UInt32} {asked : Text} :
    Always Tidy (version fs caller size asked) fun _ => Tidy :=
  whatever fun _ => quiet_dropConn.tidy.bind fun _ =>
    endWhere_tidy.bind fun _ => meets_pure fun _ hs => hs

theorem answer_tidy {caller : Caller} {body : Body} {room : ℕ} :
    Meets Tidy (answer fs caller body room) (fun _ => Tidy) fun _ => Tidy := by
  by_cases hversion : ∃ size asked, body = .tversion size asked
  · obtain ⟨size, asked, rfl⟩ := hversion
    refine bind (quiet_arrived.mapError.meets (Orderly none [])) fun _ => mapError ?_
    exact weaken version_tidy (fun _ hs => hs) (fun _ _ hs => hs) fun e => e.elim
  · exact (quiet_answer fun size asked hbody => hversion ⟨size, asked, hbody⟩).meets
      (Orderly none [])

theorem answerInto_tidy {caller : Caller} {request : List UInt8} {out : ℕ} :
    Always Tidy (answerInto fs caller request out) fun _ => Tidy := by
  rw [answerInto]
  cases Message.decode request with
  | none => exact meets_pure fun _ hs => hs
  | some message => exact answer_tidy.attempt.bind fun _ => meets_pure fun _ hs => hs

theorem connectionGone_tidy {gone : Entry (Node × Qid)} :
    Always Tidy (connectionGone fs gone) fun _ => Tidy :=
  endWhere_tidy.bind fun _ => whatever fun n =>
    (quiet_dropConns n).tidy.bind fun _ => quiet_discharge.tidy.bind fun _ =>
      quiet_tell.tidy

theorem connectionsGone_tidy (gone : List (Entry (Node × Qid))) :
    Always Tidy (connectionsGone fs gone) fun _ => Tidy := by
  induction gone with
  | nil => exact meets_pure fun _ hs => hs
  | cons entry rest ih => exact connectionGone_tidy.bind fun _ => ih

theorem forget_tidy {badge : ℕ} : Always Tidy (forget fs badge) fun _ => Tidy :=
  whatever fun gone =>
    bind (meets_change fun _ hs => hs) fun _ => connectionsGone_tidy gone

theorem disconnect_tidy {caller : Caller} {id : ℕ} :
    Always Tidy (disconnect fs caller id) fun _ => Tidy := by
  refine whatever fun found => ?_
  rcases found with - | ⟨gone, minted⟩
  · exact meets_pure fun _ hs => hs
  · exact bind (meets_change fun _ hs => hs) fun _ =>
      (connectionsGone_tidy gone).bind fun _ => meets_pure fun _ hs => hs

theorem quiet_mintAt {caller : Caller} {newRoot : Node × Qid} {quota share : ℕ} :
    Quiet (mintAt fs caller newRoot quota share) := by
  refine quiet_tryReserve.bind fun memory => Keeps.bind (fun _ => rfl) fun reserved =>
    ?_
  rcases reserved with (- | -) | ticket
  · exact keeps_fail
  · exact keeps_fail
  · refine quiet_ask.bind fun _ => Keeps.bind (fun _ => rfl) fun made => ?_
    cases made with
    | ok made => exact keeps_pure
    | error e => exact quiet_tell.bind fun _ => keeps_fail

theorem quiet_stepAll {caller : Caller} (names : List Text) (steps : Steps Node) :
    Quiet (stepAll fs caller names steps) := by
  induction names generalizing steps with
  | nil => exact keeps_pure
  | cons name rest ih => exact quiet_step.bind fun steps => ih steps

theorem quiet_makeConnection {caller : Caller} {path : Text} {quota share : ℕ} :
    Quiet (makeConnection fs caller path quota share) := by
  rw [makeConnection]
  cases clean path with
  | error e => exact keeps_fail
  | ok names =>
    exact quiet_needMemory.bind fun _ =>
      (Keeps.ite quiet_attached quiet_root).bind fun _ =>
      (quiet_stepAll _ _).bind fun _ => quiet_mintAt

theorem quiet_charged {caller : Caller} {make : ℕ → Serve σ Node NineError α}
    (hmake : ∀ share, Quiet (make share)) : Quiet (charged caller make) := by
  refine keeps_query.bind fun holder => quiet_charge.bind fun _ =>
    (hmake _).attempt.bind fun made => ?_
  cases made with
  | ok made => exact keeps_pure
  | error e => exact quiet_discharge.bind fun _ => keeps_fail

theorem answerCommon_tidy {caller : Caller} {message : Option Common} {fits : Bool} :
    Always Tidy (answerCommon fs caller message fits) fun _ => Tidy := by
  cases message with
  | none => exact meets_pure fun _ hs => hs
  | some message =>
    refine bind (Quiet.tidy (Keeps.attempt quiet_arrived)) fun arrived => ?_
    cases arrived with
    | error e => exact meets_pure fun _ hs => hs
    | ok _ =>
      cases message with
      | disconnect id =>
        exact disconnect_tidy.bind fun yours =>
          .ite (fun _ => meets_pure fun _ hs => hs) fun _ => meets_pure fun _ hs => hs
      | newConnection path quota =>
        refine bind
          (Quiet.tidy (Keeps.attempt (quiet_charged fun _ => quiet_makeConnection)))
          fun made => ?_
        rcases made with e | ⟨handle, id, badge⟩
        · exact meets_pure fun _ hs => hs
        · exact .ite (fun _ => meets_pure fun _ hs => hs) fun _ =>
            forget_tidy.bind fun _ => meets_pure fun _ hs => hs

theorem serveCommon_tidy {caller : Caller} {message : Option Common} {fits : Bool} :
    Always Tidy (serveCommon fs caller message fits) fun _ => Tidy := by
  refine bind (meets_change fun _ hs => hs) fun _ => answerCommon_tidy.bind fun reply =>
    quiet_finish.tidy.bind fun accepted => whatever fun made => ?_
  cases made with
  | none => exact meets_pure fun _ hs => hs
  | some badge =>
    exact bind (when (fun _ => forget_tidy) fun _ _ hs => hs) fun _ =>
      meets_pure fun _ hs => hs

end Serve

end Redoubt.Ninep
