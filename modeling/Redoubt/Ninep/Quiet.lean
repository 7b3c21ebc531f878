import Redoubt.Ninep.Mux

/-!
# What leaves the sessions alone

Only a `Tversion`, a connection's end and the multiplexed connections' own work touch
the sessions and their requests.
-/

namespace Redoubt.Ninep

open Actions Action Admission Vectors Keeps

namespace Serve

variable {σ Node ε α : Type} {fs : FileServer σ Node} {caller : Caller} {key : ConnKey}
  {holder : AdmitKey × ℕ} {r : Resource} {fixed isRoot : Bool}
    {name newfid afid : UInt32} {node : Node}
  {mode : UInt8} {aname : Text} {which : ConnKey → Bool} {steps : Steps Node}
    {offset : UInt64} {room : ℕ}

/-- The sessions and their requests are as they were. -/
abbrev Quiet (x : Serve σ Node ε α) : Prop :=
  Keeps (fun s : NineServer σ Node => s.mux) x

theorem quiet_tryReserve : Quiet (tryReserve : Serve σ Node ε Bool) := fun _ => rfl

theorem quiet_finish : Quiet (finish : Serve σ Node ε Bool) := fun _ => rfl

theorem quiet_ask {question : Action σ ε α} : Quiet (ask question : Serve σ Node ε α) :=
  fun _ => rfl

theorem quiet_tell {f : σ → σ} : Quiet (tell f : Serve σ Node ε Unit) :=
  keeps_change fun _ => rfl

theorem quiet_charge : Quiet (charge holder r fixed : Serve σ Node NineError Unit) := by
  intro s
  dsimp only [charge]
  split <;> rfl

theorem quiet_discharge : Quiet (discharge holder r fixed : Serve σ Node ε Unit) :=
  keeps_change fun _ => rfl

theorem quiet_settle {badge : ℕ} {charged : AdmitKey × ℕ} :
    Quiet (settle badge charged : Serve σ Node ε Unit) :=
  keeps_change fun _ => rfl

/-! ### Fids -/

theorem quiet_fid : Quiet (fid key name : Serve σ Node NineError (Fid Node)) :=
  keeps_query.bind fun _ => keeps_found

theorem quiet_fidMut {f : Fid Node → Fid Node} :
    Quiet (fidMut key name f : Serve σ Node NineError Unit) :=
  quiet_fid.bind fun _ => keeps_change fun _ => rfl

theorem quiet_needMemory : Quiet (needMemory : Serve σ Node NineError Unit) :=
  quiet_tryReserve.bind fun _ => keeps_require

theorem quiet_reserveFid :
    Quiet (reserveFid caller name isRoot : Serve σ Node NineError Unit) :=
  keeps_query.bind fun _ => keeps_query.bind fun _ => keeps_require.bind fun _ =>
    keeps_query.bind fun _ => keeps_require.bind fun _ => keeps_query.bind fun _ =>
    keeps_require.bind fun _ => keeps_query.bind fun _ => quiet_charge

theorem quiet_unreserve : Quiet (unreserve caller isRoot : Serve σ Node ε Unit) :=
  keeps_query.bind fun _ => keeps_query.bind fun _ => quiet_discharge

theorem quiet_insertFid {state : Fid Node} :
    Quiet (insertFid caller name state : Serve σ Node NineError Unit) := by
  refine keeps_query.bind fun key => keeps_query.bind fun share =>
    keeps_query.bind fun conn =>
    (ite keeps_pure quiet_tryReserve).bind fun table =>
      quiet_tryReserve.bind fun room => .ite ?_ ?_
  · exact keeps_change fun _ => rfl
  · exact bind (keeps_change fun _ => rfl) fun _ =>
      quiet_discharge.bind fun _ => keeps_fail

theorem quiet_removeFid :
    Quiet (removeFid key name : Serve σ Node NineError (Fid Node × ℕ)) :=
  keeps_query.bind fun _ => keeps_found.bind fun _ => keeps_found.bind fun _ =>
    bind (keeps_change fun _ => rfl) fun _ => keeps_pure

theorem quiet_dropFid {f : Fid Node} :
    Quiet (dropFid fs holder f : Serve σ Node ε Unit) :=
  quiet_discharge.bind fun _ => quiet_tell

theorem quiet_dropFids (fids : List (UInt32 × Fid Node)) :
    Quiet (dropFids fs holder fids : Serve σ Node ε Unit) := by
  induction fids with
  | nil => exact keeps_pure
  | cons f rest ih => exact quiet_dropFid.bind fun _ => ih

theorem quiet_dropConn : Quiet (dropConn fs which : Serve σ Node ε Bool) := by
  refine keeps_query.bind fun taken => ?_
  rcases taken with - | ⟨table, rest⟩
  · exact keeps_pure
  · exact bind (keeps_change fun _ => rfl) fun _ =>
      (quiet_dropFids table.fids).bind fun _ => keeps_pure

theorem quiet_dropConns (n : ℕ) :
    Quiet (dropConns fs which n : Serve σ Node ε Unit) := by
  induction n with
  | zero => exact keeps_pure
  | succ n ih => exact quiet_dropConn.bind fun dropped => .ite ih keeps_pure

/-! ### Answers -/

theorem quiet_arrived : Quiet (arrived caller : Serve σ Node NineError Unit) := by
  refine .ite keeps_pure (keeps_query.bind fun minter => ?_)
  cases minter with
  | none => exact keeps_pure
  | some minter =>
    exact keeps_query.bind fun _ => .ite quiet_settle
      (quiet_charge.bind fun _ => quiet_discharge.bind fun _ => quiet_settle)

theorem quiet_checkLabels {access : Access} :
    Quiet (checkLabels fs caller node access) :=
  keeps_query.bind fun _ => keeps_require

theorem quiet_checkOpen {isDir : Bool} : Quiet (checkOpen fs caller node mode isDir) :=
  keeps_require.bind fun _ => (when quiet_checkLabels).bind fun _ =>
    when quiet_checkLabels

theorem quiet_attached : Quiet (attached fs caller aname) :=
  .ite (keeps_query.bind fun _ => keeps_found) quiet_ask

theorem quiet_root : Quiet (root fs caller aname) :=
  quiet_attached.bind fun _ => quiet_checkLabels.bind fun _ => keeps_pure

theorem quiet_step {name : Text} : Quiet (step fs caller steps name) :=
  keeps_require.bind fun _ => quiet_checkLabels.bind fun _ => .ite keeps_pure
    (keeps_require.bind fun _ => keeps_require.bind fun _ =>
      quiet_needMemory.bind fun _ =>
      quiet_ask.bind fun _ => quiet_checkLabels.bind fun _ => keeps_pure)

theorem quiet_walkNames (names : List Text) (steps : Steps Node) (qids : List Qid) :
    Quiet (walkNames fs caller names steps qids :
      Serve σ Node ε (Except NineError (Steps Node) × List Qid)) := by
  induction names generalizing steps qids with
  | nil => exact keeps_pure
  | cons name rest ih =>
    refine quiet_step.attempt.bind fun stepped => ?_
    cases stepped with
    | error e => exact keeps_pure
    | ok steps => exact .ite (ih _ _) keeps_pure

theorem quiet_walk {names : List Text} : Quiet (walk fs caller name newfid names) := by
  refine keeps_query.bind fun key => quiet_fid.bind fun f => keeps_require.bind fun _ =>
    quiet_needMemory.bind fun _ => (when quiet_reserveFid).bind fun _ =>
    (quiet_walkNames _ _ _).bind fun walked => ?_
  rcases walked with ⟨e | steps, qids⟩
  · exact (when quiet_unreserve).bind fun _ => .ite keeps_fail keeps_pure
  · exact (ite quiet_insertFid quiet_fidMut).bind fun _ => keeps_pure

theorem quiet_attachFid : Quiet (attachFid fs caller name afid aname) := by
  refine keeps_require.bind fun _ => keeps_query.bind fun key =>
    keeps_query.bind fun conn =>
    quiet_reserveFid.bind fun _ =>
    (quiet_root.bind fun _ => quiet_needMemory.bind fun _ => keeps_pure).attempt.bind
    fun attached => ?_
  cases attached with
  | error e => exact quiet_unreserve.bind fun _ => keeps_fail
  | ok root => exact quiet_insertFid.bind fun _ => keeps_pure

theorem quiet_openFid : Quiet (openFid fs caller name mode) :=
  keeps_query.bind fun _ => quiet_fid.bind fun _ => keeps_require.bind fun _ =>
    quiet_checkOpen.bind fun _ => quiet_ask.bind fun _ =>
      quiet_fidMut.bind fun _ => keeps_pure

theorem quiet_createFid {entry : Text} {perm : UInt32} :
    Quiet (createFid fs caller name entry perm mode) :=
  keeps_query.bind fun _ => quiet_fid.bind fun _ => keeps_require.bind fun _ =>
    keeps_require.bind fun _ => keeps_require.bind fun _ => keeps_require.bind fun _ =>
    quiet_checkLabels.bind fun _ => keeps_require.bind fun _ =>
      quiet_needMemory.bind fun _ =>
    quiet_ask.bind fun _ => quiet_fidMut.bind fun _ => keeps_pure

theorem quiet_listDir {dir : Node} {count : ℕ} (left index : ℕ) (out : List UInt8) :
    Quiet (listDir fs caller dir count left index out) := by
  induction left generalizing index out with
  | zero => exact keeps_pure
  | succ left ih =>
    refine quiet_ask.bind fun entry => ?_
    rcases entry with - | ⟨entry, stat⟩
    · exact keeps_pure
    · refine keeps_query.bind fun _ => .ite ?_ (ih _ _)
      split
      · exact ih _ _
      · exact .ite keeps_fail keeps_pure

theorem quiet_read {asked : UInt32} :
    Quiet (read fs caller name offset asked room) := by
  refine keeps_query.bind fun key => quiet_fid.mapError.bind fun f =>
    keeps_require.bind fun _ =>
    keeps_require.bind fun _ => quiet_checkLabels.mapError.bind fun _ =>
    quiet_needMemory.mapError.bind fun _ => .ite ?_ ?_
  · refine quiet_ask.mapError.bind fun got => ?_
    cases got with
    | wait => exact keeps_fail
    | done n out => exact keeps_require.bind fun _ => keeps_pure
  · exact keeps_require.bind fun _ => (quiet_listDir _ _ _).mapError.bind fun _ =>
      quiet_fidMut.mapError.bind fun _ => keeps_pure

theorem quiet_write {data : List UInt8} : Quiet (write fs caller name offset data) := by
  refine keeps_query.bind fun key => quiet_fid.mapError.bind fun f =>
    keeps_require.bind fun _ =>
    keeps_require.bind fun _ => quiet_checkLabels.mapError.bind fun _ =>
    quiet_ask.mapError.bind fun got => ?_
  cases got with
  | wait => exact keeps_fail
  | done n => exact keeps_require.bind fun _ => keeps_pure

theorem quiet_clunkFid : Quiet (clunkFid fs caller name) :=
  keeps_query.bind fun _ => quiet_removeFid.bind fun _ => quiet_dropFid

theorem quiet_removeFile : Quiet (removeFile fs caller name) := by
  refine keeps_query.bind fun key => quiet_removeFid.bind fun removed =>
    (quiet_checkLabels.bind fun _ => quiet_ask).attempt.bind fun result =>
    quiet_dropFid.bind fun _ => ?_
  cases result with
  | error e => exact keeps_fail
  | ok _ => exact keeps_pure

theorem quiet_statFid : Quiet (statFid fs caller name) :=
  keeps_query.bind fun _ => quiet_fid.bind fun _ => quiet_checkLabels.bind fun _ =>
    quiet_ask

/-- Every request but a `Tversion`. -/
theorem quiet_answer {body : Body}
    (hversion : ∀ size asked, body ≠ .tversion size asked) :
    Quiet (answer fs caller body room) := by
  refine quiet_arrived.mapError.bind fun _ => ?_
  cases body with
  | tversion size asked => exact absurd rfl (hversion size asked)
  | tattach => exact quiet_attachFid.mapError.bind fun _ => keeps_pure
  | twalk => exact quiet_walk.mapError.bind fun _ => keeps_pure
  | topen => exact quiet_openFid.mapError.bind fun _ => keeps_pure
  | tcreate => exact quiet_createFid.mapError.bind fun _ => keeps_pure
  | tread => exact quiet_read.bind fun _ => keeps_pure
  | twrite => exact quiet_write.bind fun _ => keeps_pure
  | tclunk => exact quiet_clunkFid.mapError.bind fun _ => keeps_pure
  | tremove => exact quiet_removeFile.mapError.bind fun _ => keeps_pure
  | tstat => exact quiet_statFid.mapError.bind fun _ => keeps_pure
  | tflush => exact keeps_pure
  | _ => exact keeps_fail

theorem quiet_answerInto {request : List UInt8} {out : ℕ}
    (hversion : isVersion request = false) :
    Quiet (answerInto fs caller request out : Serve σ Node ε Answer) := by
  rw [isVersion] at hversion
  rw [answerInto]
  cases hdecode : Message.decode request with
  | none => exact keeps_pure
  | some message =>
    refine (quiet_answer fun size asked hbody => ?_).attempt.bind fun _ => keeps_pure
    rcases message with ⟨tag, body⟩
    subst hbody
    rw [hdecode] at hversion
    exact Bool.noConfusion hversion

end Serve

end Redoubt.Ninep
