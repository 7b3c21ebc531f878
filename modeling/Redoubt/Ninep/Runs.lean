import Redoubt.Ninep.Replies

/-!
# Runs of a 9P server

Whatever comes, in any order, the tag protocol holds of every session, and a read is
given the data it would be given alone.
-/

namespace Redoubt.Ninep

open Actions Action Admission History Serve List NineServer

variable {σ Node : Type}

/-- What comes to the server: calls, sends, and what its own loop and file server do. -/
inductive Event (σ Node : Type)
  | call (caller : Caller) (request : List UInt8) (lend : ℕ)
  | common (caller : Caller) (message : Option Common) (fits : Bool)
  | typed (caller : Caller) (own : σ → σ)
  | collect (caller : Caller) (id hold lend : ℕ)
  | openSession (caller : Caller) (now : ℕ)
  | send (width : ℕ) (d : Delivery) (now : ℕ)
  | collectInto (caller : Caller) (lend now : ℕ)
  | abandoned (id : ℕ)
  | expire (now : ℕ)
  | wake (now : ℕ)
  | requestsWait (longest : ℕ)
  | mintRooted (caller : Caller) (newRoot : Node × Qid)
  | unmint (badge : ℕ)

namespace Serve

variable (fs : FileServer σ Node)

/-- A request of the server's own protocol, served if its caller has room for it. -/
def typed (caller : Caller) (own : σ → σ) : Serve σ Node NineError Unit := do
  arrived caller
  tell own

def requestsWait (longest : ℕ) : Serve σ Node Empty Unit :=
  change fun s => { s with mux.wait := longest }

/-- What the server does with an event, as far as its own state goes. -/
def handle : Event σ Node → Serve σ Node Empty Unit
  | .call caller request lend => do
      let _ ← answerInto fs caller request lend
      let _ ← finish
  | .common caller message fits => do let _ ← serveCommon fs caller message fits
  | .typed caller own => do let _ ← attempt (typed caller own)
  | .collect caller id hold lend => collect fs caller id hold lend
  | .openSession caller now => do let _ ← openSession caller now
  | .send width d now => deliver fs width d now
  | .collectInto caller lend now => collectInto fs caller lend now
  | .abandoned id => abandoned id
  | .expire now => expire fs now
  | .wake now => wake fs now
  | .requestsWait longest => requestsWait longest
  | .mintRooted caller newRoot => do let _ ← attempt (mintRooted fs caller newRoot)
  | .unmint badge => forget fs badge

end Serve

/-- A server that has served nothing yet. -/
def NineServer.new (files : σ) (admission : Admission) (random : ℕ)
    (outside : Outside) : NineServer σ Node :=
  { fs := files, conns := [], minted := Minted.new random, admission := admission,
    mux := Mux.new
    outside := outside }

def NineServer.run (fs : FileServer σ Node) : List (Event σ Node) → NineServer σ Node →
    NineServer σ Node
  | [], s => s
  | e :: rest, s => run fs rest (handle fs e s).2

variable {fs : FileServer σ Node}

theorem handle_tidy (fs : FileServer σ Node) (e : Event σ Node) :
    Always Tidy (handle fs e) fun _ => Tidy := by
  cases e with
  | call caller request lend =>
    exact answerInto_tidy.bind fun _ => quiet_finish.tidy.bind fun _ =>
      meets_pure fun _ hs => hs
  | common caller message fits =>
    exact serveCommon_tidy.bind fun _ => meets_pure fun _ hs => hs
  | typed caller own =>
    have htyped : Quiet (typed caller own : Serve σ Node NineError Unit) :=
      quiet_arrived.bind fun _ => quiet_tell
    exact Meets.bind (Quiet.tidy (Keeps.attempt htyped)) fun _ =>
      meets_pure fun _ hs => hs
  | collect caller id hold lend => exact collect_tidy
  | openSession caller now =>
    exact openSession_tidy.bind fun _ => meets_pure fun _ hs => hs
  | send width d now => exact deliver_tidy
  | collectInto caller lend now => exact collectInto_tidy
  | abandoned id => exact abandoned_tidy
  | expire now => exact expire_tidy
  | wake now => exact wake_tidy
  | requestsWait longest => exact meets_change fun s hs => ⟨hs.keys, hs.small, hs.agree⟩
  | mintRooted caller newRoot =>
    exact Meets.bind (Quiet.tidy (Keeps.attempt (quiet_charged fun _ => quiet_mintAt)))
      fun _ => meets_pure fun _ hs => hs
  | unmint badge => exact forget_tidy

/-- Nothing is outstanding at first. -/
theorem orderly_new : Orderly none [] Mux.new where
  keys := nodup_nil
  small := nofun
  agree := {
    chronicle := chronicle_nil
    apart := .nil
    waits := nofun
    kept := nofun
    request := nofun
    busied := nofun
    filled := nofun
    open_hole := nofun
    packed_free := fun _ ha => absurd ha not_mem_nil
    packed_open := fun _ ha => absurd ha not_mem_nil
    packed_apart := .nil
    tracked := fun _ _ hout => absurd rfl hout }

variable {s : NineServer σ Node}

theorem run_tidy (fs : FileServer σ Node) (events : List (Event σ Node)) (hs : Tidy s) :
    Tidy (run fs events s) := by
  induction events generalizing s with
  | nil => exact hs
  | cons e rest ih => exact ih ((handle_tidy fs e).state hs)

/-! ### The tag protocol -/

/-- The tags of a connection's pending requests. -/
def pendingTags (m : Mux) (key : ConnKey) : List UInt16 :=
  (m.pending.filter fun p => p.key = key).map Pending.tag

/-- What holds of every session and its history. -/
structure TagProtocol (m : Mux) : Prop where
  /-- The tags in use are those pending and those refused and not yet answered. -/
  tags : ∀ session ∈ m.sessions,
    session.tags = (pendingTags m session.key).toFinset ∪ session.refused
  disjoint : ∀ session ∈ m.sessions,
    Disjoint (pendingTags m session.key).toFinset session.refused
  /-- No two of them share a tag. -/
  nodup : ∀ key, (pendingTags m key).Nodup
  /-- A request taken is in use until one event closes it, and what is answered under
  its tag after that was taken after it. -/
  once : ∀ past key tag request kept future,
    m.history = past ++ .taken key tag request kept :: future →
    ((∃ session ∈ m.sessions, session.key = key ∧ tag ∈ session.tags) ∧
        ∀ e ∈ future, Closes key tag e = false) ∨
      ∃ mid e rest, future = mid ++ e :: rest ∧
        (∀ e' ∈ mid, Closes key tag e' = false) ∧ Closes key tag e = true ∧
        ∀ mid' reply rest', rest = mid' ++ .answered key reply :: rest' →
          reply.tag = tag → ∃ request' kept', .taken key tag request' kept' ∈ mid'
  /-- An answer is to a request taken under its tag and open until then. -/
  answers : ∀ past key reply future, m.history = past ++ .answered key reply :: future →
    ∃ before request kept between,
      past = before ++ .taken key reply.tag request kept :: between ∧
      ∀ e ∈ between, Closes key reply.tag e = false
  /-- Answers in one completion call shorten no read: its data is what it would be given
  alone in the lend. -/
  whole : ∀ key reply, .answered key reply ∈ m.history → reply.Whole
  /-- After the `Rflush` of a tag, an answer under it is to a request taken after the
  `Tflush`. -/
  flushes : ∀ before key flush request kept between mid reply rest,
    m.history = before ++ .taken key flush.tag request kept ::
      (between ++ .answered key flush :: (mid ++ .answered key reply :: rest)) →
    (∀ e ∈ between, Closes key flush.tag e = false) → flush.message.body = .rflush →
    flushes flush.tag request = some reply.tag →
    ∃ request' kept', .taken key reply.tag request' kept' ∈
      between ++ .answered key flush :: mid

theorem mem_pendingTags {m : Mux} {key : ConnKey} {tag : UInt16} :
    tag ∈ pendingTags m key ↔ ∃ p ∈ m.pending, p.key = key ∧ p.tag = tag := by
  simp only [pendingTags, mem_map, mem_filter, decide_eq_true_eq, and_assoc]

theorem Orderly.protocol {m : Mux} (h : Orderly none [] m) : TagProtocol m where
  tags := by
    intro session hin
    obtain ⟨i, hget⟩ := mem_iff_getElem?.mp hin
    ext tag
    rw [Finset.mem_union, mem_toFinset, mem_pendingTags, ← used_at h.keys hget,
      ← refused_at h.keys hget]
    constructor
    · intro hused
      rcases h.agree.filled session.key tag hused with hrefused | hpending | hhole
      · exact .inr hrefused
      · exact .inl hpending
      · exact nomatch hhole
    · rintro (⟨p, hp, hkey, rfl⟩ | hrefused)
      · exact hkey ▸ (h.agree.waits p hp).1
      · exact (h.agree.busied _ _ hrefused).1
  disjoint := by
    intro session hin
    obtain ⟨i, hget⟩ := mem_iff_getElem?.mp hin
    refine Finset.disjoint_left.mpr fun tag hpending hrefused => ?_
    rw [mem_toFinset, mem_pendingTags] at hpending
    obtain ⟨p, hp, hkey, rfl⟩ := hpending
    rw [← refused_at h.keys hget, ← hkey] at hrefused
    exact (h.agree.waits p hp).2.1 hrefused
  nodup := by
    intro key
    refine pairwise_map.mpr (pairwise_filter.mpr (h.agree.apart.imp ?_))
    intro p q hapart hp hq htag
    exact hapart ⟨(of_decide_eq_true hp).trans (of_decide_eq_true hq).symm, htag⟩
  once := by
    intro past key tag request kept future hhistory
    rcases closed_once h.agree.chronicle hhistory with ⟨hout, hopen⟩ | hclosed
    · refine .inl ⟨?_, hopen⟩
      rcases h.agree.tracked key tag (fun hnone => nomatch hnone.symm.trans hout) with
        hused | ⟨a, ha, -⟩
      · exact hused
      · exact nomatch ha
    · exact .inr hclosed
  answers := fun past key reply future => answers_taken h.agree.chronicle
  whole := by
    intro key reply hmem
    obtain ⟨past, future, hhistory⟩ := append_of_mem hmem
    exact (h.agree.chronicle past _ future hhistory).2
  flushes := fun _ _ _ _ _ _ _ _ _ hhistory hopen hbody hold =>
    answered_after_flush h.agree.chronicle hhistory hopen hbody hold

/-- The multiplexed tag protocol, in every run. -/
theorem tag_protocol (fs : FileServer σ Node) (files : σ) (admission : Admission)
    (random : ℕ) (outside : Outside)
    (events : List (Event σ Node)) :
    TagProtocol (run fs events (new files admission random outside)).mux :=
  (run_tidy fs events (s := new files admission random outside) orderly_new).protocol

end Redoubt.Ninep
