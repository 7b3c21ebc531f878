import Redoubt.Ninep.Tags

/-!
# Requests keep the tags in order

What comes with a send, hostile or not: each request takes a free tag, or is refused, or
ends its session; a `Tflush` frees the tag it names.
-/

namespace Redoubt.Ninep

open Actions Action Admission Vectors History Serve List

/-! ### A change of one session -/

section Change

variable {m : Mux} {i : ℕ} {session : Session} {f : Session → Session} {tag : UInt16}
  {hole hole' : Option (ConnKey × UInt16)} {packed packed' : List (ConnKey × Reply)}
  {pending : List Pending} {history : List MuxEvent}

/-- The session at `i` changed with what is pending and the history, no tag in use that
was free. -/
theorem Orderly.modify (h : Orderly hole packed m) (hf : ∀ s, (f s).key = s.key)
    (hused : ∀ k t, (m.changeSession i f).Used k t → m.Used k t)
    (hagree : Agree hole' packed' (m.changeSession i f).Used
      (m.changeSession i f).Refused pending history) :
    Orderly hole' packed' { m.changeSession i f with
      pending := pending, history := history } where
  keys := Eq.mpr (congrArg _ (map_key_modify hf m.sessions i)) h.keys
  small := fun k t ht => h.small k t (hused k t ht)
  agree := hagree

/-- A change that leaves the tags alone. -/
theorem Orderly.same (h : Orderly hole packed m) (hkey : ∀ s, (f s).key = s.key)
    (htags : ∀ s, (f s).tags = s.tags) (hrefused : ∀ s, (f s).refused = s.refused) :
    Orderly hole packed (m.changeSession i f) := by
  cases hget : m.sessions[i]? with
  | none =>
    have hsame : m.changeSession i f = m := by
      rw [Mux.changeSession, modify_eq_self (List.getElem?_eq_none_iff.mp hget)]
    rwa [hsame]
  | some session =>
    have hu := used_same h.keys hget (hkey session) (htags session)
    refine h.modify hkey (fun k t ht => hu ▸ ht) ?_
    rw [hu, refused_same h.keys hget (hkey session) (hrefused session)]
    exact h.agree

/-- A free tag is marked in use. -/
theorem Orderly.reserve (h : Orderly none [] m) (hget : m.sessions[i]? = some session)
    (hfree : tag ∉ session.tags) (hsmall : tag.toNat < maxTags) :
    Orderly (some (session.key, tag)) []
      (m.changeSession i fun session =>
        { session with tags := insert tag session.tags }) := by
  have hused := exists_insert_iff h.keys hget Session.tags
    (f := fun session => { session with tags := insert tag session.tags }) rfl rfl
  have hkeys :=
    map_key_modify
      (f := fun session => { session with tags := insert tag session.tags })
    (fun _ => rfl) m.sessions i
  refine ⟨Eq.mpr (congrArg List.Nodup hkeys) h.keys, fun k t ht => ?_, ?_⟩
  · rcases (hused k t).mp ht with ht | ⟨-, rfl⟩
    · exact h.small k t ht
    · exact hsmall
  · rw [refused_same h.keys hget rfl rfl]
    exact h.agree.reserve (fun ht => hfree ((used_at h.keys hget).mp ht)) hused

/-- The request of a tag just marked is refused. -/
theorem Orderly.refuse {key : ConnKey} (h : Orderly (some (key, tag)) [] m)
    (hget : m.sessions[i]? = some session) (hkey : session.key = key)
    (request : List UInt8) :
    Orderly none []
      { m.changeSession i fun session =>
          { session with refused := insert tag session.refused } with
        history := m.history ++ [.taken key tag request false] } := by
  have hused := used_same h.keys hget
    (f := fun session => { session with refused := insert tag session.refused }) rfl rfl
  refine h.modify (fun _ => rfl) (fun k t ht => hused ▸ ht) ?_
  rw [hused]
  exact h.agree.refuse request
    (hkey ▸ exists_insert_iff h.keys hget Session.refused rfl rfl)

/-- A refused request's answer is packed. -/
theorem Orderly.pack_refused (h : Orderly hole packed m)
    (hget : m.sessions[i]? = some session)
    (hin : tag ∈ session.refused) (size : ℕ) :
    Orderly hole (packed ++ [(session.key, busyReply tag size)])
      (m.changeSession i fun session =>
      { session with
        tags := session.tags.erase tag, refused := session.refused.erase tag }) := by
  have hused := exists_erase_iff h.keys hget Session.tags
    (f := fun session => { session with
      tags := session.tags.erase tag, refused := session.refused.erase tag })
    rfl rfl
  refine h.modify (fun _ => rfl) (fun k t ht => ((hused k t).mp ht).1) ?_
  exact h.agree.pack_refused ((refused_at h.keys hget).mpr hin) size hused
    (exists_erase_iff h.keys hget Session.refused rfl rfl)

/-- A pending request's answer is packed. -/
theorem Orderly.pack {before after : List Pending} {p : Pending} {reply : Reply}
    (h : Orderly hole packed m) (hget : m.sessions[i]? = some session)
    (hpending : m.pending = before ++ p :: after) (hkey : p.key = session.key)
    (htag : reply.tag = p.tag) (hwhole : reply.Whole) :
    Orderly hole (packed ++ [(p.key, reply)])
      { m.changeSession i fun session =>
          { session with tags := session.tags.erase p.tag } with
        pending := before ++ after } := by
  have hused := exists_erase_iff h.keys hget Session.tags
    (f := fun session => { session with tags := session.tags.erase p.tag }) rfl rfl
  have hagree := h.agree
  rw [hpending] at hagree
  refine h.modify (fun _ => rfl) (fun k t ht => ((hused k t).mp ht).1) ?_
  rw [refused_same h.keys hget rfl rfl]
  exact hagree.pack htag hwhole (hkey ▸ hused)

/-- A request is flushed instead of answered. -/
theorem Orderly.flush {key : ConnKey} {size : ℕ}
    (h : Orderly hole [(key, busyReply tag size)] m) :
    Orderly hole [] { m with history := m.history ++ [.flushed key tag] } :=
  ⟨h.keys, h.small, h.agree.flush⟩

/-- Nothing is outstanding under a tag that is free. -/
theorem Orderly.free (h : Orderly hole [] m) {key : ConnKey}
    (hfree : ¬ m.Used key tag) :
    outstanding m.history key tag = none := by
  by_contra hout
  rcases h.agree.tracked key tag hout with hused | ⟨a, ha, -⟩
  · exact hfree hused
  · exact nomatch ha

end Change

namespace Serve

variable {σ Node : Type} {m : Mux} {i : ℕ} {session current : Session}
    {tag old : UInt16}
  {hole : Option (ConnKey × UInt16)} {inHand : Option ℕ}

theorem changeSession_spec {f : Session → Session} :
    Always (Is m) (changeSession i f : Serve σ Node Empty Unit) fun _ =>
      Is (m.changeSession i f) :=
  meets_change fun _ hs => congrArg (fun m : Mux => m.changeSession i f) hs

theorem setPending_spec {pending : List Pending} :
    Always (Is m) (setPending pending : Serve σ Node Empty Unit) fun _ =>
      Is { m with pending := pending } :=
  meets_change fun _ hs => congrArg (fun m : Mux => { m with pending := pending }) hs

/-! ### Flushes -/

/-- What a flush leaves: the sessions in order, and nothing outstanding under the
tag. -/
def Flushed (hole : Option (ConnKey × UInt16)) (i : ℕ) (key : ConnKey) (old : UInt16)
    (m : Mux) : Prop :=
  Orderly hole [] m ∧ m.At i key ∧ outstanding m.history key old = none

/-- The request a session has pending under a tag. -/
theorem find_pending {pending : List Pending} {key : ConnKey} {p : Pending}
    (hp : p ∈ pending)
    (hkey : p.key = key) (htag : p.tag = tag) :
    ∃ j before q after, (pending.findIdx? fun p => p.key = key ∧ p.tag = tag) = some j ∧
      pending[j]? = some q ∧ pending.eraseIdx j = before ++ after ∧
      pending = before ++ q :: after ∧
      q.key = key ∧ q.tag = tag := by
  cases hfind : pending.findIdx? fun p => p.key = key ∧ p.tag = tag with
  | none =>
    have hnone := findIdx?_eq_none_iff.mp hfind p hp
    exact absurd ⟨hkey, htag⟩ (of_decide_eq_false hnone)
  | some j =>
    obtain ⟨hj, hq, -⟩ := findIdx?_eq_some_iff_getElem.mp hfind
    refine ⟨j, pending.take j, pending[j], pending.drop (j + 1), rfl,
      getElem?_eq_getElem hj,
      eraseIdx_eq_take_drop_succ _ _, ?_, of_decide_eq_true hq⟩
    rw [getElem_cons_drop hj, take_append_drop]

theorem flush_spec (h : Orderly hole [] m) (hget : m.sessions[i]? = some current)
    (hkey : current.key = session.key) (htags : old ∈ session.tags ↔ old ∈ current.tags)
    (hrefused : current.refused = session.refused)
    (hhole : hole ≠ some (session.key, old)) :
    Always (Is m) (flush session i old inHand : Serve σ Node Empty Unit)
      fun _ s => Flushed hole i session.key old s.mux := by
  have hat : m.At i session.key := ⟨current, hget, hkey⟩
  have hnone (history : List MuxEvent) :
      outstanding (history ++ [.flushed session.key old]) session.key old = none := by
    rw [outstanding_flushed, if_pos ⟨rfl, rfl⟩]
  refine .ite (fun hfree => meets_pure fun s hs => ?_) fun hused => ?_
  · rw [hs]
    refine ⟨h, hat, h.free fun hin => ?_⟩
    rcases hfree with hlarge | hnot
    · exact absurd (h.small _ _ hin) (not_lt.mpr hlarge)
    · rw [← hkey, used_at h.keys hget] at hin
      exact hnot (htags.mpr hin)
  · rw [not_or, not_not, htags] at hused
    refine changeSession_spec.bind fun _ => record_spec.bind fun _ =>
      .ite (fun hin => ?_) fun hnot => ?_
    · refine Always.weaken changeSession_spec (fun _ hs => hs) fun _ s hs => ?_
      have horder := (h.pack_refused hget (hrefused ▸ hin) 0).flush
      rw [hkey] at horder
      rw [hs]
      refine ⟨?_, ?_, hnone _⟩
      · simpa only [Mux.changeSession, modify_modify_eq, Function.comp_def] using horder
      · exact hat.modify (modify_modify_eq ..) fun _ => rfl
    · have hin : ∃ p ∈ m.pending, p.key = session.key ∧ p.tag = old := by
        rcases h.agree.filled session.key old
          (hkey ▸ (used_at h.keys hget).mpr hused.2) with hr | hp | hh
        · rw [← hkey, refused_at h.keys hget, hrefused] at hr
          exact absurd hr hnot
        · exact hp
        · exact absurd hh hhole
      obtain ⟨p, hp, hpkey, hptag⟩ := hin
      obtain ⟨j, before, q, after, hfind, hq, herase, hpending, hqkey, rfl⟩ :=
        find_pending hp hpkey hptag
      refine .known (fun s hs => congrArg Mux.pending hs) ?_
      rw [show (m.changeSession i _).pending = m.pending from rfl, hfind]
      refine setPending_spec.bind fun _ => ?_
      rw [hq]
      refine Always.weaken (quiet_release.is _) (fun _ hs => hs) fun _ s hs => ?_
      have hwhole := whole_busyReply q.tag 0
      have horder :=
        (h.pack hget hpending (hqkey.trans hkey.symm) (Eq.refl (busyReply q.tag 0).tag)
          hwhole).flush
      rw [hqkey] at horder
      rw [hs, herase]
      exact ⟨horder, hat.modify rfl fun _ => rfl, hnone _⟩

/-! ### Requests -/

/-- The session of a request whose tag was just marked. -/
theorem getElem?_reserve (tag : UInt16) (hget : m.sessions[i]? = some session) :
    (m.changeSession i fun session =>
      { session with tags := insert tag session.tags }).sessions[i]? =
      some { session with tags := insert tag session.tags } := by
  rw [Mux.changeSession, getElem?_modify_eq, hget]
  rfl

theorem flushOld_spec {request : List UInt8}
    (h : Orderly (some (session.key, tag)) [] m)
    (hget : m.sessions[i]? = some { session with tags := insert tag session.tags }) :
    Always (Is m) (flushOld session i (flushes tag request) inHand :
      Serve σ Node Empty Unit) fun _ s =>
      Orderly (some (session.key, tag)) [] s.mux ∧
        ∀ old, flushes tag request = some old →
        outstanding s.mux.history session.key old = none := by
  cases hflush : flushes tag request with
  | none => exact meets_pure fun s hs => ⟨Eq.mpr (congrArg (Orderly _ []) hs) h, nofun⟩
  | some old =>
    have hne := flushes_ne hflush
    have htags : old ∈ session.tags ↔ old ∈ insert tag session.tags := by
      rw [Finset.mem_insert, or_iff_right hne.symm]
    have hhole : some (session.key, tag) ≠ some (session.key, old) :=
      fun heq => hne (congrArg Prod.snd (Option.some_injective _ heq))
    refine Always.weaken (flush_spec h hget rfl htags rfl hhole) (fun _ hs => hs)
      fun _ s hs => ?_
    refine ⟨hs.1, fun old' hold => ?_⟩
    rw [← Option.some_injective _ hold]
    exact hs.2.2

theorem keep_tidy {message : Stored} {paid : Bool} {now : ℕ} (h : Orderly none [] m)
    (hget : m.sessions[i]? = some session) (hfree : tag ∉ session.tags)
    (hsmall : tag.toNat < maxTags)
    (htagOf : tagOf message.bytes = some tag)
    (hversion : isVersion message.bytes = false) :
    Always (Is m) (keep session i tag message paid inHand now : Serve σ Node Empty Unit)
      fun _ => Tidy := by
  have hreserve := h.reserve hget hfree hsmall
  have hcurrent := getElem?_reserve tag hget
  refine changeSession_spec.bind fun _ => (quiet_tryReserve.is _).bind fun memory =>
    (Quiet.is (.ite quiet_charge.attempt keeps_pure) _).bind fun admitted => ?_
  cases admitted with
  | error e =>
    refine record_spec.bind fun _ => Always.weaken changeSession_spec (fun _ hs => hs)
      fun _ s hs => ?_
    rw [Tidy, hs]
    exact hreserve.refuse hcurrent rfl message.bytes
  | ok _ =>
    refine Meets.bind (flushOld_spec hreserve hcurrent) fun _ => ?_
    intro s ⟨horder, hflushed⟩
    exact ⟨horder.keys, horder.small,
      horder.agree.keep rfl rfl htagOf hversion hflushed⟩

theorem take_tidy {message : Stored} {paid : Bool} {now : ℕ} :
    Always Tidy (take i message paid inHand now : Serve σ Node Empty Bool) fun _ =>
      Tidy := by
  refine of_mux (Orderly none []) fun m h => ?_
  cases hget : m.sessions[i]? with
  | none =>
    refine .known (fun s hs => Is.session hs hget) ?_
    exact meets_pure fun s hs => Eq.mpr (congrArg (Orderly none []) hs) h
  | some session =>
    refine .known (fun s hs => Is.session hs hget) ?_
    refine .ite (fun _ => ?_) fun hgood => ?_
    · refine Meets.bind
        (Always.weaken endSession_tidy (fun s hs => ?_) fun _ _ hs => hs) fun _ =>
        meets_pure fun _ hs => hs
      exact Eq.mpr (congrArg (Orderly none []) hs) h
    · rw [not_or, not_or, not_le] at hgood
      obtain ⟨hsmall, hfree, hversion⟩ := hgood
      -- the tag of a message without one is too large
      have htagOf : tagOf message.bytes = some ((tagOf message.bytes).getD noTag) := by
        cases htag : tagOf message.bytes with
        | none =>
          rw [htag] at hsmall
          exact absurd hsmall (by decide)
        | some tag => rfl
      exact (keep_tidy h hget hfree hsmall htagOf (Bool.eq_false_iff.mpr hversion)).bind
        fun _ =>
        meets_pure fun _ hs => hs

theorem takeEach_tidy {transfer npages : ℕ} {paid : Bool} {now : ℕ}
    (messages : List (List UInt8)) :
    Always Tidy (takeEach i transfer npages paid now messages : Serve σ Node Empty Bool)
      fun _ => Tidy := by
  induction messages with
  | nil => exact meets_pure fun _ hs => hs
  | cons bytes rest ih =>
    exact take_tidy.bind fun alive => .ite (fun _ => ih) fun _ =>
      meets_pure fun _ hs => hs

theorem quiet_chargePages {holder : AdmitKey × ℕ} (n taken : ℕ) :
    Quiet (chargePages holder taken n : Serve σ Node Empty Bool) := by
  induction n generalizing taken with
  | zero => exact keeps_pure
  | succ n ih =>
    refine Keeps.bind quiet_charge.attempt fun charged => ?_
    cases charged with
    | ok _ => exact ih (taken + 1)
    | error e => exact (quiet_releasePages taken).bind fun _ => keeps_pure

theorem takePages_tidy {messages : List (List UInt8)} {npages : ℕ}
    {long : Bool} {now : ℕ} :
    Always Tidy (takePages i messages npages long now : Serve σ Node Empty Bool)
      fun _ => Tidy := by
  refine Meets.whatever fun found => ?_
  cases found with
  | none => exact meets_pure fun _ hs => hs
  | some session =>
    have hpay : Quiet (payPages session npages long : Serve σ Node Empty Bool) :=
      .ite (quiet_chargePages npages 0) keeps_pure
    refine Meets.whatever fun transfer =>
      Meets.bind (meets_change fun s hs => ?_) fun _ =>
      hpay.tidy.bind fun paid => (takeEach_tidy messages).bind fun alive =>
        Meets.whatever fun held =>
        Meets.bind (Quiet.tidy (Keeps.when (quiet_releasePages npages))) fun _ =>
          meets_pure fun _ hs => hs
    exact ⟨hs.keys, hs.small, hs.agree⟩

end Serve

end Redoubt.Ninep
