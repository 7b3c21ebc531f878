import Redoubt.Ninep.History

/-!
# Tags in use

What holds of the sessions, their requests and their history between any two steps of
the server: a session's tags in use are those of its pending requests and of the refused
ones not yet answered, and these are what the history has outstanding.  On the way, one
tag may be in use with nothing behind it yet (`hole`), and answers may be packed that
the history does not have (`packed`).
-/

namespace Redoubt.Ninep

open History Serve Vectors List Session

/-! ### One session among the others -/

section Sessions

variable {sessions : List Session} {i : ℕ} {session : Session} {f : Session → Session}
    {x : Session}

theorem eq_of_key {y : Session} (hkeys : (sessions.map key).Nodup) (hx : x ∈ sessions)
    (hy : y ∈ sessions) (hkey : x.key = y.key) : x = y :=
  inj_on_of_nodup_map hkeys hx hy hkey

/-- The session at `i` changed, the others as they were. -/
theorem mem_modify_session (hkeys : (sessions.map key).Nodup)
    (hget : sessions[i]? = some session) :
    x ∈ sessions.modify i f ↔ x = f session ∨ x ∈ sessions ∧ x.key ≠ session.key := by
  have hother : ∀ j y, sessions[j]? = some y → (y.key = session.key ↔ i = j) := by
    intro j y hy
    constructor
    · intro hkey
      rw [eq_of_key hkeys (mem_of_getElem? hy) (mem_of_getElem? hget) hkey] at hy
      exact (getElem?_inj (List.getElem?_eq_some_iff.mp hget).1 hkeys.of_map).mp
        (hget.trans hy.symm)
    · rintro rfl
      rw [Option.some.inj (hy.symm.trans hget)]
  simp only [mem_iff_getElem?, getElem?_modify, Option.map_eq_map]
  constructor
  · rintro ⟨j, hj⟩
    obtain ⟨y, hy, rfl⟩ := Option.map_eq_some_iff.mp hj
    by_cases hhere : i = j
    · rw [if_pos hhere, Option.some.inj (hget.symm.trans (hhere ▸ hy))]
      exact .inl rfl
    · rw [if_neg hhere]
      exact .inr ⟨⟨j, hy⟩, mt (hother j y hy).mp hhere⟩
  · rintro (rfl | ⟨⟨j, hy⟩, hkey⟩)
    · exact ⟨i, by rw [hget, Option.map_some, if_pos rfl]⟩
    · exact ⟨j, by rw [hy, Option.map_some, if_neg (mt (hother j x hy).mpr hkey)]⟩

theorem map_key_modify (hf : ∀ s, (f s).key = s.key) (sessions : List Session) (i : ℕ) :
    (sessions.modify i f).map key = sessions.map key := by
  apply ext_getElem?
  intro j
  rw [getElem?_map, getElem?_map, getElem?_modify, Option.map_eq_map, Option.map_map]
  congr 1
  funext s
  split
  · exact hf s
  · rfl

/-- The session at `i` taken out. -/
theorem mem_swapRemove_session (hkeys : (sessions.map key).Nodup)
    (hget : sessions[i]? = some session) :
    x ∈ swapRemove sessions i ↔ x ∈ sessions ∧ x.key ≠ session.key := by
  obtain ⟨hi, rfl⟩ := List.getElem?_eq_some_iff.mp hget
  have hperm := swapRemove_perm hi
  have hnodup : ((sessions[i] :: swapRemove sessions i).map key).Nodup :=
    (hperm.map _).nodup_iff.mpr hkeys
  rw [map_cons, nodup_cons] at hnodup
  rw [← hperm.mem_iff, mem_cons]
  constructor
  · intro hx
    exact ⟨.inr hx, fun heq => hnodup.1 (heq ▸ mem_map_of_mem hx)⟩
  · rintro ⟨rfl | hx, hkey⟩
    · exact absurd rfl hkey
    · exact hx

theorem nodup_swapRemove_session (hkeys : (sessions.map key).Nodup)
    (hi : i < sessions.length) :
    ((swapRemove sessions i).map key).Nodup := by
  have hnodup := ((swapRemove_perm hi).map key).nodup_iff.mpr hkeys
  rw [map_cons, nodup_cons] at hnodup
  exact hnodup.2

end Sessions

/-! ### The invariant -/

/-- Tags in use (`used`), tags refused and not yet answered, the pending requests and
the history agree. -/
structure Agree (hole : Option (ConnKey × UInt16)) (packed : List (ConnKey × Reply))
    (used refused : ConnKey → UInt16 → Prop) (pending : List Pending)
    (history : List MuxEvent) :
    Prop where
  chronicle : Chronicle InOrder history
  apart : pending.Pairwise fun p q => ¬ (p.key = q.key ∧ p.tag = q.tag)
  waits : ∀ p ∈ pending, used p.key p.tag ∧ ¬ refused p.key p.tag ∧
    hole ≠ some (p.key, p.tag)
  kept : ∀ p ∈ pending, ∃ n, outstanding history p.key p.tag =
    some ⟨n, p.message.bytes, true⟩
  request : ∀ p ∈ pending, tagOf p.message.bytes = some p.tag ∧
    isVersion p.message.bytes = false
  busied : ∀ key tag, refused key tag → used key tag ∧ hole ≠ some (key, tag) ∧
    ∃ n request, outstanding history key tag = some ⟨n, request, false⟩
  filled : ∀ key tag, used key tag → refused key tag ∨
    (∃ p ∈ pending, p.key = key ∧ p.tag = tag) ∨ hole = some (key, tag)
  open_hole : ∀ key tag, hole = some (key, tag) → used key tag ∧
    outstanding history key tag = none
  packed_free : ∀ a ∈ packed, ¬ used a.1 a.2.tag
  packed_open : ∀ a ∈ packed, (∃ x, outstanding history a.1 a.2.tag = some x ∧
    (x.kept = false → a.2.message = busy a.2.tag)) ∧ a.2.Whole
  packed_apart : packed.Pairwise fun a b => ¬ (a.1 = b.1 ∧ a.2.tag = b.2.tag)
  tracked : ∀ key tag, outstanding history key tag ≠ none →
    used key tag ∨ ∃ a ∈ packed, a.1 = key ∧ a.2.tag = tag

section Agree

variable {hole : Option (ConnKey × UInt16)} {packed : List (ConnKey × Reply)}
  {used refused used' refused' : ConnKey → UInt16 → Prop} {pending : List Pending}
  {history : List MuxEvent} {key : ConnKey} {tag : UInt16}

variable {p : Pending}

/-- No other pending request has a pending one's tag. -/
theorem apart_from {before after : List Pending} {q : Pending}
    (h : (before ++ p :: after).Pairwise fun p q => ¬ (p.key = q.key ∧ p.tag = q.tag))
    (hq : q ∈ before ++ after) : ¬ (p.key = q.key ∧ p.tag = q.tag) := by
  obtain ⟨-, hafter, hbefore⟩ := pairwise_append.mp h
  rcases mem_append.mp hq with hq | hq
  · exact fun heq => hbefore q hq p mem_cons_self ⟨heq.1.symm, heq.2.symm⟩
  · exact rel_of_pairwise_cons hafter hq

/-- A free tag is marked in use. -/
theorem Agree.reserve (h : Agree none [] used refused pending history)
    (hfree : ¬ used key tag)
    (hused : ∀ k t, used' k t ↔ used k t ∨ k = key ∧ t = tag) :
    Agree (some (key, tag)) [] used' refused pending history := { h with
  waits := by
    intro p hp
    have := h.waits p hp
    grind
  busied := by
    intro k t hr
    have := h.busied k t hr
    grind
  filled := by
    intro k t hu
    have := h.filled k t
    grind
  open_hole := by
    intro k t heq
    have := h.tracked k t
    grind
  packed_free := fun _ ha => absurd ha not_mem_nil
  tracked := by
    intro k t hout
    have := h.tracked k t hout
    grind }

/-- The request of a tag just marked is refused. -/
theorem Agree.refuse (h : Agree (some (key, tag)) [] used refused pending history)
    (request : List UInt8)
    (hrefused : ∀ k t, refused' k t ↔ refused k t ∨ k = key ∧ t = tag) :
    Agree none [] used refused' pending (history ++ [.taken key tag request false]) :=
  { h with
  chronicle := h.chronicle.snoc ⟨(h.open_hole key tag rfl).2, nofun⟩
  waits := by
    intro p hp
    have := h.waits p hp
    grind
  kept := by
    intro p hp
    have := h.kept p hp
    have := h.waits p hp
    grind [outstanding_taken]
  busied := by
    intro k t hr
    rw [outstanding_taken]
    by_cases hhere : k = key ∧ t = tag
    · obtain ⟨rfl, rfl⟩ := hhere
      exact ⟨(h.open_hole k t rfl).1, nofun, _, request, if_pos ⟨rfl, rfl⟩⟩
    · obtain ⟨hin, -, hout⟩ := h.busied k t (((hrefused k t).mp hr).resolve_right hhere)
      rw [if_neg hhere]
      exact ⟨hin, nofun, hout⟩
  filled := by
    intro k t hu
    have := h.filled k t hu
    grind
  open_hole := fun _ _ heq => by cases heq
  packed_open := fun _ ha => absurd ha not_mem_nil
  tracked := by
    intro k t hout
    have := h.tracked k t
    have := h.open_hole key tag rfl
    grind [outstanding_taken] }

/-- The request of a tag just marked is kept. -/
theorem Agree.keep (h : Agree (some (key, tag)) [] used refused pending history)
    (hkey : p.key = key) (htag : p.tag = tag)
    (htagOf : tagOf p.message.bytes = some tag)
    (hversion : isVersion p.message.bytes = false)
    (hflush : ∀ old, flushes tag p.message.bytes = some old →
      outstanding history key old = none) :
    Agree none [] used refused (pending ++ [p])
      (history ++ [.taken key tag p.message.bytes true]) where
  chronicle := h.chronicle.snoc ⟨(h.open_hole key tag rfl).2, fun _ => hflush⟩
  apart := by
    refine pairwise_append.mpr ⟨h.apart, pairwise_singleton _ _, fun q hq p' hp' => ?_⟩
    have := h.waits q hq
    grind
  waits := by
    intro q hq
    have := h.waits q
    have := h.busied key tag
    have := h.open_hole key tag rfl
    grind
  kept := by
    intro q hq
    rw [outstanding_taken]
    rcases mem_append.mp hq with hq | hq
    · have := h.kept q hq
      have := h.waits q hq
      grind
    · rw [mem_singleton.mp hq, if_pos ⟨hkey, htag⟩]
      exact ⟨_, rfl⟩
  request := by
    intro q hq
    have := h.request q
    grind
  busied := by
    intro k t hr
    have := h.busied k t hr
    grind [outstanding_taken]
  filled := by
    intro k t hu
    have := h.filled k t hu
    grind
  open_hole := fun _ _ heq => by cases heq
  packed_free := fun _ ha => absurd ha not_mem_nil
  packed_open := fun _ ha => absurd ha not_mem_nil
  packed_apart := .nil
  tracked := by
    intro k t hout
    have := h.tracked k t
    have := h.open_hole key tag rfl
    grind [outstanding_taken]

/-- Every request of a connection goes with its session, the answers packed for it
too. -/
theorem Agree.finish (h : Agree none packed used refused pending history)
    (hpacked : ∀ a ∈ packed, a.1 = key)
    (hused : ∀ k t, used' k t ↔ used k t ∧ k ≠ key)
    (hrefused : ∀ k t, refused' k t ↔ refused k t ∧ k ≠ key) :
    Agree none [] used' refused' (pending.filter fun p => p.key ≠ key)
      (history ++ [.ended key]) where
  chronicle := h.chronicle.snoc trivial
  apart := h.apart.filter _
  waits := by
    intro p hp
    have := h.waits p
    grind
  kept := by
    intro p hp
    have := h.kept p
    grind [outstanding_ended]
  request := by
    intro p hp
    have := h.request p
    grind
  busied := by
    intro k t hr
    have := h.busied k t
    grind [outstanding_ended]
  filled := by
    intro k t hu
    have := h.filled k t
    grind
  open_hole := fun _ _ heq => by cases heq
  packed_free := fun _ ha => absurd ha not_mem_nil
  packed_open := fun _ ha => absurd ha not_mem_nil
  packed_apart := .nil
  tracked := by
    intro k t hout
    have := h.tracked k t
    grind [outstanding_ended]

variable {a : ConnKey × Reply}

/-- A tag's answer is packed, and the tag is free again. -/
theorem Agree.answer (h : Agree hole packed used refused pending history)
    {pending' : List Pending} (hpending : pending'.Sublist pending)
    (hgone : ∀ p ∈ pending, p ∈ pending' ↔ ¬ (p.key = a.1 ∧ p.tag = a.2.tag))
    (hin : used a.1 a.2.tag) (hhole : hole ≠ some (a.1, a.2.tag))
    (hopen : (∃ x, outstanding history a.1 a.2.tag = some x ∧
      (x.kept = false → a.2.message = busy a.2.tag)) ∧ a.2.Whole)
    (hused : ∀ k t, used' k t ↔ used k t ∧ ¬ (k = a.1 ∧ t = a.2.tag))
    (hrefused : ∀ k t, refused' k t ↔ refused k t ∧ ¬ (k = a.1 ∧ t = a.2.tag)) :
    Agree hole (packed ++ [a]) used' refused' pending' history := { h with
  apart := h.apart.sublist hpending
  waits := by
    intro p hp
    have := h.waits p (hpending.subset hp)
    grind
  kept := fun p hp => h.kept p (hpending.subset hp)
  request := fun p hp => h.request p (hpending.subset hp)
  busied := by
    intro k t hr
    have := h.busied k t
    grind
  filled := by
    intro k t hu
    have := h.filled k t
    grind
  open_hole := by
    intro k t heq
    have := h.open_hole k t heq
    grind
  packed_free := by
    intro b hb
    have := h.packed_free b
    grind
  packed_open := by
    intro b hb
    rcases mem_append.mp hb with hb | hb
    · exact h.packed_open b hb
    · rw [mem_singleton.mp hb]
      exact hopen
  packed_apart := by
    refine pairwise_append.mpr ⟨h.packed_apart, pairwise_singleton _ _,
      fun b hb c hc => ?_⟩
    have := h.packed_free b hb
    grind
  tracked := by
    intro k t hout
    have := h.tracked k t hout
    grind }

/-- A refused request's answer is packed. -/
theorem Agree.pack_refused (h : Agree hole packed used refused pending history)
    (hin : refused key tag) (size : ℕ)
    (hused : ∀ k t, used' k t ↔ used k t ∧ ¬ (k = key ∧ t = tag))
    (hrefused : ∀ k t, refused' k t ↔ refused k t ∧ ¬ (k = key ∧ t = tag)) :
    Agree hole (packed ++ [(key, busyReply tag size)]) used' refused' pending
      history := by
  obtain ⟨hin', hhole, n, request, hout⟩ := h.busied key tag hin
  refine h.answer (Sublist.refl _) (fun p hp => ?_) hin' hhole
    ⟨⟨_, hout, fun _ => rfl⟩, whole_busyReply tag size⟩ hused hrefused
  have := h.waits p hp
  grind [Reply.tag, busyReply, busy]

/-- A pending request's answer is packed. -/
theorem Agree.pack {before after : List Pending} {reply : Reply}
    (h : Agree hole packed used refused (before ++ p :: after) history)
    (htag : reply.tag = p.tag)
    (hwhole : reply.Whole)
    (hused : ∀ k t, used' k t ↔ used k t ∧ ¬ (k = p.key ∧ t = p.tag)) :
    Agree hole (packed ++ [(p.key, reply)]) used' refused (before ++ after)
      history := by
  have hp : p ∈ before ++ p :: after := mem_append_right _ mem_cons_self
  obtain ⟨hin, hnot, hhole⟩ := h.waits p hp
  obtain ⟨n, hout⟩ := h.kept p hp
  rw [← htag] at hin hnot hhole hout hused
  refine h.answer (Sublist.append_left (sublist_cons_self _ _) _)
    (fun q hq => ?_) hin hhole
    ⟨⟨_, hout, nofun⟩, hwhole⟩ hused fun k t => ?_
  · have happart := fun hq => apart_from (q := q) h.apart hq
    grind
  · grind

/-- A pending request in its place again, asked once more. -/
theorem Agree.retry {before after : List Pending} {tried : Bool}
    (h : Agree none packed used refused (before ++ p :: after) history) :
    Agree none packed used refused (before ++ { p with tried := tried } :: after)
      history := { h with
  apart := by
    have happart := h.apart
    rw [pairwise_append, pairwise_cons] at happart ⊢
    grind
  waits := by
    intro q hq
    have := h.waits q
    have := h.waits p
    grind
  kept := by
    intro q hq
    rcases mem_append.mp hq with hq | hq
    · exact h.kept q (mem_append_left _ hq)
    · rcases mem_cons.mp hq with rfl | hq
      · exact h.kept p (mem_append_right _ mem_cons_self)
      · exact h.kept q (mem_append_right _ (mem_cons_of_mem _ hq))
  request := by
    intro q hq
    have := h.request q
    have := h.request p
    grind
  filled := by
    intro k t hu
    rcases h.filled k t hu with hr | ⟨q, hq, hat⟩ | hh
    · exact .inl hr
    · rcases mem_append.mp hq with hq | hq
      · exact .inr (.inl ⟨q, mem_append_left _ hq, hat⟩)
      · rcases mem_cons.mp hq with rfl | hq
        · exact .inr (.inl ⟨_, mem_append_right _ mem_cons_self, hat⟩)
        · exact .inr (.inl ⟨q, mem_append_right _ (mem_cons_of_mem _ hq), hat⟩)
    · exact nomatch hh
  open_hole := nofun }

/-- A packed answer leaves with an event that closes its request. -/
theorem Agree.settle (h : Agree hole (a :: packed) used refused pending history)
    {e : MuxEvent} (horder : InOrder history e)
    (hcloses : ∀ k t, outstanding (history ++ [e]) k t =
      if k = a.1 ∧ t = a.2.tag then none else outstanding history k t) :
    Agree hole packed used refused pending (history ++ [e]) := { h with
  chronicle := h.chronicle.snoc horder
  kept := by
    intro p hp
    have := h.kept p hp
    have := h.waits p hp
    have := h.packed_free a mem_cons_self
    grind
  busied := by
    intro k t hr
    have := h.busied k t hr
    have := h.packed_free a mem_cons_self
    grind
  open_hole := by
    intro k t heq
    have := h.open_hole k t heq
    grind
  packed_free := fun b hb => h.packed_free b (mem_cons_of_mem _ hb)
  packed_open := by
    intro b hb
    have := h.packed_open b (mem_cons_of_mem _ hb)
    have := rel_of_pairwise_cons h.packed_apart hb
    grind
  packed_apart := h.packed_apart.of_cons
  tracked := by
    intro k t hout
    have := h.tracked k t
    grind }

/-- A packed answer is delivered. -/
theorem Agree.deliver (h : Agree none (a :: packed) used refused pending history) :
    Agree none packed used refused pending (history ++ [.answered a.1 a.2]) :=
  h.settle (h.packed_open a mem_cons_self) fun k t => by
    rw [outstanding_snoc]
    rfl

/-- A request is flushed instead. -/
theorem Agree.flush {size : ℕ}
    (h : Agree hole [(key, busyReply tag size)] used refused pending history) :
    Agree hole [] used refused pending (history ++ [.flushed key tag]) := by
  refine h.settle (fun hnone => ?_) (outstanding_flushed history)
  obtain ⟨⟨x, hx, -⟩, -⟩ := h.packed_open _ mem_cons_self
  exact nomatch hnone.symm.trans hx

end Agree

/-! ### The sessions' tags -/

namespace Mux

variable (m : Mux)

def Used (key : ConnKey) (tag : UInt16) : Prop :=
  ∃ session ∈ m.sessions, session.key = key ∧ tag ∈ session.tags

def Refused (key : ConnKey) (tag : UInt16) : Prop :=
  ∃ session ∈ m.sessions, session.key = key ∧ tag ∈ session.refused

def changeSession (i : ℕ) (f : Session → Session) : Mux :=
  { m with sessions := m.sessions.modify i f }

/-- The session at `i` is the connection's. -/
def At (i : ℕ) (key : ConnKey) : Prop := ∃ session, m.sessions[i]? = some session ∧
    session.key = key

end Mux

/-- The sessions, their requests and their history agree. -/
structure Orderly (hole : Option (ConnKey × UInt16)) (packed : List (ConnKey × Reply))
    (m : Mux) :
    Prop where
  keys : (m.sessions.map key).Nodup
  small : ∀ key tag, m.Used key tag → tag.toNat < maxTags
  agree : Agree hole packed m.Used m.Refused m.pending m.history

section Change

variable {m : Mux} {i : ℕ} {session : Session} {f : Session → Session} {key : ConnKey}
    {tag : UInt16}
  {hole : Option (ConnKey × UInt16)} {packed : List (ConnKey × Reply)}

theorem Mux.At.modify {m' : Mux} (hat : m.At i key)
    (hsessions : m'.sessions = m.sessions.modify i f)
    (hf : ∀ s, (f s).key = s.key) : m'.At i key := by
  obtain ⟨session, hget, hkey⟩ := hat
  refine ⟨f session, ?_, (hf session).trans hkey⟩
  rw [hsessions, getElem?_modify_eq, hget]
  rfl

section

variable (hkeys : (m.sessions.map Session.key).Nodup)
    (hget : m.sessions[i]? = some session)
include hkeys hget

/-- A set of tags of each session, after the change. -/
theorem exists_modify_iff (hf : (f session).key = session.key)
    (tags : Session → Finset UInt16) :
    (∃ s ∈ m.sessions.modify i f, s.key = key ∧ tag ∈ tags s) ↔
      key = session.key ∧ tag ∈ tags (f session) ∨
        key ≠ session.key ∧ ∃ s ∈ m.sessions, s.key = key ∧ tag ∈ tags s := by
  simp only [mem_modify_session hkeys hget]
  constructor
  · rintro ⟨s, rfl | ⟨hs, hne⟩, rfl, htag⟩
    · exact .inl ⟨hf, htag⟩
    · exact .inr ⟨hne, s, hs, rfl, htag⟩
  · rintro (⟨rfl, htag⟩ | ⟨hne, s, hs, rfl, htag⟩)
    · exact ⟨_, .inl rfl, hf, htag⟩
    · exact ⟨s, .inr ⟨hs, hne⟩, rfl, htag⟩

variable (tags : Session → Finset UInt16)

theorem exists_at_iff :
    (∃ s ∈ m.sessions, s.key = session.key ∧ tag ∈ tags s) ↔ tag ∈ tags session := by
  have hin := mem_of_getElem? hget
  constructor
  · rintro ⟨s, hs, hkey, htag⟩
    rwa [eq_of_key hkeys hs hin hkey] at htag
  · exact fun htag => ⟨session, hin, rfl, htag⟩

theorem used_at : m.Used session.key tag ↔ tag ∈ session.tags :=
  exists_at_iff hkeys hget Session.tags

theorem refused_at : m.Refused session.key tag ↔ tag ∈ session.refused :=
  exists_at_iff hkeys hget Session.refused

variable (hf : (f session).key = session.key)
include hf

/-- Tags taken away from a session's set. -/
theorem exists_erase_iff
    (herase : tags (f session) = (tags session).erase tag) (k : ConnKey) (t : UInt16) :
    (∃ s ∈ m.sessions.modify i f, s.key = k ∧ t ∈ tags s) ↔
      (∃ s ∈ m.sessions, s.key = k ∧ t ∈ tags s) ∧ ¬ (k = session.key ∧ t = tag) := by
  rw [exists_modify_iff hkeys hget hf, herase, Finset.mem_erase]
  by_cases hkey : k = session.key
  · subst hkey
    rw [exists_at_iff hkeys hget]
    tauto
  · tauto

/-- A tag added to it. -/
theorem exists_insert_iff
    (hinsert : tags (f session) = insert tag (tags session)) (k : ConnKey)
    (t : UInt16) :
    (∃ s ∈ m.sessions.modify i f, s.key = k ∧ t ∈ tags s) ↔
      (∃ s ∈ m.sessions, s.key = k ∧ t ∈ tags s) ∨ k = session.key ∧ t = tag := by
  rw [exists_modify_iff hkeys hget hf, hinsert, Finset.mem_insert]
  by_cases hkey : k = session.key
  · subst hkey
    rw [exists_at_iff hkeys hget]
    tauto
  · simp [hkey]

/-- Neither taken away nor added. -/
theorem exists_same_iff (hsame : tags (f session) = tags session) (k : ConnKey)
    (t : UInt16) :
    (∃ s ∈ m.sessions.modify i f, s.key = k ∧ t ∈ tags s) ↔ ∃ s ∈ m.sessions,
    s.key = k ∧ t ∈ tags s := by
  rw [exists_modify_iff hkeys hget hf, hsame]
  by_cases hkey : k = session.key
  · subst hkey
    rw [exists_at_iff hkeys hget]
    tauto
  · tauto

theorem used_same (hsame : (f session).tags = session.tags) :
    (m.changeSession i f).Used = m.Used := by
  funext k t
  exact propext (exists_same_iff hkeys hget Session.tags hf hsame k t)

theorem refused_same
    (hsame : (f session).refused = session.refused) :
    (m.changeSession i f).Refused = m.Refused := by
  funext k t
  exact propext (exists_same_iff hkeys hget Session.refused hf hsame k t)

end

/-- A session's end. -/
theorem Orderly.finish (h : Orderly none packed m)
    (hget : m.sessions[i]? = some session)
    (hpacked : ∀ a ∈ packed, a.1 = session.key) :
    Orderly none [] { m with
      sessions := swapRemove m.sessions i
      pending := m.pending.filter fun p => p.key ≠ session.key
      history := m.history ++ [.ended session.key] } where
  keys := nodup_swapRemove_session h.keys (List.getElem?_eq_some_iff.mp hget).1
  small := by
    rintro k t ⟨s, hs, hat⟩
    exact h.small k t ⟨s, ((mem_swapRemove_session h.keys hget).mp hs).1, hat⟩
  agree := by
    refine h.agree.finish hpacked (fun k t => ?_) fun k t => ?_
    all_goals
      simp only [Mux.Used, Mux.Refused, mem_swapRemove_session h.keys hget]
      constructor
      · rintro ⟨s, ⟨hs, hne⟩, rfl, ht⟩
        exact ⟨⟨s, hs, rfl, ht⟩, hne⟩
      · rintro ⟨⟨s, hs, rfl, ht⟩, hne⟩
        exact ⟨s, ⟨hs, hne⟩, rfl, ht⟩

end Change

end Redoubt.Ninep
