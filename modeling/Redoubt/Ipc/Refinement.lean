import Redoubt.Ipc.Simulation

/-!
# The next message and the audit

What a receiver takes next is what the reference queue says, and the audit
passes with as many members as there are messages queued.
-/

namespace Redoubt.Ipclist

open IpcList List Ipclist World

variable {γ : Type*} [DecidableEq γ]

/-! ## The scan of the reference queue -/

namespace Reference

variable {calls : Bool}

/-- Once the least due is met, the scan keeps it. -/
theorem pickFrom_keeps {rest : List (Message γ)} {seen : List γ} {due t : ℕ}
    (hleast : ∀ m ∈ rest, (calls ∨ m.send) → m.group ∉ seen → due < m.due) :
    pickFrom calls rest seen (some (due, t)) = some (due, t) := by
  induction rest generalizing seen with
  | nil => rfl
  | cons m rest ih =>
    rw [pickFrom]
    split
    · exact ih fun m' hm' => hleast m' (mem_cons_of_mem _ hm')
    · next htake =>
        rw [not_or, not_not] at htake
        have hlt := hleast m mem_cons_self htake.2 htake.1
        have hworse : ¬ better m (some (due, t)) := by
          simpa [better] using le_of_lt hlt
        rw [if_neg hworse]
        apply ih
        intro m' hm' htakeable hseen
        apply hleast m' (mem_cons_of_mem _ hm') htakeable
        exact fun hmem => hseen (mem_append_left _ hmem)

/-- The scan comes to a message that is the first takeable one of its group and
due before those of every other group. -/
theorem pickFrom_reaches {front back : List (Message γ)} {seen : List γ}
    {m : Message γ} {best : Option (ℕ × ℕ)} (htakeable : calls ∨ m.send)
    (hseen : m.group ∉ seen)
    (hfirst : ∀ m' ∈ front, (calls ∨ m'.send) → m'.group ≠ m.group)
    (hleast : ∀ m' ∈ front ++ back, (calls ∨ m'.send) → m'.group ≠ m.group →
      m.due < m'.due)
    (hbest : ∀ due t, best = some (due, t) → m.due < due) :
    pickFrom calls (front ++ m :: back) seen best = some (m.due, m.thread) := by
  induction front generalizing seen best with
  | nil =>
    rw [nil_append, pickFrom, if_neg (by simp [hseen, htakeable])]
    have hbetter : better m best := by
      cases best with
      | none => rfl
      | some pair => exact decide_eq_true (hbest pair.1 pair.2 rfl)
    rw [if_pos hbetter]
    apply pickFrom_keeps
    intro m' hm' htake hgroup
    apply hleast m' hm' htake
    exact fun heq => hgroup (by simp [heq])
  | cons head rest ih =>
    have hrest : ∀ m' ∈ rest, (calls ∨ m'.send) → m'.group ≠ m.group :=
      fun m' hm' => hfirst m' (mem_cons_of_mem _ hm')
    have hrestLeast : ∀ m' ∈ rest ++ back, (calls ∨ m'.send) →
        m'.group ≠ m.group → m.due < m'.due :=
      fun m' hm' => hleast m' (mem_cons_of_mem _ hm')
    rw [cons_append, pickFrom]
    split
    · exact ih hseen hrest hrestLeast hbest
    · next htake =>
        rw [not_or, not_not] at htake
        have hne := hfirst head mem_cons_self htake.2
        apply ih ?_ hrest hrestLeast
        · intro due t hsome
          split at hsome
          · obtain ⟨rfl, rfl⟩ := Prod.mk.inj (Option.some.inj hsome)
            exact hleast head mem_cons_self htake.2 hne
          · exact hbest due t hsome
        · simp only [mem_append, mem_singleton, not_or]
          exact ⟨hseen, hne.symm⟩

theorem pick_eq {queue : List (Message γ)} {m : Message γ} (hm : m ∈ queue)
    (htakeable : calls ∨ m.send)
    (hfirst : ∀ front back, queue = front ++ m :: back → ∀ m' ∈ front,
      (calls ∨ m'.send) → m'.group ≠ m.group)
    (hleast : ∀ m' ∈ queue, (calls ∨ m'.send) → m'.group ≠ m.group → m.due < m'.due) :
    pick queue calls = m.thread := by
  obtain ⟨front, back, rfl⟩ := append_of_mem hm
  rw [pick, pickFrom_reaches htakeable not_mem_nil (hfirst front back rfl)]
  · intro m' hm'
    apply hleast m'
    simp only [mem_append] at hm' ⊢
    tauto
  · exact fun due t h => by cases h

theorem pick_eq_zero {queue : List (Message γ)}
    (hnone : ∀ m ∈ queue, ¬ (calls ∨ m.send)) : pick queue calls = 0 := by
  have hscan : ∀ rest : List (Message γ), (∀ m ∈ rest, ¬ (calls ∨ m.send)) →
      pickFrom calls rest [] none = none := by
    intro rest
    induction rest with
    | nil => exact fun _ => rfl
    | cons m rest ih =>
      intro hrest
      rw [pickFrom, if_pos (.inr (hrest m mem_cons_self))]
      exact ih fun m' hm' => hrest m' (mem_cons_of_mem _ hm')
  rw [pick, hscan queue hnone]

end Reference

/-! ## The next message -/

namespace World

variable {world : World γ} {shape : Shape} {e : ℕ}

omit [DecidableEq γ] in
/-- Two messages are in one group exactly when one node holds them. -/
theorem Matches.group_eq_iff (h : world.Matches shape)
    (hvalid : shape.Valid world.counter) {m m' : Message γ} {node node' : ℕ}
    (hm : m ∈ world.queue) (hm' : m' ∈ world.queue)
    (hchain : m.thread ∈ shape.chain node m.send)
    (hchain' : m'.thread ∈ shape.chain node' m'.send) :
    m.group = m'.group ↔ node = node' := by
  have hlabel : ∀ {m : Message γ} {node : ℕ}, m ∈ world.queue →
      m.thread ∈ shape.chain node m.send → world.group node = some m.group := by
    intro m node hm hchain
    obtain ⟨n, hmem, -, hgroup⟩ := h.here m hm
    obtain ⟨rfl, -⟩ := hvalid.apart n m.send m.thread hmem node m.send hchain
    exact hgroup
  constructor
  · intro heq
    apply h.apart node (hvalid.mem_nodes hchain) node' (hvalid.mem_nodes hchain')
    rw [hlabel hm hchain, hlabel hm' hchain', heq]
  · rintro rfl
    exact Option.some.inj ((hlabel hm hchain).symm.trans (hlabel hm' hchain'))

omit [DecidableEq γ] in
/-- The message of a queued thread. -/
theorem Matches.message (h : world.Matches shape)
    (hvalid : shape.Valid world.counter) {node t : ℕ} {send : Bool}
    (ht : t ∈ shape.chain node send) :
    ∃ m ∈ world.queue, m.thread = t ∧ m.send = send ∧
      m.due = max (shape.seq t) (shape.taken node) := by
  obtain ⟨m, hm, rfl⟩ := h.all t ⟨node, send, ht⟩
  obtain ⟨n, hmem, hdue, -⟩ := h.here m hm
  obtain ⟨rfl, hsend⟩ := hvalid.apart node send m.thread ht n m.send hmem
  exact ⟨m, hm, rfl, hsend, hdue⟩

omit [DecidableEq γ] in
theorem Matches.before (h : world.Matches shape) {front back : List (Message γ)}
    {m m' : Message γ} (hqueue : world.queue = front ++ m :: back)
    (hm' : m' ∈ front) : shape.seq m'.thread < shape.seq m.thread := by
  have harrivals := h.arrivals
  rw [hqueue] at harrivals
  exact (pairwise_append.mp harrivals).2.2 m' hm' m mem_cons_self

variable (h : world.Matches shape) (hrepresents : Represents world.words e shape)
    (hvalid : shape.Valid world.counter)

include h hrepresents hvalid

omit [DecidableEq γ] in
/-- A receiver that may take calls takes the first message of a group, due before
every other group's messages. -/
theorem Matches.pick_due (hqueue : world.queue ≠ []) :
    ∃ m ∈ world.queue, m.thread = pick world.words e true ∧
      (∀ front back, world.queue = front ++ m :: back → ∀ m' ∈ front,
        m'.group ≠ m.group) ∧
      ∀ m' ∈ world.queue, m'.group ≠ m.group → m.due < m'.due := by
  have hfirst := hrepresents.groups.first
  cases hnodes : shape.nodes with
  | nil =>
    obtain ⟨m, hm⟩ := exists_mem_of_ne_nil _ hqueue
    obtain ⟨node, hchain, -, -⟩ := h.here m hm
    have hnode := hvalid.mem_nodes hchain
    rw [hnodes] at hnode
    exact absurd hnode not_mem_nil
  | cons node rest =>
    have hnode : node ∈ shape.nodes := by simp [hnodes]
    have hpick : pick world.words e true = node := by
      have holdest := hrepresents.oldest_node hvalid.toSound hvalid.toHomed hnode
      have hpositive := hrepresents.groups.ne_zero hnode
      rw [hnodes, headD_cons] at hfirst
      simp [pick, hfirst, hpositive, holdest]
    obtain ⟨send, hself⟩ := hvalid.home node hnode
    obtain ⟨m, hm, hthread, hsend, hdue⟩ := h.message hvalid hself
    have hchain : m.thread ∈ shape.chain node m.send := by
      rwa [hthread, hsend]
    refine ⟨m, hm, hthread.trans hpick.symm, ?_, ?_⟩
    · intro front back hqueue m' hm' hgroup
      have hmem' : m' ∈ world.queue := by
        rw [hqueue]
        exact mem_append_left _ hm'
      obtain ⟨node', hchain', -, -⟩ := h.here m' hmem'
      obtain rfl := (h.group_eq_iff hvalid hmem' hm hchain' hchain).mp hgroup
      have hlt := h.before hqueue hm'
      rw [hthread] at hlt
      exact not_lt.mpr (hvalid.oldest _ _ _ hchain') hlt
    · intro m' hm' hgroup
      obtain ⟨node', hchain', hdue', -⟩ := h.here m' hm'
      have hne : node' ≠ node := fun heq =>
        hgroup ((h.group_eq_iff hvalid hm' hm hchain' hchain).mpr heq)
      have hrest : node' ∈ rest := by
        have hnode' := hvalid.mem_nodes hchain'
        rw [hnodes] at hnode'
        exact (mem_cons.mp hnode').resolve_left hne
      have hsorted := hvalid.sorted
      rw [hnodes, pairwise_cons] at hsorted
      have hlt := hsorted.1 node' hrest
      have hle := hvalid.oldest _ _ _ hchain'
      rw [hdue, hdue']
      simp only [Shape.key] at hlt
      omega

theorem Matches.pick_any :
    pick world.words e true = Reference.pick world.queue true := by
  by_cases hqueue : world.queue = []
  · have hnodes : shape.nodes = [] := by
      apply eq_nil_iff_forall_not_mem.mpr
      intro node hnode
      obtain ⟨m, hm, -⟩ := h.all node (hvalid.queued hnode)
      rw [hqueue] at hm
      exact not_mem_nil hm
    have hfirst := hrepresents.groups.first
    rw [hqueue, Reference.pick_eq_zero (by simp), pick]
    simp [hfirst, hnodes]
  · obtain ⟨m, hm, hthread, hfirst, hleast⟩ := h.pick_due hrepresents hvalid hqueue
    rw [← hthread, Reference.pick_eq hm (.inl rfl)]
    · exact fun front back hsplit m' hm' _ => hfirst front back hsplit m' hm'
    · exact fun m' hm' _ => hleast m' hm'

/-- A receiver that may take no calls takes the oldest send of the first group on
the send list. -/
theorem Matches.pick_send :
    pick world.words e false = Reference.pick world.queue false := by
  have hfirst := hrepresents.sends.first
  have hlisted : ∀ m ∈ world.queue, m.send → ∀ node,
      m.thread ∈ shape.chain node m.send → node ∈ shape.sending := by
    intro m hm hsend node hchain
    rw [hsend] at hchain
    rw [hvalid.listed]
    exact ne_nil_of_mem hchain
  cases hsending : shape.sending with
  | nil =>
    rw [Reference.pick_eq_zero, pick]
    · simp [hfirst, hsending]
    · intro m hm htakeable
      have hsend : m.send := htakeable.resolve_left Bool.false_ne_true
      obtain ⟨node, hchain, -, -⟩ := h.here m hm
      have hnode := hlisted m hm hsend node hchain
      rw [hsending] at hnode
      exact not_mem_nil hnode
  | cons node rest =>
    have hnode : node ∈ shape.sending := by simp [hsending]
    have hsends := (hvalid.listed node).mp hnode
    have hhead := Shape.headD_mem_of_ne_nil hsends
    have hpick : pick world.words e false = (shape.chain node true).headD 0 := by
      have hpositive := hrepresents.sends.ne_zero hnode
      rw [hsending] at hfirst
      simp [pick, hfirst, hpositive, hrepresents.firstOf]
    obtain ⟨m, hm, hthread, hsend, hdue⟩ := h.message hvalid hhead
    have hchain : m.thread ∈ shape.chain node m.send := by
      rwa [hthread, hsend]
    rw [hpick, Reference.pick_eq hm (.inr hsend), hthread]
    · intro front back hqueue m' hm' htakeable hgroup
      have hsend' : m'.send := htakeable.resolve_left Bool.false_ne_true
      have hmem' : m' ∈ world.queue := by
        rw [hqueue]
        exact mem_append_left _ hm'
      obtain ⟨node', hchain', -, -⟩ := h.here m' hmem'
      obtain rfl := (h.group_eq_iff hvalid hmem' hm hchain' hchain).mp hgroup
      have hlt := h.before hqueue hm'
      rw [hsend'] at hchain'
      rw [hthread] at hlt
      exact not_lt.mpr (hvalid.toSound.head_le hchain') hlt
    · intro m' hm' htakeable hgroup
      have hsend' : m'.send := htakeable.resolve_left Bool.false_ne_true
      obtain ⟨node', hchain', hdue', -⟩ := h.here m' hm'
      have hne : node' ≠ node := fun heq =>
        hgroup ((h.group_eq_iff hvalid hm' hm hchain' hchain).mpr heq)
      have hrest : node' ∈ rest := by
        have hnode' := hlisted m' hm' hsend' node' hchain'
        rw [hsending] at hnode'
        exact (mem_cons.mp hnode').resolve_left hne
      have hsorted := hvalid.sendSorted
      rw [hsending, pairwise_cons] at hsorted
      have hlt := hsorted.1 node' hrest
      rw [hsend'] at hchain'
      have hle := hvalid.toSound.head_le hchain'
      simp only [Shape.sendKey] at hlt
      omega

end World

/-! ## The audit -/

section Audit

variable {σ : Type} {w : Words} {e : ℕ} {shape : Shape} {counter : ℕ}

/-- A list's audit passes its members in order. -/
theorem auditFrom_ok {list : IpcList} {each : σ → ℕ → Except Fault σ}
    (front : List ℕ) {nodes : List ℕ} {fuel : ℕ} (n : ℕ) {state last : σ}
    (hlist : IsList w list (front ++ nodes))
    (hpass : nodes.foldlM each state = .ok last) (hfuel : nodes.length < fuel) :
    (list.walk w).auditFrom each fuel state (front.getLastD 0) (nodes.headD 0) n front =
      some (front ++ nodes, .ok (n + nodes.length, last)) := by
  induction nodes generalizing front fuel n state with
  | nil =>
    obtain ⟨fuel, rfl⟩ := Nat.exists_eq_add_of_lt hfuel
    obtain rfl : state = last := by
      exact Except.ok.inj hpass
    have htail :
        ¬((list.walk w).tail.isSome ∧
          (list.walk w).tail ≠ some (front.getLastD 0)) := by
      have hlast := hlist.last
      cases hkept : list.tail with
      | none => simp [IpcList.walk, hkept]
      | some tail => simpa [IpcList.walk, IpcList.last, hkept] using hlast
    rw [Walk.auditFrom, if_pos headD_nil, if_neg htail, append_nil,
      length_nil, add_zero]
  | cons head rest ih =>
    obtain ⟨fuel, rfl⟩ : ∃ k, fuel = k + 1 :=
      ⟨fuel - 1, by simp only [length_cons] at hfuel; omega⟩
    have hhead : head ≠ 0 := hlist.ne_zero (by simp)
    obtain ⟨hprev, hnext⟩ := hlist.linked.neighbours
    rw [foldlM_cons] at hpass
    cases hstep : each state head with
    | error fault =>
      rw [hstep] at hpass
      cases hpass
    | ok next =>
      rw [hstep] at hpass
      have hmoved : IsList w list ((front ++ [head]) ++ rest) := by simpa using hlist
      have hless : rest.length < fuel := by
        simp only [length_cons] at hfuel
        omega
      have hrest := ih (front ++ [head]) (n + 1) hmoved hpass hless
      have hend : (front ++ [head]).getLastD 0 = head := by simp
      rw [hend] at hrest
      have hback : (list.walk w).prev head = front.getLastD 0 := hprev
      have hforth : list.next w head = rest.headD 0 := hnext
      rw [headD_cons, Walk.auditFrom, if_neg hhead, if_neg (not_not.mpr hback), hstep]
      change (list.walk w).auditFrom each fuel next head (list.next w head) (n + 1) _ =
        _
      rw [hforth, hrest, append_assoc, singleton_append, length_cons,
        Nat.add_right_comm]
      rfl

theorem audit_ok {list : IpcList} {each : σ → ℕ → Except Fault σ}
    {nodes : List ℕ} {fuel : ℕ} {state last : σ} (hlist : IsList w list nodes)
    (hpass : nodes.foldlM each state = .ok last) (hfuel : nodes.length < fuel) :
    list.audit w fuel each state = .ok (nodes.length, last) := by
  have hfrom := auditFrom_ok [] 0 hlist hpass hfuel
  rw [zero_add] at hfrom
  have haudit : (list.walk w).audit each fuel state =
      some (nodes, .ok (nodes.length, last)) := by
    rw [Walk.audit]
    change (list.walk w).auditFrom each fuel state 0 (list.first w) 0 [] = _
    rw [hlist.first]
    exact hfrom
  rw [IpcList.audit, haudit]

/-- The count of members bounds every chain. -/
theorem Shape.Sound.length_chain_le (h : shape.Sound counter) (node : ℕ)
    (send : Bool) : (shape.chain node send).length ≤ shape.waiting := by
  by_cases hnode : node ∈ shape.nodes
  · obtain ⟨front, back, hnodes⟩ := append_of_mem hnode
    have hcounts := h.counts node
    have hwaiting := h.waiting
    rw [hnodes, map_append, map_cons, sum_append, sum_cons] at hwaiting
    cases send <;> omega
  · rw [(h.idle node hnode).1 send]
    exact Nat.zero_le _

variable {member : ℕ → Bool → Except Fault Unit}

/-- A chain passes if its members name its node, pass `member` and arrived in
order. -/
theorem auditMember_ok {node : ℕ} {send : Bool} {members : List ℕ} {previous : ℕ}
    (hnamed : ∀ m ∈ members, groupOf w m = node)
    (hmember : ∀ m ∈ members, member m send = .ok ())
    (hordered : members.Pairwise fun m m' => seq w m < seq w m')
    (hprevious : ∀ m ∈ members, previous < seq w m) :
    ∃ last, members.foldlM (auditMember w member node send) previous = .ok last := by
  induction members generalizing previous with
  | nil => exact ⟨previous, rfl⟩
  | cons head rest ih =>
    rw [pairwise_cons] at hordered
    have hhead : auditMember w member node send previous head = .ok (seq w head) := by
      have hlt := hprevious head mem_cons_self
      rw [auditMember, if_neg (not_not.mpr (hnamed head mem_cons_self)),
        if_neg (not_le.mpr hlt), hmember head mem_cons_self]
      rfl
    rw [foldlM_cons, hhead]
    exact ih (fun m hm => hnamed m (mem_cons_of_mem _ hm))
      (fun m hm => hmember m (mem_cons_of_mem _ hm)) hordered.2 hordered.1

variable (h : Represents w e shape) (hvalid : shape.Valid counter)

include h hvalid

theorem chain_audit_ok {node : ℕ} {send : Bool}
    (hmember : ∀ m ∈ shape.chain node send, member m send = .ok ()) :
    ∃ last, (IpcList.chain node send).audit w (waiting w e + 1)
      (auditMember w member node send) 0 =
      .ok ((shape.chain node send).length, last) := by
  have hseq : ∀ m, seq w m = shape.seq m := h.arrived
  obtain ⟨last, hpass⟩ := auditMember_ok (w := w) (h.named node send) hmember
    (by simpa only [hseq] using hvalid.ordered node send)
    (fun m hm => by
      rw [hseq]
      exact (hvalid.stamped m ⟨node, send, hm⟩).1)
  refine ⟨last, audit_ok (h.chains node send) hpass ?_⟩
  rw [waiting, h.waiting]
  exact Nat.lt_succ_of_le (hvalid.toSound.length_chain_le node send)

variable (hmember : ∀ node send, ∀ m ∈ shape.chain node send, member m send = .ok ())

include hmember

/-- A group passes and is counted. -/
theorem auditGroup_ok (members withSends : ℕ) {node last : ℕ}
    (hnode : node ∈ shape.nodes) (hlast : last < shape.key node) :
    auditGroup w e member (last, members, withSends) node =
      .ok (shape.key node, members + shape.count node,
        withSends + (!(shape.chain node true).isEmpty).toNat) := by
  obtain ⟨lastSend, hsends⟩ := chain_audit_ok h hvalid (hmember node true)
  obtain ⟨lastCall, hcalls⟩ := chain_audit_ok h hvalid (hmember node false)
  have hcounts := hvalid.counts node
  obtain ⟨send, hself⟩ := hvalid.home node hnode
  have hpositive := hvalid.toSound.count_pos hself
  have hcount : count w node = shape.count node := h.counted node
  have hlisted : (sendGroups e).contains w node = !(shape.chain node true).isEmpty := by
    rw [Bool.eq_iff_iff, h.sends_contains (h.groups.ne_zero hnode), hvalid.listed]
    simp
  have hkey := h.key_eq hvalid.toSound hvalid.toHomed hnode
  have holdest := h.oldest_node hvalid.toSound hvalid.toHomed hnode
  have hsum : ¬ ((shape.chain node true).length + (shape.chain node false).length = 0
      ∨ (shape.chain node true).length + (shape.chain node false).length ≠
        count w node) := by
    omega
  simp only [auditGroup, hkey, holdest, not_le.mpr hlast, hsends, hcalls,
    ne_eq, h.chain_isEmpty, hlisted, hcounts]
  exact if_neg hsum

theorem auditGroups_fold (members withSends : ℕ) {nodes : List ℕ} {last : ℕ}
    (hnodes : ∀ n ∈ nodes, n ∈ shape.nodes)
    (hsorted : nodes.Pairwise fun n n' => shape.key n < shape.key n')
    (hlast : ∀ n ∈ nodes, last < shape.key n) :
    ∃ last', nodes.foldlM (auditGroup w e member) (last, members, withSends) =
      .ok (last', members + (nodes.map shape.count).sum,
        withSends + (nodes.filter fun n => !(shape.chain n true).isEmpty).length) := by
  induction nodes generalizing last members withSends with
  | nil => exact ⟨last, rfl⟩
  | cons head rest ih =>
    rw [pairwise_cons] at hsorted
    have hhead :=
      auditGroup_ok h hvalid hmember members withSends (hnodes head mem_cons_self)
      (hlast head mem_cons_self)
    obtain ⟨last', hrest⟩ := ih (members + shape.count head)
      (withSends + (!(shape.chain head true).isEmpty).toNat)
      (fun n hn => hnodes n (mem_cons_of_mem _ hn)) hsorted.2 hsorted.1
    refine ⟨last', ?_⟩
    rw [foldlM_cons, hhead]
    refine hrest.trans ?_
    rw [map_cons, filter_cons]
    cases hempty : (shape.chain head true).isEmpty <;>
      simp [add_assoc, add_comm 1]

omit hmember in
theorem auditSending_fold {sending : List ℕ} {last : ℕ}
    (hnodes : ∀ n ∈ sending, n ∈ shape.sending)
    (hsorted : sending.Pairwise fun n n' => shape.sendKey n < shape.sendKey n')
    (hlast : ∀ n ∈ sending, last < shape.sendKey n) :
    ∃ last', sending.foldlM (auditSending w e) last = .ok last' := by
  induction sending generalizing last with
  | nil => exact ⟨last, rfl⟩
  | cons head rest ih =>
    rw [pairwise_cons] at hsorted
    have hmem := hnodes head mem_cons_self
    have hhead : auditSending w e last head = .ok (shape.sendKey head) := by
      have hnode := hvalid.sending_mem hmem
      have hcontains := (h.groups.contains_iff (h.groups.ne_zero hnode)).mpr hnode
      have hsends := (hvalid.listed head).mp hmem
      have hempty : (shape.chain head true).isEmpty = false := by
        simpa using hsends
      rw [auditSending, h.sendKey_eq, h.chain_isEmpty, hcontains, hempty,
        if_neg (not_le.mpr (hlast head mem_cons_self)), if_neg (by simp)]
    obtain ⟨last', hrest⟩ :=
      ih (fun n hn => hnodes n (mem_cons_of_mem _ hn)) hsorted.2 hsorted.1
    refine ⟨last', ?_⟩
    rw [foldlM_cons, hhead]
    exact hrest

/-- The audit of the groups passes, with the members counted. -/
theorem auditGroups_ok : auditGroups w e member = .ok shape.waiting := by
  have hpositive : ∀ n ∈ shape.nodes, 0 < shape.key n := by
    intro n hn
    have hstamped := (hvalid.stamped n (hvalid.queued hn)).1
    exact lt_of_lt_of_le hstamped (le_max_left _ _)
  have hsendPositive : ∀ n ∈ shape.sending, 0 < shape.sendKey n := by
    intro n hn
    have hhead := Shape.headD_mem_of_ne_nil ((hvalid.listed n).mp hn)
    have hstamped := (hvalid.stamped _ ⟨n, true, hhead⟩).1
    exact lt_of_lt_of_le hstamped (le_max_left _ _)
  have hfuel := hvalid.toSound.length_nodes_le hvalid.toHomed
  have hsendFuel := hvalid.toSound.length_sending_le hvalid.toHomed
    hvalid.sending_nodup fun n hn => hvalid.sending_mem hn
  have hwaiting : waiting w e = shape.waiting := h.waiting
  obtain ⟨last, hgroups⟩ := auditGroups_fold h hvalid hmember 0 0
    (fun n hn => hn) hvalid.sorted hpositive
  obtain ⟨lastSend, hsends⟩ := auditSending_fold h hvalid
    (fun n hn => hn) hvalid.sendSorted hsendPositive
  have hgroupsAudit :=
    audit_ok h.groups.toIsList hgroups (Nat.lt_succ_of_le (hwaiting ▸ hfuel))
  have hsendsAudit :=
    audit_ok h.sends.toIsList hsends (Nat.lt_succ_of_le (hwaiting ▸ hsendFuel))
  -- the send list holds the groups with a send, each once
  have hlisted : shape.sending.length =
      (shape.nodes.filter fun n => !(shape.chain n true).isEmpty).length := by
    apply Perm.length_eq
    rw [perm_ext_iff_of_nodup hvalid.sending_nodup (hvalid.nodes_nodup.filter _)]
    intro n
    rw [mem_filter]
    have hiff := hvalid.listed n
    constructor
    · intro hn
      exact ⟨hvalid.sending_mem hn, by simpa using hiff.mp hn⟩
    · rintro ⟨-, hne⟩
      exact hiff.mpr (by simpa using hne)
  have hsum := hvalid.waiting
  simp only [auditGroups, hgroupsAudit, hsendsAudit]
  simp [bind, Except.bind, hlisted, hsum]

end Audit

/-! ## The refinement -/

namespace World

variable {world : World γ} {shape : Shape} {e : ℕ}

omit [DecidableEq γ] in
/-- The endpoint's count is the number of messages queued. -/
theorem Matches.length_queue (h : world.Matches shape)
    (hvalid : shape.Valid world.counter) : shape.waiting = world.queue.length := by
  set members : ℕ → List ℕ :=
    fun node => shape.chain node true ++ shape.chain node false with hmembers
  have hmem : ∀ node m, m ∈ members node ↔ ∃ send, m ∈ shape.chain node send := by
    intro node m
    rw [hmembers, mem_append, Bool.exists_bool, or_comm]
  have hdistinct : (shape.nodes.flatMap members).Nodup := by
    rw [nodup_flatMap]
    constructor
    · intro node _
      apply nodup_append.mpr
      refine ⟨hvalid.toSound.chain_nodup node true,
        hvalid.toSound.chain_nodup node false, ?_⟩
      rintro m hm _ hm' rfl
      exact Bool.false_ne_true (hvalid.apart node true m hm node false hm').2
    · apply hvalid.nodes_nodup.imp
      intro node node' hne m hm hm'
      obtain ⟨send, hm⟩ := (hmem node m).mp hm
      obtain ⟨send', hm'⟩ := (hmem node' m).mp hm'
      exact hne (hvalid.apart node' send' m hm' node send hm).1
  have hthreads : (world.queue.map Message.thread).Nodup := by
    rw [nodup_iff_pairwise_ne, pairwise_map]
    apply h.arrivals.imp
    intro m m' hlt heq
    rw [heq] at hlt
    exact lt_irrefl _ hlt
  have hperm : (shape.nodes.flatMap members).Perm (world.queue.map Message.thread) := by
    rw [perm_ext_iff_of_nodup hdistinct hthreads]
    intro m
    rw [mem_flatMap, mem_map]
    constructor
    · rintro ⟨node, -, hm⟩
      obtain ⟨send, hm⟩ := (hmem node m).mp hm
      obtain ⟨message, hin, heq⟩ := h.all m ⟨node, send, hm⟩
      exact ⟨message, hin, heq⟩
    · rintro ⟨message, hin, rfl⟩
      obtain ⟨node, hm, -, -⟩ := h.here message hin
      exact ⟨node, hvalid.mem_nodes hm, (hmem node _).mpr ⟨_, hm⟩⟩
  have hlength := hperm.length_eq
  rw [length_map, length_flatMap] at hlength
  rw [hvalid.waiting, ← hlength]
  congr 1
  apply map_congr_left
  intro node _
  rw [hvalid.counts, hmembers, length_append]

/-- In every run the linked words give the reference queue's next message to any
receiver, pass their audit with every queued message counted, and hold that
count. -/
theorem run_refines {member : ℕ → Bool → Except Fault Unit} (h : World.Run e world)
    (hmember : ∀ m ∈ world.queue, member m.thread m.send = .ok ()) :
    (∀ calls, pick world.words e calls = Reference.pick world.queue calls) ∧
      auditGroups world.words e member = .ok world.queue.length ∧
      waiting world.words e = world.queue.length := by
  obtain ⟨shape, hrepresents, hvalid, hmatches⟩ := h.simulates
  have hlength := hmatches.length_queue hvalid
  have hchains : ∀ node send, ∀ m ∈ shape.chain node send, member m send = .ok () := by
    intro node send m hm
    obtain ⟨message, hin, rfl, rfl, -⟩ := hmatches.message hvalid hm
    exact hmember message hin
  refine ⟨fun calls => ?_, ?_, ?_⟩
  · cases calls
    · exact hmatches.pick_send hrepresents hvalid
    · exact hmatches.pick_any hrepresents hvalid
  · rw [auditGroups_ok hrepresents hvalid hchains, hlength]
  · exact hrepresents.waiting.trans hlength

/-- A send and a call of one group with a call of another between them, and the
send taken. -/
def busy : World ℕ :=
  (((empty.enqueue 0 1 7 true 1).enqueue 0 2 8 false 2).enqueue 0 3 7 false 3).take
    0 1 4

theorem busy_run : World.Run 0 busy := by
  have hfirst : World.Run 0 ((empty : World ℕ).enqueue 0 1 7 true 1) :=
    .enqueue _ _ _ _ .empty (by decide) (by simp [Queued, empty]) (by decide)
  have hsecond := World.Run.enqueue 2 8 false 2 hfirst (by decide)
    (by simp [Queued, enqueue, Reference.enqueue, empty]) (by decide)
  have hthird := World.Run.enqueue 3 7 false 3 hsecond (by decide)
    (by simp [Queued, enqueue, Reference.enqueue, empty]) (by decide)
  have hserved := World.Run.served 1 4 hthird
    (by simp [Queued, enqueue, Reference.enqueue, empty]) (by decide)
  exact hserved.leave 1 ⟨⟨1, 7, true, 4⟩, by decide, rfl⟩

theorem busy_refines :
    (∀ calls, pick busy.words 0 calls = Reference.pick busy.queue calls) ∧
      auditGroups busy.words 0 (fun _ _ => .ok ()) = .ok 2 ∧
      waiting busy.words 0 = 2 :=
  run_refines busy_run fun _ _ => rfl

end World

end Redoubt.Ipclist
