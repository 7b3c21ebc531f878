import Redoubt.Boot.Confine

/-!
# Confined placement

What the check of a confined manifest says of every server `init` will start: those that
it connects, however indirectly, have one label set, their volumes' too, if each volume
whose range no server holds has the label set of its disk's `blkd`.
-/

namespace Redoubt.Boot

open Checks List Sees

variable {m : Manifest} {machine : Machine} {s t : Server} {v : Volume}

/-! ### Label sets -/

def labelSet (labels : List String) : Finset String := labels.toFinset

theorem mem_dedup {x : String} (labels : List String) :
    x ∈ dedup labels ↔ x ∈ labels := by
  fun_induction dedup labels with
  | case1 a rest ih =>
    rw [ih]
    simp
  | case2 a b rest hne ih => rw [mem_cons, ih, mem_cons (b := a)]
  | case3 labels => rfl

theorem mem_sorted {x : String} {labels : List String} :
    x ∈ sorted labels ↔ x ∈ labels :=
  mem_insertionSort _

theorem labelSet_of_sorted {a b : List String} (heq : sorted a = sorted b) :
    labelSet a = labelSet b := by
  ext x
  rw [labelSet, labelSet, mem_toFinset, mem_toFinset, ← mem_sorted, heq, mem_sorted]

theorem labelSet_of_set {a b : List String} (heq : set a = set b) :
    labelSet a = labelSet b := by
  ext x
  rw [labelSet, labelSet, mem_toFinset, mem_toFinset, ← mem_sorted,
    ← mem_dedup (sorted a)]
  change x ∈ set a ↔ _
  rw [heq, set, mem_dedup, mem_sorted]

/-- Sets that do not differ are one. -/
theorem eq_of_not_differ {a b : List String} {sets : List (List String)}
    (hsame : ¬ differ (a :: sets) = true)
    (hb : b ∈ sets) : a = b := by
  induction sets generalizing a with
  | nil => exact nomatch hb
  | cons c rest ih =>
    rw [differ, Bool.or_eq_true, not_or, decide_eq_true_eq, not_not] at hsame
    rcases mem_cons.mp hb with rfl | hb
    · exact hsame.1
    · exact hsame.1.trans (ih hsame.2 hb)

/-! ### What an accepted manifest says -/

/-- What the names of a manifest are, in the order they are seen. -/
def seenNames (m : Manifest) : List (Kind × String) :=
  (m.devices.flatMap fun d => [(.devices, d.name)]) ++
    ((m.labels.flatMap fun l => [(.labels, l.name)]) ++
    ((m.volumes.flatMap fun v => [(.volumes, v.name)]) ++
      ((m.principals.flatMap fun p => [(.principals, p.name)]) ++
      m.servers.flatMap fun s => (.servers, s.name) :: s.receives.flatMap fun e =>
        [(.endpoints, e)])))

theorem sees_naming (m : Manifest) : Sees (naming m) (seenNames m) := by
  refine bind (sees_each fun _ _ => afterPlain sees_add) ?_
  refine bind (sees_each fun _ _ => afterPlain sees_add) (afterPlain ?_)
  refine bind (sees_each fun _ _ => afterPlain sees_add) ?_
  refine bind (sees_each fun _ _ => afterPlain (afterPlain sees_add)) ?_
  refine sees_each fun _ _ => afterPlain (afterAdd (afterPlain (afterPlain ?_)))
  exact sees_each fun _ _ => sees_add

theorem nodup_seenNames (hnames : names m = .ok ()) : (seenNames m).Nodup := by
  rw [names] at hnames
  cases hnaming : naming m [] with
  | error e =>
    rw [hnaming] at hnames
    exact nomatch hnames
  | ok r =>
    obtain ⟨hseen, hnodup⟩ := sees_naming m [] r.2 hnaming
    rw [hseen] at hnodup
    exact hnodup nodup_nil

/-- Names of one kind differ. -/
theorem names_spec (hnames : names m = .ok ()) :
    (m.volumes.Pairwise fun v w => v.name ≠ w.name) ∧
      m.servers.Pairwise fun s t => s.name ≠ t.name ∧ ∀ e ∈ s.receives,
      e ∉ t.receives := by
  have hrest := (nodup_append.mp (nodup_append.mp (nodup_seenNames hnames)).2.1).2.1
  have hvolumes := (nodup_flatMap.mp (nodup_append.mp hrest).1).2
  have hservers :=
    (nodup_flatMap.mp (nodup_append.mp (nodup_append.mp hrest).2.1).2.1).2
  refine ⟨hvolumes.imp fun hdisjoint heq => ?_, hservers.imp fun hdisjoint =>
    ⟨fun heq => ?_, fun e he he' => ?_⟩⟩
  · exact hdisjoint (mem_singleton_self _) (heq ▸ mem_singleton_self _)
  · exact hdisjoint mem_cons_self (heq ▸ mem_cons_self)
  · have hmem {s : Server} (he : e ∈ s.receives) :
        ((.endpoints, e) : Kind × String) ∈ (.servers, s.name) ::
          s.receives.flatMap fun e => [(Kind.endpoints, e)] :=
      mem_cons_of_mem _ (mem_flatMap.mpr ⟨e, he, mem_singleton_self _⟩)
    exact hdisjoint (hmem he) (hmem he')

/-- What the check of a confined manifest looked at. -/
structure Accepted (m : Manifest) : Prop where
  servers : m.servers.Pairwise fun s t => s.name ≠ t.name ∧ ∀ e ∈ s.receives,
    e ∉ t.receives
  volumes : m.volumes.Pairwise fun v w => v.name ≠ w.name
  /-- What a volume's `verity` names is a `verityd`, which no other volume names. -/
  verifier : ∀ v ∈ m.volumes, ∀ verity, v.verity = some verity →
    ∃ b, Boot.verifier m v = some b ∧ b.program = veritydProgram
  verifies : m.volumes.Pairwise fun v w =>
    ∀ verity verity', v.verity = some verity → w.verity = some verity' →
      verity.server ≠ verity'.server
  /-- A server attaches a volume of the manifest. -/
  attached : ∀ s ∈ m.servers, ∀ name, s.volume = some name → ∃ v ∈ m.volumes,
    v.name = name
  /-- A verifier has the labels of the volume it verifies. -/
  labels : ∀ s ∈ m.servers, s.program = veritydProgram → ∀ v, verified m s = some v →
    labelSet s.labels = labelSet v.labels
  home : ∀ p ∈ m.principals, p.home.isSome = true → ∃ home v, homeOf p = some home ∧
    v ∈ m.volumes ∧ v.name = home.1
  volumeSets : ∀ v ∈ m.volumes, ¬ differ (Boot.volumeSets m v) = true
  net : ∀ d ∈ principalSets m, d.2 ≠ [] → ∀ p, m.principals[d.1]? = some p → p.net = []
  users : ∀ s ∈ m.servers, exempt s = false → ¬ differ (Boot.users m s) = true

theorem verifiers_spec (hverifiers : verifiers m = .ok ()) :
    (∀ v ∈ m.volumes, ∀ verity, v.verity = some verity →
      ∃ b, verifier m v = some b ∧ b.program = veritydProgram) ∧
    (m.volumes.Pairwise fun v w =>
      ∀ verity verity', v.verity = some verity → w.verity = some verity' →
      verity.server ≠ verity'.server) ∧
    ∀ s ∈ m.servers, s.program = veritydProgram → ∀ v, verified m s = some v →
      labelSet s.labels = labelSet v.labels := by
  simp only [verifiers, bind_eq_ok] at hverifiers
  obtain ⟨hvolumes, hservers, -⟩ := hverifiers
  refine ⟨fun v hv verity hverity => ?_,
    pairwise_of_take fun j w hw v hv verity verity' hverity hverity' heq => ?_,
    fun s hs hprogram v hverified => ?_⟩
  · obtain ⟨i, hi⟩ := of_each hvolumes hv
    rw [hverity] at hi
    simp only [bind_eq_ok, refuse_eq_ok] at hi
    cases hfound : verifier m v with
    | none => exact absurd (by rw [hfound]; rfl) hi.1
    | some b =>
      rw [hfound, Option.all_some, decide_eq_true_eq, not_not] at hi
      exact ⟨b, rfl, hi.1⟩
  · have hj := each_eq_ok.mp hvolumes j w hw
    rw [hverity'] at hj
    simp only [bind_eq_ok, refuse_eq_ok] at hj
    refine hj.2 ⟨v, hv, ?_⟩
    rw [hverity, Option.any_some, decide_eq_true_eq]
    exact heq
  · obtain ⟨i, hi⟩ := of_each hservers hs
    have hrule := provided_eq_ok.mp hi hprogram
    rw [verifierRule, hverified] at hrule
    simp only [bind_eq_ok, refuse_eq_ok, not_not] at hrule
    exact labelSet_of_sorted hrule.2.2.2.1

theorem references_spec (hreferences : references m machine = .ok ()) :
    (∀ s ∈ m.servers, ∀ name, s.volume = some name → ∃ v ∈ m.volumes, v.name = name) ∧
      ∀ p ∈ m.principals, p.home.isSome = true →
        ∃ home v, homeOf p = some home ∧ v ∈ m.volumes ∧ v.name = home.1 := by
  simp only [references, bind_eq_ok] at hreferences
  obtain ⟨-, -, hservers, -, -, hprincipals⟩ := hreferences
  refine ⟨fun s hs name hname => ?_, fun p hp hhome => ?_⟩
  · obtain ⟨i, hi⟩ := of_each hservers hs
    simp only [serverReferences, bind_eq_ok, refuse_eq_ok] at hi
    have hknown := hi.2.2.1
    rw [hname, Option.any_some, decide_eq_true_eq, not_not] at hknown
    exact mem_map.mp hknown
  · obtain ⟨i, hi⟩ := of_each hprincipals hp
    simp only [principalReferences, bind_eq_ok, refuse_eq_ok] at hi
    have hfine := hi.2.2.2.2.2.1
    cases hof : homeOf p with
    | none => exact absurd ⟨hhome, by rw [hof]; rfl⟩ hfine
    | some home =>
      rw [hof] at hfine
      have hvolume := of_decide_eq_true (Bool.not_eq_false _ ▸ not_and.mp hfine hhome)
      obtain ⟨v, hv, hname⟩ := mem_map.mp hvolume.1
      exact ⟨home, v, rfl, hv, hname⟩

theorem confine_spec (hconfine : confine m = .ok ()) :
    (∀ v ∈ m.volumes, ¬ differ (volumeSets m v) = true) ∧
    (∀ d ∈ principalSets m, d.2 ≠ [] → ∀ p, m.principals[d.1]? = some p → p.net = []) ∧
    ∀ s ∈ m.servers, exempt s = false → ¬ differ (users m s) = true := by
  simp only [confine, bind_eq_ok] at hconfine
  obtain ⟨-, hvolumes, -, hnet, -, husers⟩ := hconfine
  refine ⟨fun v hv => ?_, fun d hd hdomain p hp => ?_, fun s hs hexempt => ?_⟩
  · obtain ⟨i, hi⟩ := of_each hvolumes hv
    exact refuse_eq_ok.mp hi
  · obtain ⟨i, hi⟩ := of_each hnet hd
    by_contra hscope
    refine refuse_eq_ok.mp hi ⟨hdomain, ?_⟩
    rw [hp, Option.any_some, decide_eq_true_eq]
    exact hscope
  · obtain ⟨i, hi⟩ := of_each husers hs
    exact refuse_eq_ok.mp (provided_eq_ok.mp hi hexempt)

theorem accepted_of_check (hcheck : check m machine = .ok ())
    (hconfined : m.confined = true) : Accepted m := by
  simp only [check, bind_eq_ok, provided_eq_ok] at hcheck
  obtain ⟨hnames, hreferences, -, -, -, hverifiers, -, hconfine, -⟩ := hcheck
  obtain ⟨hvolumes, hservers⟩ := names_spec hnames
  obtain ⟨hattached, hhome⟩ := references_spec hreferences
  obtain ⟨hverifier, hverifies, hlabels⟩ := verifiers_spec hverifiers
  obtain ⟨hvolumeSets, hnet, husers⟩ := confine_spec (hconfine hconfined)
  exact ⟨hservers, hvolumes, hverifier, hverifies, hattached, hlabels, hhome,
    hvolumeSets, hnet, husers⟩

/-! ### What is joined -/

theorem mem_of_blkd {b : Server} (hblkd : blkd m v = some b) :
    b ∈ m.servers ∧ b.program = blkdProgram := by
  have hfound (hb : b ∈ m.servers.filter (·.program = blkdProgram)) : b ∈ m.servers ∧
      b.program = blkdProgram :=
    ⟨(mem_filter.mp hb).1, of_decide_eq_true (mem_filter.mp hb).2⟩
  rw [blkd] at hblkd
  split at hblkd
  · exact hfound (mem_of_find?_eq_some hblkd)
  · next only _ hall =>
      cases hblkd
      exact hfound (hall ▸ mem_singleton_self _)
  · exact nomatch hblkd

theorem mem_of_verifier {b : Server} (hverifier : verifier m v = some b) :
    b ∈ m.servers ∧ ∃ verity, v.verity = some verity ∧ b.name = verity.server := by
  obtain ⟨verity, hverity, hfind⟩ := Option.bind_eq_some_iff.mp hverifier
  have hname := find?_some hfind
  exact ⟨mem_of_find?_eq_some hfind, verity, hverity, of_decide_eq_true hname⟩

theorem mem_of_verified (hverified : verified m s = some v) :
    v ∈ m.volumes ∧ ∃ verity, v.verity = some verity ∧ verity.server = s.name := by
  have hany := find?_some hverified
  cases hverity : v.verity with
  | none =>
    rw [hverity] at hany
    exact nomatch hany
  | some verity =>
    rw [hverity, Option.any_some, decide_eq_true_eq] at hany
    exact ⟨mem_of_find?_eq_some hverified, verity, rfl, hany⟩

/-- Whether `t` is given a handle at an endpoint that `s` receives on. -/
def Given (m : Manifest) (t s : Server) : Prop :=
  (∃ h ∈ t.handed, h.endpoint ∈ s.receives) ∨ ∃ e badge, range m t = some (e, badge) ∧
    e ∈ s.receives

/-- Two servers, neither exempt, one of which is given a handle at an endpoint of the
other. -/
def Joined (m : Manifest) (s t : Server) : Prop :=
  (s ∈ m.servers ∧ exempt s = false) ∧ (t ∈ m.servers ∧ exempt t = false) ∧
    (Given m s t ∨ Given m t s)

/-- The volumes on the disk of a `blkd`. -/
def Serves (m : Manifest) (s : Server) (v : Volume) : Prop := s.program = blkdProgram ∧
    onDisk m v s = true

def Verifies (s : Server) (v : Volume) : Prop := ∃ verity, v.verity = some verity ∧
    verity.server = s.name

def Attaches (s : Server) (v : Volume) : Prop := s.volume = some v.name

theorem uses_of_blkd (hv : v ∈ m.volumes) (hblkd : blkd m v = some s)
    (hholds : holdsRange m v t = true) :
    uses m s t = true := by
  have hprogram := (mem_of_blkd hblkd).2
  have hdisk : onDisk m v s = true := by
    rw [onDisk, hblkd, Option.any_some, decide_eq_true_eq]
  have hany : (m.volumes.any fun v => onDisk m v s && holdsRange m v t) = true :=
    any_eq_true.mpr ⟨v, hv, by rw [hdisk, hholds]; rfl⟩
  rw [uses, hany, decide_eq_true hprogram]
  rfl

namespace Accepted

variable (h : Accepted m)
include h

theorem server_eq (hs : s ∈ m.servers) (ht : t ∈ m.servers)
    (hname : s.name = t.name) : s = t := by
  by_contra hne
  have : Std.Symm fun s t : Server => s.name ≠ t.name := ⟨fun _ _ => Ne.symm⟩
  exact (h.servers.imp And.left).forall hs ht hne hname

theorem receiver_eq {e : String} (hs : s ∈ m.servers) (ht : t ∈ m.servers)
    (he : e ∈ s.receives)
    (he' : e ∈ t.receives) : s = t := by
  by_contra hne
  have : Std.Symm fun s t : Server => ∀ e ∈ s.receives, e ∉ t.receives :=
    ⟨fun _ _ hapart e he he' => hapart e he' he⟩
  exact (h.servers.imp And.right).forall hs ht hne e he he'

/-- No other volume names its verifier. -/
theorem verified_eq (hv : v ∈ m.volumes) (hverifies : Verifies s v) :
    verified m s = some v := by
  obtain ⟨verity, hverity, hserver⟩ := hverifies
  cases hfound : verified m s with
  | none =>
    have hnone := find?_eq_none.mp hfound v hv
    rw [hverity, Option.any_some, decide_eq_true_eq] at hnone
    exact absurd hserver hnone
  | some w =>
    obtain ⟨hw, verity', hverity', hserver'⟩ := mem_of_verified hfound
    by_contra hne
    have : Std.Symm fun v w : Volume => ∀ verity verity', v.verity = some verity →
        w.verity = some verity' →
        verity.server ≠ verity'.server :=
          ⟨fun _ _ hapart a b ha hb heq => hapart b a hb ha heq.symm⟩
    exact h.verifies.forall hv hw (fun heq => hne (heq ▸ rfl)) verity verity'
      hverity hverity'
      (hserver.trans hserver'.symm)

theorem labels_of_uses (hs : s ∈ m.servers) (hexempt : exempt s = false)
    (ht : t ∈ m.servers)
    (hexempt' : exempt t = false) (huses : uses m s t = true) :
    labelSet s.labels = labelSet t.labels := by
  refine labelSet_of_set (eq_of_not_differ (h.users s hs hexempt)
    (mem_append_left _ (mem_map.mpr ⟨t, ?_, rfl⟩)))
  rw [mem_filter, hexempt', huses]
  exact ⟨ht, rfl⟩

theorem labels_of_attaches (hs : s ∈ m.servers) (hv : v ∈ m.volumes)
    (hattaches : Attaches s v) :
    labelSet s.labels = labelSet v.labels := by
  refine (labelSet_of_set (eq_of_not_differ (h.volumeSets v hv)
    (mem_append_left _ (mem_map.mpr ⟨s, ?_, rfl⟩)))).symm
  exact mem_filter.mpr ⟨hs, decide_eq_true hattaches⟩

theorem labels_of_verifies (hs : s ∈ m.servers) (hv : v ∈ m.volumes)
    (hverifies : Verifies s v) :
    labelSet s.labels = labelSet v.labels := by
  obtain ⟨verity, hverity, hserver⟩ := hverifies
  obtain ⟨b, hb, hprogram⟩ := h.verifier v hv verity hverity
  obtain ⟨hmem, verity', hverity', hname⟩ := mem_of_verifier hb
  cases hverity.symm.trans hverity'
  obtain rfl : b = s := h.server_eq hmem hs (hname.trans hserver)
  exact h.labels b hs hprogram v (h.verified_eq hv ⟨verity, hverity, hserver⟩)

/-- A server holding a volume's range has the volume's labels. -/
theorem labels_of_holdsRange (ht : t ∈ m.servers) (hv : v ∈ m.volumes)
    (hholds : holdsRange m v t = true) :
    labelSet t.labels = labelSet v.labels := by
  rw [holdsRange] at hholds
  split at hholds
  · next b hb =>
      obtain ⟨-, verity, hverity, hname⟩ := mem_of_verifier hb
      exact h.labels_of_verifies ht hv
        ⟨verity, hverity, hname.symm.trans (of_decide_eq_true hholds)⟩
  · have hattaches : t.volume = some v.name := of_decide_eq_true hholds
    exact h.labels_of_attaches ht hv hattaches

/-- Where a volume's range is minted, its `blkd` receives. -/
theorem blkd_of_atBlkd {e : String} {badge : ℤ} (hs : s ∈ m.servers)
    (hrange : atBlkd m v = some (e, badge))
    (he : e ∈ s.receives) : blkd m v = some s := by
  obtain ⟨e', hfirst, heq⟩ := Option.map_eq_some_iff.mp hrange
  cases heq
  obtain ⟨b, hb, hhead⟩ := Option.bind_eq_some_iff.mp hfirst
  rw [hb, h.receiver_eq (mem_of_blkd hb).1 hs (mem_of_head? hhead) he]

/-- A server given a handle at another's endpoint has its labels. -/
theorem labels_of_given (hs : s ∈ m.servers) (hexempt : exempt s = false)
    (ht : t ∈ m.servers)
    (hexempt' : exempt t = false) (hgiven : Given m t s) :
    labelSet s.labels = labelSet t.labels := by
  rcases hgiven with ⟨item, hitem, he⟩ | ⟨e, badge, hrange, he⟩
  · refine h.labels_of_uses hs hexempt ht hexempt' (Bool.or_eq_true _ _ ▸ .inr ?_)
    exact any_eq_true.mpr ⟨item, hitem, contains_iff_mem.mpr he⟩
  · rw [range] at hrange
    split at hrange
    · next v hfound =>
        obtain ⟨name, hname, hfind⟩ := Option.bind_eq_some_iff.mp hfound
        have hv := mem_of_find?_eq_some hfind
        have hattaches : t.volume = some v.name := by
          have hfirst := find?_some hfind
          rw [hname, of_decide_eq_true hfirst]
        split at hrange
        · next b hb =>
            obtain ⟨e', hhead, heq⟩ := Option.map_eq_some_iff.mp hrange
            cases heq
            obtain ⟨hmem, verity, hverity, hserver⟩ := mem_of_verifier hb
            obtain rfl := h.receiver_eq hmem hs (mem_of_head? hhead) he
            refine h.labels_of_uses hs hexempt ht hexempt' ?_
            have hreads : readsThrough m b t = true := by
              rw [readsThrough, h.verified_eq hv ⟨verity, hverity, hserver.symm⟩]
              exact decide_eq_true hattaches
            rw [uses, hreads, Bool.or_true, Bool.true_or]
        · next hnone =>
            have hholds : holdsRange m v t = true := by
              rw [holdsRange, hnone]
              exact decide_eq_true hattaches
            exact h.labels_of_uses hs hexempt ht hexempt'
              (uses_of_blkd hv (h.blkd_of_atBlkd hs hrange he) hholds)
    · obtain ⟨v, hverified, hat⟩ := Option.bind_eq_some_iff.mp hrange
      obtain ⟨hv, verity, hverity, hserver⟩ := mem_of_verified hverified
      have hholds : holdsRange m v t = true := by
        obtain ⟨b, hb, -⟩ := h.verifier v hv verity hverity
        obtain ⟨-, verity', hverity', hname⟩ := mem_of_verifier hb
        cases hverity.symm.trans hverity'
        rw [holdsRange, hb]
        exact decide_eq_true (hname.trans hserver)
      exact h.labels_of_uses hs hexempt ht hexempt'
        (uses_of_blkd hv (h.blkd_of_atBlkd hs hat he) hholds)

theorem labels_of_joined (hjoined : Joined m s t) :
    labelSet s.labels = labelSet t.labels := by
  obtain ⟨⟨hs, hexempt⟩, ⟨ht, hexempt'⟩, hgiven | hgiven⟩ := hjoined
  · exact (h.labels_of_given ht hexempt' hs hexempt hgiven).symm
  · exact h.labels_of_given hs hexempt ht hexempt' hgiven

end Accepted

/-! ### Confined placement -/

/-- Servers joined by any chain. -/
def Connected (m : Manifest) : Server → Server → Prop :=
  Relation.ReflTransGen (Joined m)

/-- What is connected has one label set, homes are on unlabelled volumes, and no
principal that works under a label has a network scope. -/
structure Confined (m : Manifest) : Prop where
  servers : ∀ s ∈ m.servers, exempt s = false → ∀ t, Connected m s t →
    labelSet s.labels = labelSet t.labels
  volumes : ∀ s ∈ m.servers, exempt s = false → ∀ t, Connected m s t → ∀ v ∈ m.volumes,
    Serves m t v ∨ Verifies t v ∨ Attaches t v → labelSet s.labels = labelSet v.labels
  homes : ∀ p ∈ m.principals, p.home.isSome = true →
    ∃ home v, homeOf p = some home ∧ v ∈ m.volumes ∧ v.name = home.1 ∧
    labelSet v.labels = ∅
  net : ∀ p ∈ m.principals, (∃ set ∈ p.labelSets, labelSet set.labels ≠ ∅) → p.net = []

/-- A volume whose range no server holds, exempt ones apart, has its disk's label
set. -/
def UnheldAgree (m : Manifest) : Prop :=
  ∀ v ∈ m.volumes, ∀ b, blkd m v = some b →
    (∀ t ∈ m.servers, exempt t = false → holdsRange m v t = false) →
    labelSet b.labels = labelSet v.labels

theorem Connected.mem (hs : s ∈ m.servers ∧ exempt s = false) (hst : Connected m s t) :
    t ∈ m.servers ∧ exempt t = false := by
  cases hst with
  | refl => exact hs
  | tail _ hjoined => exact hjoined.2.1

theorem not_exempt_of_blkd {b : Server} (hblkd : blkd m v = some b) :
    exempt b = false := by
  rw [exempt, (mem_of_blkd hblkd).2]
  decide +kernel

namespace Accepted

variable (h : Accepted m)
include h

theorem labels_of_connected (hst : Connected m s t) :
    labelSet s.labels = labelSet t.labels := by
  induction hst with
  | refl => rfl
  | tail _ hjoined ih => exact ih.trans (h.labels_of_joined hjoined)

theorem labels_of_serves (hagree : UnheldAgree m) (hs : s ∈ m.servers)
    (hv : v ∈ m.volumes) (hserves : Serves m s v) :
    labelSet s.labels = labelSet v.labels := by
  have hdisk := hserves.2
  cases hblkd : blkd m v with
  | none =>
    rw [onDisk, hblkd] at hdisk
    exact nomatch hdisk
  | some b =>
    rw [onDisk, hblkd, Option.any_some, decide_eq_true_eq] at hdisk
    obtain rfl := h.server_eq (mem_of_blkd hblkd).1 hs hdisk
    by_cases hheld : ∃ t ∈ m.servers, exempt t = false ∧ holdsRange m v t = true
    · obtain ⟨t, ht, hexempt, hholds⟩ := hheld
      calc labelSet b.labels = labelSet t.labels :=
            h.labels_of_uses hs (not_exempt_of_blkd hblkd) ht hexempt
              (uses_of_blkd hv hblkd hholds)
        _ = labelSet v.labels := h.labels_of_holdsRange ht hv hholds
    · refine hagree v hv b hblkd fun t ht hexempt => ?_
      by_contra hholds
      exact hheld ⟨t, ht, hexempt, Bool.not_eq_false _ ▸ hholds⟩

theorem home_unlabelled {p : Principal} (hp : p ∈ m.principals)
    (hhome : p.home.isSome = true) :
    ∃ home v, homeOf p = some home ∧ v ∈ m.volumes ∧ v.name = home.1 ∧
      labelSet v.labels = ∅ := by
  obtain ⟨home, v, hof, hv, hname⟩ := h.home p hp hhome
  refine ⟨home, v, hof, hv, hname, ?_⟩
  obtain ⟨i, hi⟩ := mem_iff_getElem?.mp hp
  have hdomain : (i, []) ∈ principalSets m :=
    mem_flatMap.mpr ⟨(p, i), mem_zipIdx_iff_getElem?.mpr hi, mem_cons_self⟩
  have hempty : [] ∈ (((principalSets m).filter fun d => d.2 = []).filter fun d =>
      ((m.principals[d.1]?).bind homeOf).any fun home => home.1 = v.name).map
      Prod.snd := by
    refine mem_map.mpr ⟨(i, []), mem_filter.mpr ⟨mem_filter.mpr ⟨hdomain, rfl⟩, ?_⟩,
      rfl⟩
    rw [hi, Option.bind_some, hof, Option.any_some, decide_eq_true_eq, hname]
  have hset : set v.labels = [] :=
    eq_of_not_differ (h.volumeSets v hv) (mem_append_right _ hempty)
  exact labelSet_of_set (b := []) hset

theorem no_net {p : Principal} (hp : p ∈ m.principals) {labels : LabelSet}
    (hset : labels ∈ p.labelSets)
    (hlabelled : labelSet labels.labels ≠ ∅) : p.net = [] := by
  obtain ⟨i, hi⟩ := mem_iff_getElem?.mp hp
  have hdomain : (i, set labels.labels) ∈ principalSets m :=
    mem_flatMap.mpr ⟨(p, i), mem_zipIdx_iff_getElem?.mpr hi,
      mem_cons_of_mem _ (mem_map.mpr ⟨labels, hset, rfl⟩)⟩
  exact h.net _ hdomain (fun hnil => hlabelled (labelSet_of_set (b := []) hnil)) p hi

end Accepted

/-- An accepted confined manifest is confined exactly if the volumes nobody holds agree
with their disks. -/
theorem confined_placement (m : Manifest) (machine : Machine)
    (hcheck : check m machine = .ok ())
    (hconfined : m.confined = true) : Confined m ↔ UnheldAgree m := by
  have haccepted := accepted_of_check hcheck hconfined
  constructor
  · intro hall v hv b hblkd _
    refine hall.volumes b (mem_of_blkd hblkd).1 (not_exempt_of_blkd hblkd) b .refl v hv
      (.inl ⟨(mem_of_blkd hblkd).2, ?_⟩)
    rw [onDisk, hblkd, Option.any_some, decide_eq_true_eq]
  · intro hagree
    refine ⟨fun s _ _ t hst => haccepted.labels_of_connected hst,
      fun s hs hexempt t hst v hv hvolume => ?_,
      fun p hp hhome => haccepted.home_unlabelled hp hhome,
      fun p hp ⟨set, hset, hlabelled⟩ =>
        haccepted.no_net hp hset hlabelled⟩
    have ht := (hst.mem ⟨hs, hexempt⟩).1
    refine (haccepted.labels_of_connected hst).trans ?_
    rcases hvolume with hserves | hverifies | hattaches
    · exact haccepted.labels_of_serves hagree ht hv hserves
    · exact haccepted.labels_of_verifies ht hv hverifies
    · exact haccepted.labels_of_attaches ht hv hattaches

/-- A machine that has the programs and refuses nothing of its own. -/
def roomyMachine : Machine :=
  { entries := ["keyd", "blkd", "littlefsd"], parseIp := fun _ => none,
    quotas := fun _ => .ok ()
    fits := fun _ => .ok (), bound := fun _ => .ok () }

/-- A server with nothing but its own endpoint. -/
def plainServer (name program : String) : Server :=
  { name := name, program := program, labels := [], devices := [], volume := none
    receives := [name], handed := [], args := [] }

/-- The `blkd` of a disk that carries `labels`. -/
def diskServer (labels : List String) : Server :=
  { plainServer "blkd" "blkd" with labels := labels, args := ["endpoint=blkd"] }

def vault : Volume :=
  { name := "vault", partition := 0, labels := ["secrets"], disk := none,
    verity := none }

def alice : Principal :=
  { name := "alice", account := 1, labels := ["secrets"], labelSets := [⟨["secrets"]⟩]
    home := none, net := [] }

/-- One labelled volume on one disk, whose `blkd` has `labels`, and the servers
attaching it. -/
def oneDisk (labels : List String) (attaching : List Server) : Manifest :=
  { confined := true, devices := []
    labels := [{ name := "secrets", owner := "alice", id := 7 }]
    volumes := [vault]
    servers := plainServer "keyd" "keyd" :: diskServer labels :: attaching
    principals := [alice], steward := none, console := none }

/-- The vault is served, under its own label set. -/
def vaultServed : Manifest :=
  oneDisk ["secrets"] [{ plainServer "littlefsd:vault" "littlefsd" with
    labels := ["secrets"], volume := some "vault" }]

theorem confined_placement_vaultServed : check vaultServed roomyMachine = .ok () ∧
    (Confined vaultServed ↔ UnheldAgree vaultServed) ∧ UnheldAgree vaultServed := by
  have hcheck : check vaultServed roomyMachine = .ok () := by decide +kernel
  refine ⟨hcheck, confined_placement vaultServed roomyMachine hcheck rfl,
    fun v hv b hblkd hunheld => ?_⟩
  obtain rfl := mem_singleton.mp hv
  have hheld := hunheld _ (mem_cons_of_mem _ (mem_cons_of_mem _ mem_cons_self))
    (by decide +kernel)
  exact absurd hheld (by decide +kernel)

/-- The vault is on an unlabelled disk, and no server attaches it. -/
theorem unattached_vault_on_unlabelled_disk :
    check (oneDisk [] []) roomyMachine = .ok () ∧ (oneDisk [] []).confined = true ∧
      ¬ Confined (oneDisk [] []) := by
  refine ⟨by decide +kernel, rfl, fun hconfined => ?_⟩
  have hdisk := hconfined.volumes (diskServer []) (by decide +kernel)
    (by decide +kernel) _ .refl vault (by decide +kernel)
    (.inl ⟨by decide +kernel, by decide +kernel⟩)
  exact absurd hdisk (by decide +kernel)

end Redoubt.Boot
