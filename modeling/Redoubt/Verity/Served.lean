import Redoubt.Verity.Checked

/-!
# What a verified volume serves

The runs of blocks a load reads stay held until they are copied out, so a request's
bytes are the original ones, and a request within the volume succeeds while the range
answers with the original bytes.  Over any run of requests.
-/

namespace Redoubt.Verity

open Slices List Except

/-! ### The blocks of a run -/

/-- What is held of a volume is original. -/
structure Volume.Valid (g : Geometry) (image : List UInt8) (v : Volume) : Prop where
  geometry : v.geometry = g
  tree : v.tree.Valid g image
  data : v.data.Valid (Genuine image)
  inTime : v.data.InTime
  cap : 0 < v.data.cap

/-- What an operation leaves: a valid volume, with as large a cache and more calls
made. -/
structure Volume.Kept (g : Geometry) (image : List UInt8) (v v' : Volume) : Prop where
  valid : v'.Valid g image
  calls : v.tree.calls ≤ v'.tree.calls

theorem Volume.Kept.trans {g : Geometry} {image : List UInt8} {v v' v'' : Volume}
    (hfirst : v.Kept g image v') (hnext : v'.Kept g image v'') : v.Kept g image v'' :=
  ⟨hnext.valid, hfirst.calls.trans hnext.calls⟩

theorem Honest.mono {range : Range} {image : List UInt8} {calls calls' : ℕ}
    (hhonest : Honest range image calls) (hle : calls ≤ calls') :
    Honest range image calls' :=
  fun call hcall => hhonest call (hle.trans hcall)

theorem Geometry.Laid.data_le_total {g : Geometry} (hg : g.Laid) :
    g.data ≤ g.total := by
  rw [hg.total]
  exact Nat.le_add_right _ _

section Load

variable {sha : Sha} {range : Range} {g : Geometry} {rootHash image : List UInt8}
  (hpub : Published sha range g rootHash image)
include hpub

theorem Published.keepRun_spec {b : ℕ} {ra : List UInt8} {ks : List ℕ}
    (hks : ∀ k ∈ ks, b + k < g.data ∧ blockIn ra k ∈ answered range)
    {start : ℕ} {run : List ℕ} {v : Volume} (hv : v.Valid g image)
    (hrecent : v.data.Recent start run) (hroom : run.length + ks.length ≤ v.data.cap) :
    v.Kept g image (keepRun sha range b ra ks v).2 ∧
      ((keepRun sha range b ra ks v).1 = .ok () →
        ∃ run', (keepRun sha range b ra ks v).2.data.Recent start run' ∧
          (∀ n ∈ run, n ∈ run') ∧ ∀ k ∈ ks, b + k ∈ run') ∧
      (Honest range image v.tree.calls →
        (∀ k ∈ ks, blockIn ra k = blockIn image (b + k)) →
        (keepRun sha range b ra ks v).1 = .ok ()) := by
  induction ks generalizing v run with
  | nil =>
    refine ⟨⟨hv, le_rfl⟩, fun _ => ⟨run, hrecent, fun _ hn => hn, ?_⟩, fun _ _ => rfl⟩
    exact fun k hk => absurd hk not_mem_nil
  | cons k rest ih =>
    obtain ⟨hb, hanswered⟩ := hks k mem_cons_self
    obtain ⟨hkept, hleaf, hsucceeds⟩ :=
      hpub.check_spec hb hv.tree (leaf sha (blockIn ra k))
    rw [length_cons] at hroom
    rw [← hv.geometry] at hkept hleaf hsucceeds
    cases hcheck : v.tree.check sha range v.geometry (b + k)
      (leaf sha (blockIn ra k)) with
    | mk result t =>
      rw [hcheck, hv.geometry] at hkept hleaf hsucceeds
      cases result with
      | error bad =>
        rw [keepRun, ← blockIn, hcheck]
        refine ⟨⟨⟨hv.geometry, hkept.valid, hv.data, hv.inTime, hv.cap⟩, hkept.calls⟩,
          (fun h => by cases h),
          fun hhonest hsame => ?_⟩
        have hdue : leaf sha (blockIn ra k) = due sha g image (b + k) 0 := by
          rw [hsame k mem_cons_self, due]
        cases hsucceeds hhonest hdue
      | ok _ =>
        rw [keepRun, ← blockIn, hcheck]
        have hblock : blockIn ra k = blockIn image (b + k) :=
          hpub.distinct.leaf hanswered (hb.trans_le hpub.laid.data_le_total) (hleaf rfl)
        have hcap := v.data.cap_store (b + k) (blockIn ra k)
        have hv' : Volume.Valid g image
            { v with tree := t, data := v.data.store (b + k) (blockIn ra k) } :=
          ⟨hv.geometry, hkept.valid, hv.data.store hblock, hv.inTime.store _ _,
            hcap ▸ hv.cap⟩
        have hrecent' := hrecent.store (by omega) (b + k) (blockIn ra k)
        obtain ⟨hkept', hheld, hsucceeds'⟩ :=
          ih (fun k' hk' => hks k' (mem_cons_of_mem _ hk')) hv' hrecent'
            (by rw [length_cons, hcap]; omega)
        refine ⟨⟨hkept'.valid, hkept.calls.trans hkept'.calls⟩, fun hok => ?_,
          fun hhonest hsame => ?_⟩
        · obtain ⟨run', hrun', hold, hnew⟩ := hheld hok
          refine ⟨run', hrun', fun n hn => hold n (mem_cons_of_mem _ hn),
            fun k' hk' => ?_⟩
          rcases mem_cons.mp hk' with rfl | hk'
          · exact hold _ mem_cons_self
          · exact hnew k' hk'
        · exact hsucceeds' (hhonest.mono hkept.calls) fun k' hk' =>
            hsame k' (mem_cons_of_mem _ hk')

omit hpub in
/-- The blocks of an honest answer. -/
theorem Honest.run {calls call b run : ℕ} (hhonest : Honest range image calls)
    (hcall : calls ≤ call)
    (hrun : (b + run) * blockSize ≤ image.length) :
    (range.read call (b * sectorsPerBlock) (run * blockSize)).ok = true ∧ ∀ k, k < run →
      blockIn ((range.read call (b * sectorsPerBlock) (run * blockSize)).bytes
        (run * blockSize)) k =
        blockIn image (b + k) := by
  obtain ⟨hok, hbytes⟩ := hhonest call hcall b run hrun
  refine ⟨hok, fun k hk => ?_⟩
  have hfits : k * blockSize + blockSize ≤ run * blockSize := by
    rw [← Nat.succ_mul]
    exact Nat.mul_le_mul_right _ hk
  rw [hbytes, blockIn, slice_slice hfits, ← Nat.add_mul]
  rfl

/-- A run that is read and checks is held; with an honest range it does. -/
theorem Published.readRun_spec {b run : ℕ} {v : Volume} (hv : v.Valid g image)
    (hpos : 0 < run)
    (hrun : b + run ≤ g.data) (hroom : run ≤ v.data.cap) :
    v.Kept g image (v.readRun sha range b run).2 ∧
      (∀ upto, (v.readRun sha range b run).1 = .ok upto →
        ∀ n, b ≤ n → n ≤ upto → (v.readRun sha range b run).2.data.holds n = true) ∧
      (Honest range image v.tree.calls → ∃ upto, (v.readRun sha range b run).1 =
        .ok upto) := by
  have hanswered : ∀ k ∈ List.range run, b + k < g.data ∧
      blockIn ((range.read v.tree.calls (b * sectorsPerBlock) (run * blockSize)).bytes
        (run * blockSize)) k ∈ answered range := by
    intro k hk
    have hk := mem_range.mp hk
    exact ⟨by omega, _, b, run, k, hk, rfl⟩
  have hfits : (b + run) * blockSize ≤ image.length := by
    rw [hpub.length]
    exact Nat.mul_le_mul_right _ (hrun.trans hpub.laid.data_le_total)
  have hhonestRun := fun hhonest : Honest range image v.tree.calls =>
    hhonest.run le_rfl hfits
  rw [Volume.readRun]
  generalize range.read v.tree.calls (b * sectorsPerBlock) (run * blockSize) = answer
    at hanswered hhonestRun ⊢
  have hv' : Volume.Valid g image { v with
      tree := { v.tree with calls := v.tree.calls + 1 } } :=
    ⟨hv.geometry, ⟨hv.tree.cache, hv.tree.top⟩, hv.data, hv.inTime, hv.cap⟩
  by_cases hok : answer.ok = false
  · simp only [if_pos hok]
    refine ⟨⟨hv', Nat.le_succ _⟩, (fun _ h => by cases h), fun hhonest => ?_⟩
    exact absurd ((hhonestRun hhonest).1.symm.trans hok) Bool.noConfusion
  · simp only [if_neg hok]
    obtain ⟨hkept, hheld, hsucceeds⟩ :=
      hpub.keepRun_spec hanswered hv' (Lru.recent_nil hv.inTime)
      (by rw [length_nil, length_range, zero_add]; exact hroom)
    cases hkeep : keepRun sha range b (answer.bytes (run * blockSize)) (List.range run)
        { v with tree := { v.tree with calls := v.tree.calls + 1 } } with
    | mk result v'' =>
      rw [hkeep] at hkept hheld hsucceeds
      have hcalls := (Nat.le_succ v.tree.calls).trans hkept.calls
      cases result with
      | error bad =>
        refine ⟨⟨hkept.valid, hcalls⟩, (fun _ h => by cases h), fun hhonest => ?_⟩
        have hsame := (hhonestRun hhonest).2
        cases hsucceeds (hhonest.mono (Nat.le_succ _)) fun k hk =>
          hsame k (mem_range.mp hk)
      | ok _ =>
        refine ⟨⟨hkept.valid, hcalls⟩, fun upto hupto n hbn hn => ?_, fun _ => ⟨_, rfl⟩⟩
        obtain rfl := ok.inj hupto
        obtain ⟨run', hrecent, -, hnew⟩ := hheld rfl
        have hmem := hnew (n - b) (mem_range.mpr (by omega))
        rw [Nat.add_sub_cancel' hbn] at hmem
        exact hrecent.holds hmem

omit hpub in
/-- A run stays within the data and the cache. -/
theorem runLength_le {blocks b : ℕ} {c : Lru (List UInt8)} (last : ℕ) (hb : b < blocks)
    (hcap : 0 < c.cap) :
    0 < runLength blocks c b last ∧ b + runLength blocks c b last ≤ blocks ∧
      runLength blocks c b last ≤ c.cap := by
  rw [runLength]
  generalize hmore : ((List.range (min readaheadBlocks c.cap - 1)).takeWhile fun k =>
    b + (1 + k) ≤ last && b + (1 + k) < blocks && !c.holds (b + (1 + k))) = more
  have hle : more.length ≤ min readaheadBlocks c.cap - 1 := by
    rw [← hmore]
    exact ( takeWhile_prefix _).length_le.trans_eq length_range
  refine ⟨by omega, ?_, by omega⟩
  rcases Nat.eq_zero_or_pos more.length with hzero | hpos
  · omega
  · -- the last block of the run is within the data
    have hrange : more = List.range more.length := by
      have htake : more <+: List.range (min readaheadBlocks c.cap - 1) := by
        rw [← hmore]
        exact takeWhile_prefix _
      rw [prefix_iff_eq_take, take_range, Nat.min_eq_left hle] at htake
      exact htake
    have hmem : more.length - 1 ∈ more := by
      rw [hrange, length_range, mem_range]
      exact Nat.sub_lt hpos Nat.one_pos
    rw [← hmore] at hmem
    have hlast := mem_takeWhile_imp hmem
    rw [Bool.and_eq_true, Bool.and_eq_true, hmore] at hlast
    have hlt := of_decide_eq_true hlast.1.2
    omega

theorem Published.load_spec {b : ℕ} (last : ℕ) {v : Volume} (hv : v.Valid g image)
    (hb : b < g.data) :
    v.Kept g image (v.load sha range b last).2 ∧
      (∀ upto, (v.load sha range b last).1 = .ok upto →
        ∀ n, b ≤ n → n ≤ upto → (v.load sha range b last).2.data.holds n = true) ∧
      (Honest range image v.tree.calls → ∃ upto,
        (v.load sha range b last).1 = .ok upto) := by
  have hin : ¬ b ≥ v.geometry.data := by
    rw [hv.geometry]
    exact not_le.mpr hb
  rw [Volume.load, if_neg hin]
  have hvalid := hv.data.find b
  have htime := hv.inTime.find b
  have hcap : (v.data.find b).2.cap = v.data.cap := v.data.cap_find b
  cases hfind : v.data.find b with
  | mk found c =>
    rw [hfind] at hvalid htime hcap
    have hv' : Volume.Valid g image { v with data := c } :=
      ⟨hv.geometry, hv.tree, hvalid, htime, hcap ▸ hv.cap⟩
    cases found with
    | some i =>
      refine ⟨⟨hv', le_rfl⟩, fun upto hupto n hbn hn => ?_, fun _ => ⟨b, rfl⟩⟩
      obtain rfl := ok.inj hupto
      obtain rfl := le_antisymm hn hbn
      have hholds := v.data.holds_find n n
      rw [hfind] at hholds
      rw [hholds]
      exact Lru.holds_of_find (congrArg Prod.fst hfind)
    | none =>
      have hdata : v.geometry.data = g.data := congrArg Geometry.data hv.geometry
      obtain ⟨hpos, hrun, hroom⟩ := runLength_le last (hb.trans_eq hdata.symm) hv'.cap
      obtain ⟨hkept, hheld, hsucceeds⟩ :=
        hpub.readRun_spec hv' hpos (hrun.trans_eq hdata) hroom
      exact ⟨⟨hkept.valid, hkept.calls⟩, hheld, hsucceeds⟩

end Load

/-! ### A request's sectors -/

section Copy

variable {g : Geometry} {image : List UInt8} {v : Volume} (hv : v.Valid g image)
include hv

theorem Volume.Valid.peek (b : ℕ) : v.Kept g image (v.peek b).2 ∧
    (∀ n, (v.peek b).2.data.holds n = v.data.holds n) ∧
      (∀ block, (v.peek b).1 = some block → block = blockIn image b) ∧
      (v.data.holds b = true → ∃ block, (v.peek b).1 = some block) := by
  refine ⟨⟨⟨hv.geometry, hv.tree, hv.data.find b, hv.inTime.find b, ?_⟩, le_rfl⟩,
    v.data.holds_find b, fun block hblock => ?_, fun hholds => ?_⟩
  · rw [Volume.peek, Lru.cap_find]
    exact hv.cap
  · obtain ⟨i, hfind, rfl⟩ := Option.map_eq_some_iff.mp hblock
    obtain ⟨value, hvalue, hgenuine⟩ := hv.data.found hfind
    rw [hvalue]
    exact hgenuine
  · obtain ⟨i, hfind⟩ := Lru.find_of_holds hholds
    exact ⟨_, by rw [Volume.peek, hfind]; rfl⟩

omit hv in
/-- The part of a request that lies in one block. -/
theorem slice_block {s stop : ℕ} :
    slice (blockIn image (s / sectorsPerBlock)) (s % sectorsPerBlock * sectorSize)
        (sectorsAt s stop * sectorSize) =
      slice image (s * sectorSize) (sectorsAt s stop * sectorSize) := by
  have hfits : s % sectorsPerBlock * sectorSize + sectorsAt s stop * sectorSize ≤
      blockSize := by
    rw [← add_mul, sectorsAt, sectorsPerBlock, sectorSize, blockSize]
    omega
  have hoff : s / sectorsPerBlock * blockSize + s % sectorsPerBlock * sectorSize =
      s * sectorSize := by
    rw [sectorsPerBlock, sectorSize, blockSize]
    omega
  rw [blockIn, slice_slice hfits, hoff]

omit hv in
theorem sectorsAt_le {s stop : ℕ} (hs : s < stop) : s + sectorsAt s stop ≤ stop := by
  rw [sectorsAt]
  omega

/-- What is copied out is original, and nothing that is held is missed. -/
theorem Volume.Valid.copyOut {s stop : ℕ} (upto : ℕ) (out : List UInt8)
    (hs : s ≤ stop) :
    v.Kept g image (copyOut s stop upto out v).2 ∧
      (∀ s' out', (Verity.copyOut s stop upto out v).1 = .ok (s', out') → s' ≤ stop ∧
        out' = out ++ slice image (s * sectorSize) ((s' - s) * sectorSize)) ∧
      ((∀ n, s / sectorsPerBlock ≤ n → n ≤ upto → v.data.holds n = true) →
        ∃ s' out', (Verity.copyOut s stop upto out v).1 = .ok (s', out')) := by
  induction s, out, v using copyOut.induct stop upto with
  | case1 s out v hmore v' hpeek =>
    obtain ⟨hkept, -, -, hheld⟩ := hv.peek (s / sectorsPerBlock)
    rw [hpeek] at hkept hheld
    rw [copyOut_none hmore hpeek]
    refine ⟨hkept, (fun _ _ h => by cases h), fun hholds => ?_⟩
    obtain ⟨block, hblock⟩ := hheld (hholds _ le_rfl hmore.2)
    cases hblock
  | case2 s out v hmore off block v' hpeek ih =>
    obtain ⟨hkept, hsame, hblock, -⟩ := hv.peek (s / sectorsPerBlock)
    rw [hpeek] at hkept hsame hblock
    obtain rfl := hblock block rfl
    obtain ⟨hkept', hout, hsucceeds⟩ := ih hkept.valid (sectorsAt_le hmore.1)
    rw [copyOut_some hmore hpeek]
    refine ⟨hkept.trans hkept', fun s' out' hok => ?_,
      fun hholds => hsucceeds fun n hn hle => ?_⟩
    · obtain ⟨hstop, rfl⟩ := hout s' out' hok
      have hle :=
        copyOut_le (show Verity.copyOut _ stop upto _ v' =
          (.ok (s', _), _) from Prod.ext hok rfl)
      have hsplit : s' - s = sectorsAt s stop + (s' - (s + sectorsAt s stop)) := by
        omega
      refine ⟨hstop, ?_⟩
      rw [slice_block, append_assoc, hsplit, add_mul (sectorsAt s stop),
        slice_add, ← add_mul]
    · rw [hsame]
      exact hholds n ((Nat.div_le_div_right (Nat.le_add_right _ _)).trans hn) hle
  | case3 s out v hdone =>
    rw [copyOut_done hdone]
    refine ⟨⟨hv, le_rfl⟩, fun s' out' hok => ?_, fun _ => ⟨s, out, rfl⟩⟩
    obtain ⟨rfl, rfl⟩ := Prod.mk.inj (ok.inj hok)
    refine ⟨hs, ?_⟩
    rw [Nat.sub_self, zero_mul, slice, take_zero, append_nil]

end Copy

section Gather

variable {sha : Sha} {range : Range} {s stop last upto s' : ℕ} {out out' : List UInt8}
  {v v' v'' : Volume} {bad : Bad}

theorem gather_done (hdone : ¬ s < stop) :
    gather sha range s stop last out v = (.ok out, v) := by
  rw [gather, dif_neg hdone]

theorem gather_unloaded (hmore : s < stop)
    (hload : v.load sha range (s / sectorsPerBlock) last = (.error bad, v')) :
    gather sha range s stop last out v = (.error bad, v') := by
  rw [gather, dif_pos hmore]
  split
  · next heq =>
      obtain ⟨hbad, rfl⟩ := Prod.mk.inj (heq.symm.trans hload)
      rw [error.inj hbad]
  · next heq => cases heq.symm.trans hload

theorem gather_step (hmore : s < stop)
    (hload : v.load sha range (s / sectorsPerBlock) last = (.ok upto, v'))
    (hcopy : copyOut s stop upto out v' = (.ok (s', out'), v'')) :
    gather sha range s stop last out v = gather sha range s' stop last out' v'' := by
  rw [gather, dif_pos hmore]
  split
  · next heq => cases heq.symm.trans hload
  · next heq =>
      obtain ⟨hupto, rfl⟩ := Prod.mk.inj (heq.symm.trans hload)
      obtain rfl := ok.inj hupto
      split
      · next heq => cases heq.symm.trans hcopy
      · next heq =>
          obtain ⟨hok, rfl⟩ := Prod.mk.inj (heq.symm.trans hcopy)
          obtain ⟨rfl, rfl⟩ := Prod.mk.inj (ok.inj hok)
          rfl

variable (last out) in
/-- What a request gathers is original, and with an honest range it gathers all of
it. -/
theorem Published.gather_spec {g : Geometry} {rootHash image : List UInt8}
    (hpub : Published sha range g rootHash image) (hv : v.Valid g image)
    (hstop : stop ≤ g.data * sectorsPerBlock) (hs : s ≤ stop) :
    v.Kept g image (gather sha range s stop last out v).2 ∧
      (∀ out', (gather sha range s stop last out v).1 = .ok out' →
        out' = out ++ slice image (s * sectorSize) ((stop - s) * sectorSize)) ∧
      (Honest range image v.tree.calls →
        ∃ out', (gather sha range s stop last out v).1 = .ok out') := by
  induction hleft : stop - s using Nat.strong_induction_on generalizing s out v with
  | _ left ih =>
    by_cases hmore : s < stop
    · have hb : s / sectorsPerBlock < g.data := Nat.div_lt_of_lt_mul (by
        rw [mul_comm]
        exact hmore.trans_le hstop)
      obtain ⟨hkept, hheld, hloads⟩ := hpub.load_spec last hv hb
      cases hload : v.load sha range (s / sectorsPerBlock) last with
      | mk result v' =>
        rw [hload] at hkept hheld hloads
        cases result with
        | error bad =>
          rw [gather_unloaded hmore hload]
          refine ⟨hkept, nofun, fun hhonest => ?_⟩
          obtain ⟨upto, hok⟩ := hloads hhonest
          exact nomatch hok
        | ok upto =>
          obtain ⟨hkept', hout, hcopies⟩ := hkept.valid.copyOut upto out hs
          -- every block the load made ready is still held
          obtain ⟨s', out', hcopied⟩ := hcopies (hheld upto rfl)
          obtain ⟨hs', rfl⟩ := hout s' out' hcopied
          have hcopy : copyOut s stop upto out v' =
              (.ok (s', _), (copyOut s stop upto out v').2) :=
            Prod.ext hcopied rfl
          have hlt := copyOut_lt ⟨hmore, Volume.le_of_load sha range hload⟩ hcopy
          rw [gather_step hmore hload hcopy]
          obtain ⟨hkept'', hbytes, hgathers⟩ :=
            ih (stop - s') (by omega) _ hkept'.valid hs' rfl
          have hall := hkept.trans hkept'
          refine ⟨hall.trans hkept'', fun bytes hok => ?_, fun hhonest =>
            hgathers (hhonest.mono hall.calls)⟩
          have hsplit : left = s' - s + (stop - s') := by omega
          have hnext : s * sectorSize + (s' - s) * sectorSize = s' * sectorSize := by
            rw [← add_mul, Nat.add_sub_cancel' hlt.le]
          rw [hbytes bytes hok, append_assoc, hsplit, add_mul (s' - s),
            slice_add, hnext]
    · rw [gather_done hmore]
      refine ⟨⟨hv, le_rfl⟩, fun out' hok => ?_, fun _ => ⟨out, rfl⟩⟩
      obtain rfl : left = 0 := by omega
      rw [← ok.inj hok, zero_mul, slice, take_zero, append_nil]

end Gather

/-! ### The server -/

/-- A request for `count` sectors from `sector`, with `bufLen` bytes for the reply. -/
structure Request where
  sector : ℕ
  count : ℕ
  bufLen : ℕ

namespace Verityd

variable {sha : Sha} {range : Range} {g : Geometry} {rootHash image : List UInt8}
    {d : Verityd}

/-- One request after another. -/
def run (sha : Sha) (range : Range) (d : Verityd) (requests : List Request) : Verityd :=
  requests.foldl (fun d r => (d.read sha range r.sector r.count r.bufLen).2) d

/-- The calls made at the range so far. -/
def calls (d : Verityd) : ℕ :=
  match d.volume with
  | .error _ => 0
  | .ok v => v.tree.calls

/-- It serves a volume of which all that is held is original. -/
structure Serving (g : Geometry) (image : List UInt8) (d : Verityd) : Prop where
  volume : ∃ v, d.volume = .ok v ∧ v.Valid g image
  sectors : d.sectors = g.data * sectorsPerBlock
  scratch : d.scratch = maxSectors * sectorSize

theorem Serving.read (hpub : Published sha range g rootHash image)
    (hd : d.Serving g image)
    (sector count bufLen : ℕ) :
    (d.read sha range sector count bufLen).2.Serving g image ∧
      (∀ bytes, (d.read sha range sector count bufLen).1 = .ok bytes →
        (sector + count) * sectorSize ≤ g.data * blockSize ∧
        bytes = slice image (sector * sectorSize) (count * sectorSize)) ∧
      (Honest range image d.calls → 0 < count → count ≤ maxSectors →
        count * sectorSize + 4 ≤ bufLen → sector + count ≤ g.data * sectorsPerBlock →
        sector + count < 2 ^ 64 → ∃ bytes, (d.read sha range sector count bufLen).1 =
        .ok bytes) := by
  obtain ⟨v, hvolume, hv⟩ := hd.volume
  rw [Verityd.read]
  by_cases hzero : count = 0
  · rw [if_pos hzero]
    exact ⟨hd, nofun, fun _ hpos => absurd hzero hpos.ne'⟩
  rw [if_neg hzero]
  by_cases hmany : count > maxSectors
  · rw [if_pos hmany]
    exact ⟨hd, nofun, fun _ _ hfew => absurd hmany hfew.not_gt⟩
  rw [if_neg hmany]
  by_cases hlarge : count * sectorSize + 4 > bufLen ∨ count * sectorSize > d.scratch
  · rw [if_pos hlarge]
    refine ⟨hd, nofun, fun _ _ hfew hfits => absurd hlarge ?_⟩
    rw [hd.scratch, not_or, not_lt, not_lt]
    exact ⟨hfits, Nat.mul_le_mul_right _ hfew⟩
  rw [if_neg hlarge]
  by_cases hpast : sector + count ≥ 2 ^ 64 ∨ sector + count > d.sectors
  · rw [if_pos hpast]
    refine ⟨hd, nofun, fun _ _ _ _ hin hlt => absurd hpast ?_⟩
    rw [hd.sectors, not_or, not_le, not_lt]
    exact ⟨hlt, hin⟩
  rw [if_neg hpast]
  rw [not_or, not_lt, hd.sectors] at hpast
  obtain ⟨hkept, hbytes, hgathers⟩ :=
    hpub.gather_spec ((sector + count - 1) / sectorsPerBlock) []
    hv hpast.2 (Nat.le_add_right sector count)
  have hcalls : d.calls = v.tree.calls := by rw [calls, hvolume]
  simp only [hvolume]
  cases hgather : gather sha range sector (sector + count)
    ((sector + count - 1) / sectorsPerBlock) [] v with
  | mk result v' =>
    rw [hgather] at hkept hbytes hgathers
    cases result with
    | error bad =>
      refine ⟨⟨⟨v', rfl, hkept.valid⟩, hd.sectors, hd.scratch⟩, nofun,
        fun hhonest => ?_⟩
      obtain ⟨bytes, hok⟩ := hgathers (hcalls ▸ hhonest)
      exact nomatch hok
    | ok data =>
      refine ⟨⟨⟨v', rfl, hkept.valid⟩, hd.sectors, hd.scratch⟩,
        fun bytes hok => ⟨?_, ?_⟩,
        fun _ _ _ _ _ _ => ⟨data, rfl⟩⟩
      · calc
          (sector + count) * sectorSize ≤ g.data * sectorsPerBlock * sectorSize :=
            Nat.mul_le_mul_right _ hpast.2
          _ = g.data * blockSize := by
              rw [Nat.mul_assoc, sectorsPerBlock, sectorSize, blockSize]
      · rw [← ok.inj hok, hbytes data rfl, Nat.add_sub_cancel_left, nil_append]

/-- A run of requests keeps all that is held original. -/
theorem Serving.run (hpub : Published sha range g rootHash image)
    (hd : d.Serving g image)
    (requests : List Request) : (d.run sha range requests).Serving g image := by
  induction requests generalizing d with
  | nil => exact hd
  | cons r rest ih => exact ih (hd.read hpub r.sector r.count r.bufLen).1

end Verityd

end Redoubt.Verity
