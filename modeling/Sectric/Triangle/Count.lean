import Sectric.Triangle.Target

/-!
# The local triangle count

The target's set are the cells it has decoded, and the other party has all of the
generator's blocks.  So the cardinality of the intersection counts every edge of the
link of the target twice, and half of it is the number of triangles through the target,
as long as the bins fit the equality test (`localTriangleCount_iff`).
-/

namespace Sectric

open Lib Finset

/-! ## The two sets -/

section Sets

variable {Seed : Type} {s : TargetRun Seed} (hfits : s.cfg.Fits)

include hfits

theorem vertexWord_ne_noValue (v : Fin s.cfg.numVertex) : vertexWord v ≠ noValue := by
  intro h
  have hnat := congrArg BitVec.toNat h
  have hv := v.isLt
  have hn := hfits.vertices
  rw [toNat_vertexWord hn, noValue, BitVec.toNat_allOnes] at hnat
  omega

/-- The other party has the blocks of all vertices. -/
theorem TargetRun.set_zero (x : Fin s.cfg.numVertex) :
    s.set 0 (vertexWord x) = some (.ok (vertexBlocks s.cfg s.prg)) := by
  rw [TargetRun.set, testRequest, if_neg fun h => absurd h.2 (by decide),
    if_neg (not_not.mpr rfl), if_pos (vertexWord_ne_noValue hfits x)]

variable {x : Fin s.cfg.numVertex} {l : List (Fin s.cfg.numVertex)}
  (hl : s.file (vertexWord x) = l.map vertexWord) (hne : 0 < l.length) (hnodup : l.Nodup)
  (hlen : l.length ≤ s.cfg.maxDegree)
  (harrivals : Arrivals s.table (s.file (vertexWord x)) s.pending)

include hl hne hnodup hlen harrivals

/-- The target has its cells. -/
theorem TargetRun.set_one : s.set 1 (vertexWord x) = some (.ok (s.cells l)) := by
  have hblocks : u64sToBlocks (s.file (vertexWord x)) = l.map vertexBlock := by
    rw [u64sToBlocks, hl, List.map_map]
    rfl
  have hids : neighborIds (l.map vertexBlock) = s.file (vertexWord x) := by
    rw [neighborIds, hl, List.map_map]
    exact List.map_congr_left fun v _ => low_makeBlock ..
  have hsmall : ∀ id ∈ neighborIds (l.map vertexBlock), id.toNat < 2 ^ 31 := by
    intro id hid
    rw [hids, hl] at hid
    obtain ⟨v, -, rfl⟩ := List.mem_map.mp hid
    rw [toNat_vertexWord hfits.vertices]
    exact v.isLt.trans_le hfits.vertices
  have hbuffer : (degreeBaxos s.cfg s.lib.baxos).outputSize * 16 + 4 < 2 ^ 63 := by
    obtain ⟨v, hv⟩ := List.exists_mem_of_length_pos hne
    obtain ⟨c, -, hcarries⟩ := harrivals.cover (vertexWord v) (hl ▸ List.mem_map_of_mem hv)
    have hcounted := hcarries.counted
    rw [show (s.table (vertexWord v)).length = _ from Baxos.length_solve ..] at hcounted
    omega
  obtain ⟨-, -, -, -, -, -, -, -, -, hrequest⟩ := neighborRequest_ok s.cfg s.lib.baxos s.prg
    (l.map vertexBlock) s.table (by simpa using List.ne_nil_of_length_pos hne)
    (by rwa [List.length_map])
    (by rw [hids, hl]; exact hnodup.map (vertexWord_injective hfits.vertices)) hsmall hbuffer
    (fun id _ => (Baxos.length_solve ..).le) (hids.symm ▸ harrivals) s.rowSeed s.stale
  rw [List.length_map] at hrequest
  rw [TargetRun.set, testRequest, if_pos ⟨vertexWord_ne_noValue hfits x, rfl⟩, hblocks, hrequest]
  rfl

omit hfits hl hne hnodup harrivals in
theorem TargetRun.length_cells_le (hfits : s.cfg.Fits) : (s.cells l).length ≤ s.cfg.square := by
  rw [TargetRun.cells, length_rowMajor, hfits.square_eq]
  exact Nat.mul_le_mul_right _ hlen

/-- A run for a target exchanges the two sets. -/
theorem TargetRun.run_eq : s.run (vertexWord x) =
    some (psiCa s.cfg s.h s.prg (s.lib.subprotocols s.cfg s.random .int) s.random.toPsiRandomness
      (s.cells l) (vertexBlocks s.cfg s.prg)) := by
  have hpos : 0 < s.cfg.maxDegree := hne.trans_le hlen
  have hsets : ¬ ((s.cells l).length = 0 ∨ (vertexBlocks s.cfg s.prg).length = 0) := by
    rw [TargetRun.cells, length_rowMajor, length_vertexBlocks, not_or]
    exact ⟨(Nat.mul_pos hne hpos).ne', (Nat.mul_pos hpos x.pos).ne'⟩
  rw [TargetRun.run, TargetRun.set_one hfits hl hne hnodup hlen harrivals,
    TargetRun.set_zero hfits]
  show some (if (s.cells l).length = 0 ∨ (vertexBlocks s.cfg s.prg).length = 0 then _ else _) = _
  rw [if_neg hsets]

omit hl hnodup harrivals in
theorem PsiConfig.Fits.square_pos : 0 < s.cfg.square := by
  have hpos : 0 < s.cfg.maxDegree := hne.trans_le hlen
  rw [hfits.square_eq]
  exact Nat.mul_pos hpos hpos

/-- With more bins than the equality test holds a run ends there. -/
theorem TargetRun.run_overflow (hrange : 26420807 < s.cfg.square) :
    s.run (vertexWord x) = some overflow := by
  rw [TargetRun.run_eq hfits hl hne hnodup hlen harrivals]
  exact congrArg some (psiCa_error (s.cfg.nbins_pos (hfits.square_pos hne hlen))
    (by rw [hfits.nfuns]; decide) (Libraries.blockEquality_overflow hrange s.lib s.random))

/-- Else a run for a target ends well.  Without accidents, and with an empty stash, it
reports how many entries of the target's padded list are the other party's. -/
theorem TargetRun.run_ok (hrange : s.cfg.square ≤ 26420807)
    (hlib : s.lib.Lawful s.cfg s.random) (hfolds : s.folds.Nodup)
    (hdummy : dummyElement ∉ receiverVec s.cfg s.random.padding (s.cells l)) :
    ∃ run, s.run (vertexWord x) = some (.ok run) ∧
      run.vec = receiverVec s.cfg s.random.padding (s.cells l) ∧
      receiverTable s.cfg s.h run.vec = .ok run.table ∧
      (NoAccident s.cfg s.lib s.random run → run.table.stash = [] →
        run.blockAns = BitVec.ofNat 128 (countAll run.vec s.folds)) := by
  have hsender : (vertexBlocks s.cfg s.prg).length = s.cfg.realNum2 := by
    rw [length_vertexBlocks, hfits.realNum2_eq]
  have hitems : s.cfg.realNum2 * s.cfg.nfuns ≤ s.cfg.okvsItems := by
    have hbound := hfits.items
    rw [hfits.realNum2_eq, hfits.nfuns, PsiConfig.okvsItems, Nat.mod_eq_of_lt (by omega)]
  obtain ⟨run, hrun, hvec, htable, hcount⟩ := hlib.count (h := s.h) (hfits.square_pos hne hlen)
    hrange (by rw [hfits.nfuns]; decide) (by rw [hfits.nfuns]; decide) hsender hitems
    (TargetRun.length_cells_le hlen hfits) hfolds hdummy
  refine ⟨run, ?_, hvec, htable, hcount⟩
  rw [TargetRun.run_eq hfits hl hne hnodup hlen harrivals, hrun]

end Sets

/-! ## The main result -/

/-- The padding of the list, where it has room for the set. -/
theorem receiverVec_eq {cfg : PsiConfig} (padding : ℕ → Word) {set : List Block}
    (hlen : set.length ≤ cfg.square) : receiverVec cfg padding set =
      set.map Block.fold ++ (List.range (cfg.square - set.length)).map padding := by
  have hsquare : cfg.square < 2 ^ 64 := Nat.mod_lt _ (by decide)
  have hcount : (cfg.square + (2 ^ 64 - set.length % 2 ^ 64)) % 2 ^ 64 =
      cfg.square - set.length := by
    omega
  rw [receiverVec, hcount]

/-- The padding of the list does not count. -/
theorem countAll_receiverVec {cfg : PsiConfig} {padding : ℕ → Word} {set : List Block}
    {folds : List Word} (hlen : set.length ≤ cfg.square)
    (hpadding : ∀ i < cfg.square - set.length, padding i ∉ folds) :
    countAll (receiverVec cfg padding set) folds =
      set.countP fun b => decide (b.fold ∈ folds) := by
  rw [countAll, receiverVec_eq padding hlen, List.countP_append, List.countP_map, List.countP_map]
  refine (congrArg₂ _ rfl (List.countP_eq_zero.mpr ?_)).trans (Nat.add_zero _)
  intro i hi
  rw [Function.comp_apply, decide_eq_true_eq]
  exact hpadding i (List.mem_range.mp hi)

section Main

variable {Seed : Type} (s : TargetRun Seed) (G : SimpleGraph (Fin s.cfg.numVertex))
  [DecidableRel G.Adj] (x : Fin s.cfg.numVertex) (hfits : s.cfg.Fits)
  (hdegree : ∀ v, G.degree v ≤ s.cfg.maxDegree) (hx : 0 < G.degree x) (hfiles : FilesOf G s.file)
  (hlib : s.lib.Lawful s.cfg s.random)
  (hstore : (degreeBaxos s.cfg s.lib.baxos).Exact s.cfg.maxDegree)
  (harrivals : Arrivals s.table (s.file (vertexWord x)) s.pending) (hrandom : s.Random G x)

include hfits hdegree hx hfiles hlib hstore harrivals hrandom

/-- With bins in range the entries that are counted are the cells of adjacent pairs,
and each pair has two. -/
theorem TargetRun.run_counts (hrange : s.cfg.square ≤ 26420807)
    {l : List (Fin s.cfg.numVertex)} (hl : s.file (vertexWord x) = l.map vertexWord)
    (hnodup : l.Nodup) (hmem : ∀ u, u ∈ l ↔ G.Adj x u) :
    ∃ run, s.run (vertexWord x) = some (.ok run) ∧ run.result = #(link G x).edgeFinset := by
  have hdeg : l.length = G.degree x := length_eq_degree hnodup hmem
  have hne : 0 < l.length := hdeg ▸ hx
  have hlen : l.length ≤ s.cfg.maxDegree := hdeg ▸ hdegree x
  have hone := TargetRun.set_one hfits hl hne hnodup hlen harrivals
  have hroom := TargetRun.length_cells_le hlen hfits
  obtain ⟨run, hrun, hvec, -, hcount⟩ := TargetRun.run_ok hfits hl hne hnodup hlen harrivals hrange
    hlib hrandom.folds (hrandom.dummy _ hone)
  have hcells := TargetRun.countP_cells hfits hdegree hfiles hstore hrandom hnodup hmem
  have hpadding : ∀ i < s.cfg.square - (s.cells l).length, s.random.padding i ∉ s.folds := by
    rw [TargetRun.cells, length_rowMajor, hdeg]
    exact hrandom.padding
  have hblockAns : run.blockAns = BitVec.ofNat 128 (2 * #(link G x).edgeFinset) := by
    rw [hcount (hrandom.accident run hrun) (hrandom.stash run hrun), hvec, ← hcells]
    exact congrArg _ (countAll_receiverVec hroom hpadding)
  have hle : 2 * #(link G x).edgeFinset ≤ (s.cells l).length :=
    hcells.symm.le.trans List.countP_le_length
  have hsquare : s.cfg.square < 2 ^ 64 := Nat.mod_lt _ (by decide)
  refine ⟨run, hrun, ?_⟩
  rw [PsiRun.result, hblockAns, low_ofNat]
  omega

end Main

/-! ## An instance -/

/-- Files that list the neighbours in a graph. -/
def listNeighbors {n : ℕ} (G : SimpleGraph (Fin n)) [DecidableRel G.Adj] (id : Word) : List Word :=
  ((List.finRange n).filter fun u => decide (∃ v, vertexWord v = id ∧ G.Adj v u)).map vertexWord

theorem listNeighbors_filesOf {n : ℕ} (hn : n ≤ 2 ^ 31) (G : SimpleGraph (Fin n))
    [DecidableRel G.Adj] : FilesOf G (listNeighbors G) where
  nodup _ := ((List.nodup_finRange n).filter _).map (vertexWord_injective hn)
  mem_iff v w := by
    rw [listNeighbors, List.mem_map]
    constructor
    · rintro ⟨u, hu, rfl⟩
      obtain ⟨v', hv, hadj⟩ := of_decide_eq_true (List.mem_filter.mp hu).2
      rw [vertexWord_injective hn hv] at hadj
      exact ⟨u, hadj, rfl⟩
    · rintro ⟨u, hadj, rfl⟩
      exact ⟨u, List.mem_filter.mpr ⟨List.mem_finRange u, decide_eq_true ⟨v, rfl, hadj⟩⟩, rfl⟩

/-- Four vertices with every edge but the one between 2 and 3. -/
def diamond : SimpleGraph (Fin 4) where
  Adj u v := u ≠ v ∧ u.val + v.val ≠ 5
  symm := ⟨fun u v h => ⟨h.1.symm, by rw [Nat.add_comm]; exact h.2⟩⟩
  loopless := ⟨fun _ h => h.1 rfl⟩

instance decidableDiamond : DecidableRel diamond.Adj := fun u v =>
  inferInstanceAs (Decidable (u ≠ v ∧ u.val + v.val ≠ 5))

/-- A seed that is a number. -/
def lowSeed (n : ℕ) : Block := makeBlock 0 (BitVec.ofNat 64 n)

/-- A generator that counts on from its seed. -/
def lowPrg : Prg Block where
  fixedSeed idx := lowSeed (2 ^ 20 * idx)
  block seed i := makeBlock 0 (seed.low + BitVec.ofNat 64 (i + 1))

theorem fold_makeBlock_zero (w : Word) : (makeBlock 0 w).fold = w := by simp [Block.fold]

theorem fold_lowSeed (n : ℕ) : (lowSeed n).fold.toNat = n % 2 ^ 64 := by
  rw [lowSeed, fold_makeBlock_zero, BitVec.toNat_ofNat]

theorem fold_lowPrg (n i : ℕ) :
    (lowPrg.block (lowSeed n) i).fold.toNat = (n + i + 1) % 2 ^ 64 := by
  show (makeBlock 0 ((lowSeed n).low + BitVec.ofNat 64 (i + 1))).fold.toNat = _
  rw [fold_makeBlock_zero, lowSeed, low_makeBlock, BitVec.toNat_add, BitVec.toNat_ofNat,
    BitVec.toNat_ofNat]
  omega

theorem nodup_lowPrg {n d : ℕ} (hn : n + d < 2 ^ 64) :
    (lowPrg.genRandomBlocks (lowSeed n) d).Nodup := by
  refine List.Nodup.map_on ?_ List.nodup_range
  intro i hi j hj h
  rw [List.mem_range] at hi hj
  have hfold := congrArg (fun b => b.fold.toNat) h
  simp only [fold_lowPrg] at hfold
  omega

/-- The neighbours of vertex 0. -/
def diamondNeighbors : List (Fin 4) := [1, 2, 3]

theorem diamondNeighbors_nodup : diamondNeighbors.Nodup := by decide

theorem diamond_degree_le (v : Fin 4) : diamond.degree v ≤ 3 := by
  revert v
  decide

/-- A run for vertex 0 of the diamond, with a degree bound of `d` and an OPRF of the
given capacity.  The neighbours connect in the order 2, 1, 3. -/
def diamondRunOf (d capacity : ℕ) : TargetRun Block :=
  let cfg : PsiConfig := { maxDegree := d, numVertex := 4, nfuns := 3 }
  { cfg := cfg
    h := shiftHash
    prg := lowPrg
    lib := sampleLibraries capacity
    random := { sampleSession with
      padding := fun i => BitVec.ofNat 64 (2 ^ 60 + 100 + i)
      okvsSeed := makeBlock 1 0 }
    file := listNeighbors diamond
    neighborSeed := fun _ => lowSeed (2 ^ 40)
    rowSeed := fun i => lowSeed (2 ^ 50 + 2 ^ 20 * i)
    stale := fun _ => 0
    pending := [2, 1, 3].map fun id =>
      { bytes := neighbor cfg (sampleLibraries capacity).baxos lowPrg (lowSeed (2 ^ 40)) id
          (listNeighbors diamond id)
        grain := fun _ => 1499 } }

section Diamond

variable {d capacity : ℕ}

theorem diamondRunOf_file :
    (diamondRunOf d capacity).file (vertexWord (0 : Fin 4)) = diamondNeighbors.map vertexWord := by
  show listNeighbors diamond _ = _
  decide +kernel

theorem mem_diamondRunOf_folds {w : Word} (h : w ∈ (diamondRunOf d capacity).folds)
    (hd : d < 2 ^ 20) : ∃ v < 4, ∃ i < d, w.toNat = 2 ^ 20 * v + i + 1 := by
  obtain ⟨b, hb, rfl⟩ := List.mem_map.mp h
  obtain ⟨v, hv, hb⟩ := List.mem_flatMap.mp hb
  obtain ⟨i, hi, rfl⟩ := List.mem_map.mp hb
  have hv : v < 4 := List.mem_range.mp hv
  have hi : i < d := List.mem_range.mp hi
  refine ⟨v, hv, i, hi, (fold_lowPrg ..).trans ?_⟩
  omega

variable (hd : 3 ≤ d) (hd' : d < 2 ^ 20)

include hd' in
theorem diamondRunOf_fits : (diamondRunOf d capacity).cfg.Fits where
  nfuns := rfl
  vertices := by
    show 4 ≤ 2 ^ 31
    decide
  square := by
    show d * d < 2 ^ 64
    nlinarith
  items := by
    show d * 4 * 3 < 2 ^ 31
    omega

include hd' in
theorem diamondRunOf_folds : (diamondRunOf d capacity).folds.Nodup := by
  rw [TargetRun.folds, vertexBlocks, List.map_flatMap, List.nodup_flatMap]
  constructor
  · intro v hv
    have hv : v < 4 := List.mem_range.mp hv
    rw [Prg.genRandomBlocks, List.map_map]
    refine List.Nodup.map_on ?_ List.nodup_range
    intro i hi j hj h
    have hi : i < d := List.mem_range.mp hi
    have hj : j < d := List.mem_range.mp hj
    have hfold := congrArg BitVec.toNat h
    rw [Function.comp_apply, Function.comp_apply] at hfold
    have hi' := fold_lowPrg (2 ^ 20 * v) i
    have hj' := fold_lowPrg (2 ^ 20 * v) j
    have hsum := hi'.symm.trans (hfold.trans hj')
    omega
  · refine List.nodup_range.imp_of_mem ?_
    intro u v hu hv hne w hwu hwv
    have hu : u < 4 := List.mem_range.mp hu
    have hv : v < 4 := List.mem_range.mp hv
    obtain ⟨b, hb, rfl⟩ := List.mem_map.mp hwu
    obtain ⟨i, hi, rfl⟩ := List.mem_map.mp hb
    obtain ⟨b, hb, heq⟩ := List.mem_map.mp hwv
    obtain ⟨j, hj, rfl⟩ := List.mem_map.mp hb
    have hi : i < d := List.mem_range.mp hi
    have hj : j < d := List.mem_range.mp hj
    have hsum := (fold_lowPrg (2 ^ 20 * v) j).symm.trans
      ((congrArg BitVec.toNat heq).trans (fold_lowPrg (2 ^ 20 * u) i))
    omega

theorem diamondRunOf_store (hstore : d ≠ capacity) :
    degreeBaxos (diamondRunOf d capacity).cfg (diamondRunOf d capacity).lib.baxos = pairStore d :=
  if_neg hstore

variable (hstore : d ≠ capacity)

include hd' hstore in
theorem diamondRunOf_arrivals :
    Arrivals (diamondRunOf d capacity).table
      ((diamondRunOf d capacity).file (vertexWord (0 : Fin 4)))
      (diamondRunOf d capacity).pending := by
  have hlen : ∀ id, ((diamondRunOf d capacity).table id).length = d + (d + 1) := by
    intro id
    rw [TargetRun.table, neighborTable, diamondRunOf_store hstore, Baxos.length_solve]
    rfl
  have hconn : ∀ id, Conn.Carries
      { bytes := sendMessage id ((diamondRunOf d capacity).table id), grain := fun _ => 1499 } id
        ((diamondRunOf d capacity).table id) := by
    intro id
    refine ⟨rfl, show 3 ≤ 1499 by decide, ?_⟩
    rw [hlen]
    omega
  have hfile : (diamondRunOf d capacity).file (vertexWord (0 : Fin 4)) = [1, 2, 3] :=
    diamondRunOf_file
  rw [hfile]
  refine ⟨?_, ?_⟩
  · intro c hc
    obtain ⟨id, hid, rfl⟩ := List.mem_map.mp hc
    exact ⟨id, List.Perm.subset (List.Perm.swap 1 2 [3]) hid, hconn id⟩
  · intro id hid
    exact ⟨_, List.mem_map_of_mem (List.Perm.subset (List.Perm.swap 2 1 [3]) hid), hconn id⟩

theorem pairStore_exact (n : ℕ) : (pairStore n).Exact n :=
  fun _ _ prng hlen hvalues => pairStore_exactOn prng hlen hvalues

theorem diamondRunOf_pp
    (hcapacity : One.ull.shift ((diamondRunOf d capacity).cfg.num1 + 1) = capacity) :
    (diamondRunOf d capacity).lib.pp (diamondRunOf d capacity).cfg =
      { inputNum := capacity, okvs := nineCells, Delta := 0 } := by
  rw [Libraries.pp, setup, hcapacity]
  exact congrArg (fun okvs => PP.mk capacity okvs 0) (if_pos rfl)

theorem diamondRunOf_lawful
    (hcapacity : One.ull.shift ((diamondRunOf d capacity).cfg.num1 + 1) = capacity)
    (hitems : (diamondRunOf d capacity).cfg.okvsItems ≠ capacity) :
    (diamondRunOf d capacity).lib.Lawful (diamondRunOf d capacity).cfg
      (diamondRunOf d capacity).random where
  gf128Mul := carrylessMul_bilinear
  vole := by
    rw [diamondRunOf_pp hcapacity]
    exact ⟨rfl, rfl, rfl⟩
  linear := by
    rw [diamondRunOf_pp hcapacity]
    exact nineCells_linear 6
  key := by
    rw [diamondRunOf_pp hcapacity]
    show 9 ≤ 2 ^ 27
    decide
  solvesZero := by
    rw [diamondRunOf_pp hcapacity]
    exact fun _ _ _ key _ => nineCells_zero 6 key
  exact := by
    have hpairs : (diamondRunOf d capacity).lib.baxos (diamondRunOf d capacity).cfg.okvsItems
        (diamondRunOf d capacity).cfg.okvsBinSize =
          pairStore (diamondRunOf d capacity).cfg.okvsItems := if_neg hitems
    rw [hpairs]
    exact pairStore_exact _
  packing := lsbPacking_lawful
  radix := rfl
  otpack _ _ := selectPack_lawful (2 ^ 5)
  equality := sampleRandomness_valid
  iknpOt := idealSubprotocols_iknpOt

include hd in
theorem diamond_degree_le_of (v : Fin 4) : diamond.degree v ≤ d := (diamond_degree_le v).trans hd

include hd hd'

theorem diamondRunOf_keys (u : Fin 4) :
    ((diamondRunOf d capacity).keys (vertexWord u)).length = d :=
  @TargetRun.length_keys Block (diamondRunOf d capacity) diamond decidableDiamond
    (diamondRunOf_fits hd') (diamond_degree_le_of hd) (listNeighbors_filesOf (by decide) diamond) u

include hstore

omit hd hd' in
theorem diamondRunOf_table (u : Fin 4) : (diamondRunOf d capacity).table (vertexWord u) =
    (pairStore d).solve ((diamondRunOf d capacity).keys (vertexWord u))
      (lowPrg.genRandomBlocks (lowSeed (2 ^ 20 * u)) d) (some (lowSeed (2 ^ 20 * u))) := by
  have hu : (vertexWord u).toNat = u := toNat_vertexWord (by decide) u
  rw [TargetRun.table, neighborTable, diamondRunOf_store hstore, hu]
  rfl

/-- What a store of the diamond decodes to is below `2 ^ 60`. -/
theorem diamondRunOf_decode (u : Fin 4) (key : Block) :
    ((pairStore d).decodeKey ((diamondRunOf d capacity).table (vertexWord u)) key).fold.toNat <
      2 ^ 60 := by
  have hkeys : ((diamondRunOf d capacity).keys (vertexWord u)).length = d :=
    diamondRunOf_keys hd hd' u
  have hlt := u.isLt
  rw [diamondRunOf_table hstore, decodeKey_pairStore _ hkeys.le
    ((Prg.length_genRandomBlocks ..).trans hkeys.symm), List.getD_eq_getElem?_getD,
    Prg.genRandomBlocks, List.getElem?_map]
  cases hcell : (List.range d)[(fillTo d 0 ((diamondRunOf d capacity).keys
      (vertexWord u))).idxOf key]? with
  | none =>
      show (lowSeed (2 ^ 20 * u)).fold.toNat < 2 ^ 60
      rw [fold_lowSeed]
      omega
  | some i =>
      have hi : i < d := List.mem_range.mp (List.mem_of_getElem? hcell)
      show (lowPrg.block (lowSeed (2 ^ 20 * u)) i).fold.toNat < 2 ^ 60
      rw [fold_lowPrg]
      omega

/-- At a key it does not have a store decodes to its seed. -/
theorem diamondRunOf_unprogrammed (u : Fin 4) {key : Block}
    (hkey : key ∉ (diamondRunOf d capacity).keys (vertexWord u)) :
    ((pairStore d).decodeKey ((diamondRunOf d capacity).table (vertexWord u)) key).fold ∉
      (diamondRunOf d capacity).folds := by
  have hkeys : ((diamondRunOf d capacity).keys (vertexWord u)).length = d :=
    diamondRunOf_keys hd hd' u
  have hlt := u.isLt
  intro hin
  obtain ⟨v, hv, i, hi, hsum⟩ := mem_diamondRunOf_folds hin hd'
  rw [diamondRunOf_table hstore, pairStore_unprogrammed _ hkeys.le
    ((Prg.length_genRandomBlocks ..).trans hkeys.symm) hkey, Option.getD_some, fold_lowSeed] at hsum
  omega

/-- No cell of the target's result is above `2 ^ 60`. -/
theorem diamondRunOf_cells {b : Block} (hb : b ∈ (diamondRunOf d capacity).cells diamondNeighbors) :
    b.fold.toNat < 2 ^ 60 := by
  obtain ⟨i, hi, j, hj, rfl⟩ := mem_rowMajor.mp hb
  rw [requestCell]
  split
  · have hneighbor : ((diamondNeighbors.map vertexBlock).getD i 0).low =
        vertexWord (diamondNeighbors[i]) := by
      rw [List.getD_eq_getElem _ _ (by rwa [List.length_map]), List.getElem_map, vertexBlock,
        low_makeBlock]
    rw [hneighbor, diamondRunOf_store hstore]
    exact diamondRunOf_decode hd hd' hstore _ _
  · show (lowPrg.block (lowSeed (2 ^ 50 + 2 ^ 20 * i)) j).fold.toNat < 2 ^ 60
    have hi : i < 3 := hi
    have hj : j < d := hj
    rw [fold_lowPrg]
    omega

theorem diamondRunOf_dummy : dummyElement ∉ receiverVec (diamondRunOf d capacity).cfg
    (diamondRunOf d capacity).random.padding
      ((diamondRunOf d capacity).cells diamondNeighbors) := by
  have hfits : (diamondRunOf d capacity).cfg.Fits := diamondRunOf_fits hd'
  have hdummy : dummyElement.toNat = 2 ^ 64 - 1 := rfl
  have hsquare : (diamondRunOf d capacity).cfg.square = d * d := hfits.square_eq
  have hlt : d * d < 2 ^ 40 := by nlinarith
  have hroom : ((diamondRunOf d capacity).cells diamondNeighbors).length ≤
      (diamondRunOf d capacity).cfg.square :=
    TargetRun.length_cells_le (s := diamondRunOf d capacity) (l := diamondNeighbors) hd hfits
  rw [receiverVec_eq _ hroom, List.mem_append, not_or]
  constructor
  · intro h
    obtain ⟨b, hb, heq⟩ := List.mem_map.mp h
    have hcell := diamondRunOf_cells hd hd' hstore hb
    rw [heq, hdummy] at hcell
    omega
  · intro h
    obtain ⟨i, hi, heq⟩ := List.mem_map.mp h
    have hi := List.mem_range.mp hi
    have hpadding : ((diamondRunOf d capacity).random.padding i).toNat =
        (2 ^ 60 + 100 + i) % 2 ^ 64 := BitVec.toNat_ofNat ..
    rw [heq, hdummy] at hpadding
    rw [hsquare] at hi
    omega

omit hd hstore in
/-- The random keys of a store are different, and none is a vertex. -/
theorem diamondRunOf_randomKeys (u : Fin 4) :
    (lowPrg.genRandomBlocks (lowSeed (2 ^ 40)) (d - diamond.degree u)).Nodup ∧
      ∀ w : Fin 4, vertexBlock w ∉
        lowPrg.genRandomBlocks (lowSeed (2 ^ 40)) (d - diamond.degree u) := by
  refine ⟨nodup_lowPrg (by omega), ?_⟩
  intro w hw
  obtain ⟨i, hi, heq⟩ := List.mem_map.mp hw
  have hi := List.mem_range.mp hi
  have hfold : (lowPrg.block (lowSeed (2 ^ 40)) i).fold.toNat = (vertexWord w).toNat := by
    rw [heq, vertexBlock, fold_makeBlock_zero]
  rw [fold_lowPrg, toNat_vertexWord (by decide)] at hfold
  omega

omit hd hstore in
/-- The random cells of a row are not the other party's. -/
theorem diamondRunOf_rows {i j : ℕ} (hi : i < diamond.degree 0) (hj : j < d) :
    (lowPrg.block (lowSeed (2 ^ 50 + 2 ^ 20 * i)) j).fold ∉ (diamondRunOf d capacity).folds := by
  intro hin
  have hi : i < 3 := hi.trans_le (diamond_degree_le 0)
  obtain ⟨v, hv, k, hk, hsum⟩ := mem_diamondRunOf_folds hin hd'
  rw [fold_lowPrg] at hsum
  omega

omit hd hstore in
/-- Nor is the padding. -/
theorem diamondRunOf_padding {i : ℕ} (hi : i < 2 ^ 40) :
    BitVec.ofNat 64 (2 ^ 60 + 100 + i) ∉ (diamondRunOf d capacity).folds := by
  intro hin
  obtain ⟨v, hv, k, hk, hsum⟩ := mem_diamondRunOf_folds hin hd'
  rw [BitVec.toNat_ofNat] at hsum
  omega

/-- What the generators and stores are relied on holds of the diamond, if the stash
stays empty and nothing matches by accident. -/
theorem diamondRunOf_random
    (hstash : ∀ run, (diamondRunOf d capacity).run (vertexWord (0 : Fin 4)) = some (.ok run) →
      run.table.stash = [])
    (haccident : ∀ run, (diamondRunOf d capacity).run (vertexWord (0 : Fin 4)) = some (.ok run) →
      NoAccident (diamondRunOf d capacity).cfg (diamondRunOf d capacity).lib
        (diamondRunOf d capacity).random run) :
    @TargetRun.Random Block (diamondRunOf d capacity) diamond decidableDiamond (0 : Fin 4) := by
  have hfits : (diamondRunOf d capacity).cfg.Fits := diamondRunOf_fits hd'
  have hset := TargetRun.set_one (l := diamondNeighbors) hfits diamondRunOf_file (Nat.succ_pos 2)
    diamondNeighbors_nodup hd (diamondRunOf_arrivals hd' hstore)
  have hunprogrammed : ∀ u w : Fin 4, diamond.Adj 0 u → diamond.Adj 0 w →
      vertexBlock w ∉ (diamondRunOf d capacity).keys (vertexWord u) →
      ((degreeBaxos (diamondRunOf d capacity).cfg (diamondRunOf d capacity).lib.baxos).decodeKey
        ((diamondRunOf d capacity).table (vertexWord u)) (vertexBlock w)).fold ∉
          (diamondRunOf d capacity).folds := by
    intro u w _ _ hkey
    rw [diamondRunOf_store hstore]
    exact diamondRunOf_unprogrammed hd hd' hstore u hkey
  have hpadding : ∀ i < (diamondRunOf d capacity).cfg.square - diamond.degree 0 * d,
      BitVec.ofNat 64 (2 ^ 60 + 100 + i) ∉ (diamondRunOf d capacity).folds := by
    intro i hi
    have hsquare : (diamondRunOf d capacity).cfg.square = d * d := hfits.square_eq
    have hlt : d * d < 2 ^ 40 := by nlinarith
    exact diamondRunOf_padding hd' (by omega)
  refine @TargetRun.Random.mk Block (diamondRunOf d capacity) diamond decidableDiamond (0 : Fin 4)
    (diamondRunOf_folds hd') (fun u _ => diamondRunOf_randomKeys hd' u) hunprogrammed
    (fun _ hi _ _ hj => diamondRunOf_rows hd' hi hj) hpadding ?_ hstash haccident
  intro set h
  rw [hset, Option.some.injEq, Except.ok.injEq] at h
  rw [← h]
  exact diamondRunOf_dummy hd hd' hstore

end Diamond

/-- The diamond with a degree bound of 4. -/
def diamondRun : TargetRun Block := diamondRunOf 4 32

theorem diamondRun_fits : diamondRun.cfg.Fits := diamondRunOf_fits (by decide)

theorem diamondRun_file :
    diamondRun.file (vertexWord (0 : Fin 4)) = diamondNeighbors.map vertexWord :=
  diamondRunOf_file

theorem diamondRun_arrivals :
    Arrivals diamondRun.table (diamondRun.file (vertexWord (0 : Fin 4))) diamondRun.pending :=
  diamondRunOf_arrivals (by decide) (by decide)

theorem diamondRun_pp : diamondRun.lib.pp diamondRun.cfg =
    { inputNum := 32, okvs := nineCells, Delta := 0 } :=
  diamondRunOf_pp (by decide +kernel)

theorem diamondRun_lawful : diamondRun.lib.Lawful diamondRun.cfg diamondRun.random :=
  diamondRunOf_lawful (by decide +kernel) (by decide)

theorem diamondRun_range : diamondRun.cfg.square ≤ 26420807 := by decide

theorem diamondRun_folds : diamondRun.folds.Nodup := diamondRunOf_folds (by decide)

theorem diamondRun_dummy : dummyElement ∉ receiverVec diamondRun.cfg diamondRun.random.padding
    (diamondRun.cells diamondNeighbors) :=
  diamondRunOf_dummy le_add_self (by decide) (by decide)

/-- The OPRF values and the masks are below `2 ^ 64`, and a key that is not
programmed decodes to `2 ^ 64`. -/
theorem diamondRun_accident {run : PsiRun}
    (hrun : psiCa diamondRun.cfg diamondRun.h diamondRun.prg
      (diamondRun.lib.subprotocols diamondRun.cfg diamondRun.random .int)
      diamondRun.random.toPsiRandomness (diamondRun.cells diamondNeighbors)
      (vertexBlocks diamondRun.cfg diamondRun.prg) = .ok run) :
    NoAccident diamondRun.cfg diamondRun.lib diamondRun.random run := by
  intro p key b _ _ hkey heq
  obtain ⟨hokvs, hkeys, hvalues, hmasks, -⟩ := diamondRun_lawful.stored (by decide)
    diamondRun_range (by decide) (by decide) (by decide) (by decide) (by decide) diamondRun_folds
    hrun
  have hdecode : (diamondRun.lib.baxos diamondRun.cfg.okvsItems
      diamondRun.cfg.okvsBinSize).decodeKey run.okvs key = makeBlock 1 0 := by
    rw [hokvs]
    exact pairStore_unprogrammed (n := 48) (some (makeBlock 1 0)) hkeys hvalues hkey
  have hvalue : Block.high (diamondRun.lib.oprfValue diamondRun.cfg diamondRun.random run.ck key) =
      0 := by
    have hcells : ∀ i < 9, Block.high (nineC.getD 0 0 ^^^ nineC.getD i 0) = 0 := by
      decide +kernel
    rw [Libraries.oprfValue_eq diamondRun_lawful.gf128Mul diamondRun_lawful.vole
      diamondRun_lawful.linear diamondRun_lawful.key
      (by rw [diamondRun_pp]; exact nineCells_zero 6 key), diamondRun_pp]
    exact hcells _ (Nat.mod_lt _ (by decide))
  have hmask : Block.high (run.randomValues.getD b 0) = 0 := by
    obtain ⟨n, hn⟩ : ∃ n, diamondRun.cfg.nbins = n := ⟨_, rfl⟩
    rw [hmasks, hn, Prg.genRandomBlocks, List.getD_eq_getElem?_getD, List.getElem?_map]
    cases (List.range n)[b]? with
    | none => decide
    | some i => exact high_makeBlock ..
  have hhigh := congrArg Block.high heq
  rw [hdecode, high_xor, hvalue, hmask, high_makeBlock] at hhigh
  exact absurd hhigh (by decide)

theorem diamondRun_random :
    @TargetRun.Random Block diamondRun diamond decidableDiamond (0 : Fin 4) := by
  have hrun := TargetRun.run_eq diamondRun_fits diamondRun_file (by decide)
    diamondNeighbors_nodup (by decide) diamondRun_arrivals
  have hempty : (receiverTable diamondRun.cfg diamondRun.h (receiverVec diamondRun.cfg
      diamondRun.random.padding (diamondRun.cells diamondNeighbors))).map CuckooTable.stash =
        .ok [] := by
    decide +kernel
  refine diamondRunOf_random le_add_self (by decide) (by decide) ?_ ?_
  · intro run h
    obtain ⟨run', hrun', hvec, htable, -⟩ := TargetRun.run_ok diamondRun_fits diamondRun_file
      (by decide) diamondNeighbors_nodup (by decide) diamondRun_arrivals diamondRun_range
      diamondRun_lawful diamondRun_folds diamondRun_dummy
    obtain rfl : run = run' := Except.ok.inj (Option.some.inj (h.symm.trans hrun'))
    rw [hvec] at htable
    have hstash := congrArg (Except.map CuckooTable.stash) htable
    exact Except.ok.inj (hstash.symm.trans hempty)
  · intro run h
    exact diamondRun_accident (Option.some.inj (hrun.symm.trans h))

/-- The diamond with a degree bound of 5141. -/
def wideRun : TargetRun Block := diamondRunOf 5141 (2 ^ 26)

end Sectric
