import Sectric.Lib.Triangles
import Sectric.Psi.Session
import Sectric.Triangle.Padding
import Sectric.Triangle.Request

/-!
# A run for a target

A run for a target `x` starts from the files of the vertices.  Every neighbour sends a
store, and the target decodes each of them at each of its neighbours.  A cell of the
result is one of the generator's blocks exactly when the two neighbours are adjacent
(`TargetRun.decode_mem_iff`), so the cells that are count every edge of the link of `x`
twice (`TargetRun.countP_cells`).
-/

namespace Sectric

open Lib Finset

/-! ## Vertices and files -/

section Vertices

variable {n : ℕ}

/-- The number of a vertex in a file. -/
def vertexWord (v : Fin n) : Word := BitVec.ofNat 64 v

/-- The block of a vertex. -/
def vertexBlock (v : Fin n) : Block := makeBlock 0 (vertexWord v)

theorem toNat_vertexWord (hn : n ≤ 2 ^ 31) (v : Fin n) : (vertexWord v).toNat = v := by
  rw [vertexWord, BitVec.toNat_ofNat]
  omega

theorem vertexWord_injective (hn : n ≤ 2 ^ 31) : Function.Injective (vertexWord (n := n)) := by
  intro u v h
  have hnat := congrArg BitVec.toNat h
  rw [toNat_vertexWord hn, toNat_vertexWord hn] at hnat
  exact Fin.ext hnat

theorem vertexBlock_injective (hn : n ≤ 2 ^ 31) : Function.Injective (vertexBlock (n := n)) := by
  intro u v h
  exact vertexWord_injective hn (makeBlock_inj.mp h).2

/-- The files list the neighbours of every vertex, each once. -/
structure FilesOf (G : SimpleGraph (Fin n)) (file : Word → List Word) : Prop where
  nodup : ∀ v : Fin n, (file (vertexWord v)).Nodup
  mem_iff : ∀ (v : Fin n) (w : Word), w ∈ file (vertexWord v) ↔ ∃ u, G.Adj v u ∧ vertexWord u = w

variable {G : SimpleGraph (Fin n)} {file : Word → List Word}

theorem FilesOf.exists_list (hn : n ≤ 2 ^ 31) (h : FilesOf G file) (v : Fin n) :
    ∃ l : List (Fin n), file (vertexWord v) = l.map vertexWord ∧ l.Nodup ∧
      ∀ u, u ∈ l ↔ G.Adj v u := by
  have hrange : file (vertexWord v) ∈ Set.range (List.map (vertexWord (n := n))) := by
    rw [Set.range_list_map]
    intro w hw
    obtain ⟨u, -, rfl⟩ := (h.mem_iff v w).mp hw
    exact ⟨u, rfl⟩
  obtain ⟨l, hl⟩ := hrange
  have hnodup := h.nodup v
  rw [← hl] at hnodup
  refine ⟨l, hl.symm, hnodup.of_map _, ?_⟩
  intro u
  rw [← List.mem_map_of_injective (vertexWord_injective hn), hl, h.mem_iff]
  constructor
  · rintro ⟨w, hadj, hw⟩
    rwa [← vertexWord_injective hn hw]
  · intro hadj
    exact ⟨u, hadj, rfl⟩

/-- A file has as many numbers as the vertex has neighbours. -/
theorem length_eq_degree [DecidableRel G.Adj] {v : Fin n} {l : List (Fin n)} (hnodup : l.Nodup)
    (hmem : ∀ u, u ∈ l ↔ G.Adj v u) : l.length = G.degree v := by
  rw [← SimpleGraph.card_neighborFinset_eq_degree, ← List.toFinset_card_of_nodup hnodup]
  congr 1
  ext u
  rw [List.mem_toFinset, SimpleGraph.mem_neighborFinset, hmem]

end Vertices

/-! ## The program -/

/-- What the processes for a target start from: the files, the seeds that
`neighbor` and `neighbor_request` draw, what the server finds in its memory, the
connections of the neighbours, and what the exchange runs on. -/
structure TargetRun (Seed : Type) where
  cfg : PsiConfig
  h : HashFamily
  prg : Prg Seed
  lib : Libraries Seed
  random : SessionRandomness Seed
  file : Word → List Word
  neighborSeed : Word → Seed
  rowSeed : ℕ → Seed
  stale : ℕ → BitVec 32
  pending : List Conn

namespace TargetRun

variable {Seed : Type} (s : TargetRun Seed)

/-- The keys of the store of a vertex. -/
def keys (idx : Word) : List Block :=
  padNeighbors s.cfg s.prg (s.neighborSeed idx) (u64sToBlocks (s.file idx))

/-- The store a vertex sends. -/
def table (idx : Word) : List Block :=
  neighborTable s.cfg s.lib.baxos s.prg (s.neighborSeed idx) idx (s.file idx)

/-- The set of the party with the given role. -/
def set (role target : Word) : Option (Except String (List Block)) :=
  testRequest s.cfg s.lib.baxos s.prg s.rowSeed s.stale role target noValue
    (u64sToBlocks (s.file target)) s.pending

/-- The set of the target whose neighbours are the vertices of `l`. -/
def cells {n : ℕ} (l : List (Fin n)) : List Block :=
  rowMajor l.length s.cfg.maxDegree (requestCell (degreeBaxos s.cfg s.lib.baxos) s.prg s.rowSeed
    s.table (l.map vertexBlock))

/-- `main` of both parties.  It ends before the exchange if a set is empty. -/
def run (target : Word) : Option (Except String PsiRun) := do
  let receiver ← s.set 1 target
  let sender ← s.set 0 target
  return do
    let receiverSet ← receiver
    let senderSet ← sender
    if receiverSet.length = 0 ∨ senderSet.length = 0 then .error "return 0"
    else
      psiCa s.cfg s.h s.prg (s.lib.subprotocols s.cfg s.random .int) s.random.toPsiRandomness
        receiverSet senderSet

end TargetRun

/-! ## Assumptions -/

/-- Three hash functions, ids of 31 bits, a square of 64 bits, and no more keys of
the sender than an `int` counts. -/
structure PsiConfig.Fits (cfg : PsiConfig) : Prop where
  nfuns : cfg.nfuns = 3
  vertices : cfg.numVertex ≤ 2 ^ 31
  square : cfg.maxDegree * cfg.maxDegree < 2 ^ 64
  items : cfg.maxDegree * cfg.numVertex * 3 < 2 ^ 31

namespace TargetRun

variable {Seed : Type}

/-- The folds of the other party. -/
def folds (s : TargetRun Seed) : List Word := (vertexBlocks s.cfg s.prg).map Block.fold

/-- What the generators and stores are relied on not to do. -/
structure Random (s : TargetRun Seed) (G : SimpleGraph (Fin s.cfg.numVertex))
    [DecidableRel G.Adj] (x : Fin s.cfg.numVertex) : Prop where
  /-- The blocks of the vertices' generators have different folds. -/
  folds : s.folds.Nodup
  /-- The random keys of a store are different, and none is a vertex. -/
  keys : ∀ u, G.Adj x u →
    (s.prg.genRandomBlocks (s.neighborSeed (vertexWord u)) (s.cfg.maxDegree - G.degree u)).Nodup ∧
      ∀ w : Fin s.cfg.numVertex, vertexBlock w ∉
        s.prg.genRandomBlocks (s.neighborSeed (vertexWord u)) (s.cfg.maxDegree - G.degree u)
  /-- A store decodes to nothing of the other party at keys it does not have. -/
  unprogrammed : ∀ u w, G.Adj x u → G.Adj x w → vertexBlock w ∉ s.keys (vertexWord u) →
    ((degreeBaxos s.cfg s.lib.baxos).decodeKey (s.table (vertexWord u)) (vertexBlock w)).fold ∉
      s.folds
  /-- Nor do the random blocks in the rows give anything of the other party. -/
  rows : ∀ i < G.degree x, ∀ j, G.degree x ≤ j → j < s.cfg.maxDegree →
    (s.prg.block (s.rowSeed i) j).fold ∉ s.folds
  /-- Nor does the padding of the list. -/
  padding : ∀ i < s.cfg.square - G.degree x * s.cfg.maxDegree, s.random.padding i ∉ s.folds
  /-- No entry of the list is the dummy element. -/
  dummy : ∀ set, s.set 1 (vertexWord x) = some (.ok set) →
    dummyElement ∉ receiverVec s.cfg s.random.padding set
  /-- The stash stays empty. -/
  stash : ∀ run, s.run (vertexWord x) = some (.ok run) → run.table.stash = []
  /-- No bin matches by accident. -/
  accident : ∀ run, s.run (vertexWord x) = some (.ok run) → NoAccident s.cfg s.lib s.random run

end TargetRun

/-! ## The stores of the neighbours -/

section Stores

variable {Seed : Type} {cfg : PsiConfig}

theorem PsiConfig.Fits.maxDegree_lt (h : cfg.Fits) : cfg.maxDegree < 2 ^ 64 := by
  rcases Nat.eq_zero_or_pos cfg.maxDegree with hzero | hpos
  · rw [hzero]
    decide
  · exact (Nat.le_mul_of_pos_left _ hpos).trans_lt h.square

theorem PsiConfig.Fits.square_eq (h : cfg.Fits) : cfg.square = cfg.maxDegree * cfg.maxDegree :=
  Nat.mod_eq_of_lt h.square

theorem PsiConfig.Fits.realNum2_eq (h : cfg.Fits) :
    cfg.realNum2 = cfg.maxDegree * cfg.numVertex := by
  have hitems := h.items
  rw [PsiConfig.realNum2]
  omega

theorem length_vertexBlocks (cfg : PsiConfig) (prg : Prg Seed) :
    (vertexBlocks cfg prg).length = cfg.maxDegree * cfg.numVertex := by
  rw [vertexBlocks, List.length_flatMap]
  simp [Nat.mul_comm]

theorem mem_vertexBlocks {prg : Prg Seed} {v p : ℕ} (hv : v < cfg.numVertex)
    (hp : p < cfg.maxDegree) : prg.block (prg.fixedSeed v) p ∈ vertexBlocks cfg prg :=
  List.mem_flatMap.mpr ⟨v, List.mem_range.mpr hv,
    List.mem_map_of_mem (List.mem_range.mpr hp)⟩

variable {s : TargetRun Seed} {G : SimpleGraph (Fin s.cfg.numVertex)} [DecidableRel G.Adj]
  {x : Fin s.cfg.numVertex} (hfits : s.cfg.Fits) (hdegree : ∀ v, G.degree v ≤ s.cfg.maxDegree)
  (hfiles : FilesOf G s.file) (hstore : (degreeBaxos s.cfg s.lib.baxos).Exact s.cfg.maxDegree)
  (hrandom : s.Random G x)

include hfits hdegree

/-- The keys of the store of a vertex: its neighbours, and then random blocks. -/
theorem TargetRun.keys_eq (u : Fin s.cfg.numVertex) {l : List (Fin s.cfg.numVertex)}
    (hl : s.file (vertexWord u) = l.map vertexWord) (hnodup : l.Nodup)
    (hmem : ∀ w, w ∈ l ↔ G.Adj u w) :
    s.keys (vertexWord u) = l.map vertexBlock ++
      s.prg.genRandomBlocks (s.neighborSeed (vertexWord u)) (s.cfg.maxDegree - G.degree u) := by
  have hblocks : u64sToBlocks (s.file (vertexWord u)) = l.map vertexBlock := by
    rw [u64sToBlocks, hl, List.map_map]
    rfl
  have hlen : (l.map vertexBlock).length = G.degree u := by
    rw [List.length_map, length_eq_degree hnodup hmem]
  rw [TargetRun.keys, hblocks, padNeighbors_of_le _ _ hfits.maxDegree_lt (hlen ▸ hdegree u), hlen]

include hfiles in
theorem TargetRun.length_keys (u : Fin s.cfg.numVertex) :
    (s.keys (vertexWord u)).length = s.cfg.maxDegree := by
  obtain ⟨l, hl, hnodup, hmem⟩ := hfiles.exists_list hfits.vertices u
  rw [TargetRun.keys_eq hfits hdegree u hl hnodup hmem, List.length_append, List.length_map,
    Prg.length_genRandomBlocks, length_eq_degree hnodup hmem]
  exact Nat.add_sub_cancel' (hdegree u)

theorem TargetRun.Random.nodup_keys (hrandom : s.Random G x) {u : Fin s.cfg.numVertex}
    (hu : G.Adj x u) {l : List (Fin s.cfg.numVertex)}
    (hl : s.file (vertexWord u) = l.map vertexWord) (hnodup : l.Nodup)
    (hmem : ∀ w, w ∈ l ↔ G.Adj u w) : (s.keys (vertexWord u)).Nodup := by
  obtain ⟨hpadding, hfresh⟩ := hrandom.keys u hu
  rw [TargetRun.keys_eq hfits hdegree u hl hnodup hmem]
  refine List.Nodup.append (hnodup.map (vertexBlock_injective hfits.vertices)) hpadding ?_
  intro key hkey hkey'
  obtain ⟨w, -, rfl⟩ := List.mem_map.mp hkey
  exact hfresh w hkey'

include hfiles hstore hrandom

/-- The store of a neighbour decodes to a block of the other party at the
vertices adjacent to it. -/
theorem TargetRun.decode_mem_iff {u w : Fin s.cfg.numVertex} (hu : G.Adj x u) (hw : G.Adj x w) :
    ((degreeBaxos s.cfg s.lib.baxos).decodeKey (s.table (vertexWord u)) (vertexBlock w)).fold ∈
      s.folds ↔ G.Adj u w := by
  obtain ⟨l, hl, hnodup, hmem⟩ := hfiles.exists_list hfits.vertices u
  have hkeys := TargetRun.keys_eq hfits hdegree u hl hnodup hmem
  have hlen : l.length = G.degree u := length_eq_degree hnodup hmem
  constructor
  · intro hfold
    by_contra hadj
    refine hrandom.unprogrammed u w hu hw ?_ hfold
    rw [hkeys, List.mem_append, not_or]
    refine ⟨?_, (hrandom.keys u hu).2 w⟩
    rw [List.mem_map_of_injective (vertexBlock_injective hfits.vertices), hmem]
    exact hadj
  · intro hadj
    obtain ⟨p, hp⟩ := List.mem_iff_getElem?.mp ((hmem w).mpr hadj)
    obtain ⟨hlt, -⟩ := List.getElem?_eq_some_iff.mp hp
    have hroom : p < s.cfg.maxDegree := hlt.trans_le (hlen ▸ hdegree u)
    have hlenKeys := TargetRun.length_keys hfits hdegree hfiles u
    have hseed : (vertexWord u).toNat = u := toNat_vertexWord hfits.vertices u
    have hcell : (degreeBaxos s.cfg s.lib.baxos).decodeKey (s.table (vertexWord u))
        (vertexBlock w) = s.prg.block (s.prg.fixedSeed u) p := by
      refine hstore _ _ _ hlenKeys.le ?_
        (hrandom.nodup_keys hfits hdegree hu hl hnodup hmem) p _ _ ?_ ?_
      · exact (Prg.length_genRandomBlocks ..).trans hlenKeys.symm
      · rw [hkeys, List.getElem?_append_left (by rwa [List.length_map]), List.getElem?_map, hp]
        rfl
      · rw [Prg.genRandomBlocks, List.getElem?_map, List.getElem?_range hroom, hseed]
        rfl
    rw [hcell]
    exact List.mem_map_of_mem (mem_vertexBlocks u.isLt hroom)

/-- The count over the cells of the target's result. -/
theorem TargetRun.countP_cells {l : List (Fin s.cfg.numVertex)} (hnodup : l.Nodup)
    (hmem : ∀ u, u ∈ l ↔ G.Adj x u) :
    (s.cells l).countP (fun b => decide (b.fold ∈ s.folds)) = 2 * #(link G x).edgeFinset := by
  have hlen : l.length = G.degree x := length_eq_degree hnodup hmem
  have hblock : ∀ {i : ℕ} (hi : i < l.length), (l.map vertexBlock).getD i 0 = vertexBlock l[i] := by
    intro i hi
    simp [List.getD_eq_getElem?_getD, hi]
  rw [TargetRun.cells, countP_rowMajor, ← sum_countP_adj hnodup hmem]
  congr 1
  apply List.ext_getElem
  · simp
  · intro i hi _
    rw [List.length_map, List.length_range] at hi
    rw [List.getElem_map, List.getElem_map, List.getElem_range]
    refine countP_range_eq (fun w => decide (G.Adj l[i] w)) l (hlen ▸ hdegree x) ?_
    intro j hj
    have hu : G.Adj x l[i] := (hmem _).mp (List.getElem_mem hi)
    rw [requestCell, List.length_map, hblock hi]
    rcases Nat.lt_or_ge j l.length with hjl | hjl
    · have hw : G.Adj x l[j] := (hmem _).mp (List.getElem_mem hjl)
      rw [if_pos hjl, hblock hjl, List.getElem?_eq_getElem hjl]
      have hcell := TargetRun.decode_mem_iff hfits hdegree hfiles hstore hrandom hu hw
      rw [← decide_eq_decide] at hcell
      rw [vertexBlock, low_makeBlock]
      exact hcell
    · rw [if_neg (not_lt.mpr hjl), List.getElem?_eq_none hjl,
        decide_eq_false (hrandom.rows i (hlen ▸ hi) j (hlen ▸ hjl) hj)]
      rfl

end Stores

end Sectric
