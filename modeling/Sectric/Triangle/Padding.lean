import Sectric.Lib.Counter
import Sectric.Psi.Store
import Sectric.Triangle.Model

/-!
# Padding up to the degree bound

Two lists are filled up with random entries: the keys of a neighbour's store up
to `MAX_DEGREE`, and the receiver's set up to its square.  Both counts are
unsigned differences, and neither the maximum with zero nor the comparison with
an `int` counter catches one that wraps around.  `padding_exact_iff` says when
the entries appended are those of the difference of the integers.
-/

namespace Sectric

open Lib (sub64 sub64_of_le sub64_of_lt sub64_mod_left pushLoop pushLoop_eq_ok_iff)

variable {Seed : Type}

/-! ## The two lists -/

/-- The keys and the values `neighbor` passes to `Baxos::solve`. -/
def neighborSolveLists (cfg : PsiConfig) (prg : Prg Seed) (randomSeed : Seed) (idx : Word)
    (file : List Word) : List Block × List Block :=
  (padNeighbors cfg prg randomSeed (u64sToBlocks file),
    prg.genRandomBlocks (prg.fixedSeed idx.toNat) cfg.maxDegree)

theorem neighborTable_eq_solve (cfg : PsiConfig) (baxos : ℕ → ℕ → Baxos Seed) (prg : Prg Seed)
    (randomSeed : Seed) (idx : Word) (file : List Word) :
    neighborTable cfg baxos prg randomSeed idx file =
      (degreeBaxos cfg baxos).solve (neighborSolveLists cfg prg randomSeed idx file).1
        (neighborSolveLists cfg prg randomSeed idx file).2 (some (prg.fixedSeed idx.toNat)) :=
  rfl

/-- The two loops of `psi_ca_receiver` that fill `vec`, with their `int`
counters. -/
def receiverLoops (cfg : PsiConfig) (padding : ℕ → Word) (set : List Block) :
    Except String (List Word) := do
  let vec ← pushLoop (fun i => (set.getD i 0).fold) set.length []
  pushLoop padding (sub64 cfg.square set.length) vec

/-- The loops end exactly if both counts are an `int`, with the folds of the set
and as many random entries as the unsigned difference says. -/
theorem receiverLoops_eq_ok_iff {cfg : PsiConfig} {padding : ℕ → Word} {set : List Block}
    {vec : List Word} :
    receiverLoops cfg padding set = .ok vec ↔
      set.length < 2 ^ 31 ∧ sub64 cfg.square set.length < 2 ^ 31 ∧
        vec = receiverVec cfg padding set := by
  have hfolds : (List.range set.length).map (fun i => (set.getD i 0).fold) =
      set.map Block.fold := by
    have hcopy := congrArg (List.map Block.fold) (Lib.map_getD_range set 0)
    rwa [List.map_map] at hcopy
  have hfirst := pushLoop_eq_ok_iff (fun i => (set.getD i 0).fold) set.length []
  rw [List.nil_append, hfolds] at hfirst
  rw [receiverLoops]
  cases hloop : pushLoop (fun i => (set.getD i 0).fold) set.length [] with
  | error e =>
      have hlong : ¬ set.length < 2 ^ 31 := by
        intro hlt
        cases hloop.symm.trans ((hfirst _).mpr ⟨hlt, rfl⟩)
      constructor
      · intro h
        cases h
      · rintro ⟨hlt, -⟩
        exact absurd hlt hlong
  | ok folds =>
      obtain ⟨hlt, rfl⟩ := (hfirst _).mp hloop
      have hsecond := pushLoop_eq_ok_iff padding (sub64 cfg.square set.length)
        (set.map Block.fold) vec
      refine Iff.trans hsecond ?_
      simp only [hlt, true_and]
      rfl

/-! ## The counts -/

theorem length_u64sToBlocks (file : List Word) : (u64sToBlocks file).length = file.length := by
  simp [u64sToBlocks]

/-- The padding of a neighbour's keys, whether or not there is any. -/
theorem padNeighbors_eq (cfg : PsiConfig) (prg : Prg Seed) (randomSeed : Seed)
    (neighbors : List Block) :
    padNeighbors cfg prg randomSeed neighbors =
      neighbors ++ prg.genRandomBlocks randomSeed (sub64 cfg.maxDegree neighbors.length) := by
  show (if 0 < max 0 (sub64 cfg.maxDegree neighbors.length) then _ else _) = _
  rw [Nat.zero_max]
  split
  · rfl
  · rename_i hzero
    rw [Nat.eq_zero_of_not_pos hzero]
    simp [Prg.genRandomBlocks]

/-- The keys of a store are padded to the degree bound, if it is not below them. -/
theorem padNeighbors_of_le {cfg : PsiConfig} (prg : Prg Seed) (randomSeed : Seed)
    {neighbors : List Block} (hdegree : cfg.maxDegree < 2 ^ 64)
    (hlen : neighbors.length ≤ cfg.maxDegree) :
    padNeighbors cfg prg randomSeed neighbors =
      neighbors ++ prg.genRandomBlocks randomSeed (cfg.maxDegree - neighbors.length) := by
  rw [padNeighbors_eq, sub64_of_le hlen hdegree]

/-- A padded list and the length of its padding. -/
def PaddedBy {α : Type} (xs ys : List α) (n : ℕ) : Prop := ∃ pad, ys = xs ++ pad ∧ pad.length = n

theorem paddedBy_append {α : Type} (xs pad : List α) (n : ℕ) :
    PaddedBy xs (xs ++ pad) n ↔ pad.length = n := by
  constructor
  · rintro ⟨pad', heq, hlen⟩
    rw [List.append_cancel_left heq]
    exact hlen
  · intro hlen
    exact ⟨pad, rfl, hlen⟩

/-- The receiver's count is that of the integers if the set fits the square. -/
theorem sub64_square_iff {square s : ℕ} (hs : s < 2 ^ 31) :
    (sub64 (square % 2 ^ 64) s < 2 ^ 31 ∧ sub64 (square % 2 ^ 64) s = square - s) ↔
      s ≤ square ∧ square - s < 2 ^ 31 := by
  rw [sub64_mod_left, sub64, Nat.mod_eq_of_lt (lt_trans hs (by decide))]
  constructor
  · rintro ⟨hsmall, heq⟩
    omega
  · rintro ⟨hle, hlt⟩
    omega

/-- The two programs append what the differences of the integers say, a negative
one being none.  If the file fits the bound, the store is solved for as many keys
as values, and the first keys are the ids of the file. -/
structure PadsExactly (cfg : PsiConfig) (prg : Prg Seed) (randomSeed : Seed) (padding : ℕ → Word)
    (idx : Word) (file : List Word) (set : List Block) : Prop where
  neighbor : PaddedBy (u64sToBlocks file) (neighborSolveLists cfg prg randomSeed idx file).1
    (cfg.maxDegree - file.length)
  receiver : ∃ vec, receiverLoops cfg padding set = .ok vec ∧
    PaddedBy (set.map Block.fold) vec (cfg.maxDegree * cfg.maxDegree - set.length)
  solve : file.length ≤ cfg.maxDegree →
    (neighborSolveLists cfg prg randomSeed idx file).1.length =
        (neighborSolveLists cfg prg randomSeed idx file).2.length ∧
      (neighborSolveLists cfg prg randomSeed idx file).1.take file.length = u64sToBlocks file

section Exact

variable (cfg : PsiConfig) (prg : Prg Seed) (randomSeed : Seed) (padding : ℕ → Word) (idx : Word)
  (file : List Word) (set : List Block)

/-- The neighbour's padding is exact if the file fits the bound. -/
theorem neighbor_padding_iff (hdegree : cfg.maxDegree < 2 ^ 64) (hfile : file.length < 2 ^ 64) :
    PaddedBy (u64sToBlocks file) (neighborSolveLists cfg prg randomSeed idx file).1
        (cfg.maxDegree - file.length) ↔ file.length ≤ cfg.maxDegree := by
  rw [neighborSolveLists, padNeighbors_eq, paddedBy_append, Prg.length_genRandomBlocks,
    length_u64sToBlocks]
  exact Lib.sub64_eq_sub_iff hdegree hfile

/-- The receiver's padding is exact if the set fits the square and the counters
stay an `int`. -/
theorem receiver_padding_iff :
    (∃ vec, receiverLoops cfg padding set = .ok vec ∧
        PaddedBy (set.map Block.fold) vec (cfg.maxDegree * cfg.maxDegree - set.length)) ↔
      set.length < 2 ^ 31 ∧ set.length ≤ cfg.maxDegree * cfg.maxDegree ∧
        cfg.maxDegree * cfg.maxDegree - set.length < 2 ^ 31 := by
  have hpad : PaddedBy (set.map Block.fold) (receiverVec cfg padding set)
      (cfg.maxDegree * cfg.maxDegree - set.length) ↔
        sub64 cfg.square set.length = cfg.maxDegree * cfg.maxDegree - set.length := by
    show PaddedBy _ (set.map Block.fold ++
      (List.range (sub64 cfg.square set.length)).map padding) _ ↔ _
    rw [paddedBy_append, List.length_map, List.length_range]
  constructor
  · rintro ⟨vec, hok, hexact⟩
    obtain ⟨hset, hsmall, rfl⟩ := receiverLoops_eq_ok_iff.mp hok
    exact ⟨hset, (sub64_square_iff hset).mp ⟨hsmall, hpad.mp hexact⟩⟩
  · rintro ⟨hset, hfits⟩
    obtain ⟨hsmall, heq⟩ := (sub64_square_iff hset).mpr hfits
    exact ⟨_, receiverLoops_eq_ok_iff.mpr ⟨hset, hsmall, rfl⟩, hpad.mpr heq⟩

/-- The padding is exact exactly if the file fits the degree bound, the set fits
its square, and the set and what it lacks are counted by an `int`. -/
theorem padding_exact_iff (hdegree : cfg.maxDegree < 2 ^ 64) (hfile : file.length < 2 ^ 64) :
    PadsExactly cfg prg randomSeed padding idx file set ↔
      file.length ≤ cfg.maxDegree ∧ set.length < 2 ^ 31 ∧
        set.length ≤ cfg.maxDegree * cfg.maxDegree ∧
        cfg.maxDegree * cfg.maxDegree - set.length < 2 ^ 31 := by
  rw [← neighbor_padding_iff cfg prg randomSeed idx file hdegree hfile,
    ← receiver_padding_iff cfg padding set]
  constructor
  · intro h
    exact ⟨h.neighbor, h.receiver⟩
  · rintro ⟨hneighbor, hreceiver⟩
    refine ⟨hneighbor, hreceiver, ?_⟩
    intro hle
    obtain ⟨pad, hkeys, hlen⟩ := hneighbor
    rw [hkeys, List.length_append, hlen, length_u64sToBlocks]
    constructor
    · simp only [neighborSolveLists, Prg.length_genRandomBlocks]
      omega
    · rw [← length_u64sToBlocks file, List.take_left]

end Exact

theorem padding_exact_of_two_neighbors :
    PadsExactly ⟨4, 8, 3⟩ countingPrg 7 (BitVec.ofNat 64) 1 [2, 3] [5, 6, 7] :=
  (padding_exact_iff ⟨4, 8, 3⟩ countingPrg 7 (BitVec.ofNat 64) 1 [2, 3] [5, 6, 7] (by decide)
    (by decide)).mpr ⟨by decide, by decide, by decide, by decide⟩

/-- A file of two ids with a degree bound of one: `neighbor` asks for
`2 ^ 64 - 1` random blocks. -/
theorem padding_wraps_for_two_ids :
    (neighborSolveLists ⟨1, 8, 3⟩ countingPrg 7 1 [2, 3]).1 =
        u64sToBlocks [2, 3] ++ countingPrg.genRandomBlocks 7 (2 ^ 64 - 1) ∧
      ¬ PadsExactly ⟨1, 8, 3⟩ countingPrg 7 (BitVec.ofNat 64) 1 [2, 3] [5] := by
  have hcount : sub64 1 2 = 2 ^ 64 - 1 := by decide
  constructor
  · rw [neighborSolveLists, padNeighbors_eq, length_u64sToBlocks, ← hcount]
    rfl
  · intro h
    have hfits := (neighbor_padding_iff ⟨1, 8, 3⟩ countingPrg 7 1 [2, 3] (by decide)
      (by decide)).mp h.neighbor
    exact absurd hfits (by decide)

end Sectric
