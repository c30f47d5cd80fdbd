import Sectric.Hashing.Simple
import Sectric.Lib.Loop

/-!
# The mapped simple table

`mapElementsToTable` of the simple table stores whole entries in `hash_table_`
and keeps the size of the fullest bin seen so far.  `asRaw2DVectorNoID` repeats
its loops without the stored table.  Both distribute the same sequence of pairs
by the same addresses, so the rows are the bins read out entry by entry
(`mapping_agrees_with_rows`).

The stored members are in `BinnedTable`.  The rows of the direct path need none
of them.
-/

namespace Sectric

open Lib (pushAt buckets longest foldlM_appending)

/-! ## The model -/

/-- A `SimpleTable` with the members the mapping fills. -/
structure BinnedTable extends SimpleTable where
  /-- `hash_table_`. -/
  hashTable : List (List HashTableEntry)
  /-- `statistics_.max_observed_bin_size_`. -/
  maxObservedBinSize : ℕ

namespace BinnedTable

/-- A table no element has been mapped to yet. -/
def ofTable (t : SimpleTable) : BinnedTable where
  toSimpleTable := t
  hashTable := []
  maxObservedBinSize := 0

/-- `Insert`. -/
def insert (t : BinnedTable) (elements : List Word) : BinnedTable :=
  { t with elements := t.elements ++ elements }

/-- `AllocateTable`. -/
def allocateTable (t : BinnedTable) : Except String BinnedTable := do
  let numBins ← t.allocateBins
  return { t with
    numBins := numBins
    hashTable := t.hashTable.take numBins ++ List.replicate (numBins - t.hashTable.length) [] }

/-- The body of the inner loop: store the entry under function `i`. -/
def storeUnder (current : HashTableEntry) (t : BinnedTable) (i : ℕ) :
    Except String BinnedTable := do
  let entryCopy := current.setCurrentAddress i
  let address ← entryCopy.getAddressAt i
  let hashTable ← pushAt t.hashTable address entryCopy
  let binSize := (hashTable.getD address []).length
  return { t with
    hashTable := hashTable
    maxObservedBinSize :=
      if binSize > t.maxObservedBinSize then binSize else t.maxObservedBinSize }

/-- The body of the outer loop: store one element under every function. -/
def storeElement (h : HashFamily) (t : BinnedTable) (element : Word × ℕ) :
    Except String BinnedTable :=
  let current := (HashTableEntry.ofValue element.1 element.2 t.numOfHashFunctions
    t.numBins).setPossibleAddresses (hashToPosition h t.numOfHashFunctions element.1)
  (List.range t.numOfHashFunctions).foldlM (storeUnder current) t

/-- `MapElementsToTable`. -/
def mapElementsToTable (h : HashFamily) (t : BinnedTable) : Except String BinnedTable :=
  if t.mapped then .error "assert(!mapped_)"
  else do
    let t ← t.elements.zipIdx.foldlM (storeElement h) t
    return { t with mapped := true }

/-- `MapElements`: allocate, then map. -/
def mapElements (h : HashFamily) (t : BinnedTable) : Except String BinnedTable := do
  let t ← t.allocateTable
  t.mapElementsToTable h

end BinnedTable

/-- `_mm_set_epi64x(GetCurrentFunctinId(), GetElement())`. -/
def HashTableEntry.keyBlock (e : HashTableEntry) : Block :=
  makeBlock (BitVec.ofNat 64 e.currentFunctionId) e.value

/-- `AsRawVectorNoID`.  The loops read `hash_table_.at(i)` for every `i` below
`num_bins_`. -/
def BinnedTable.asRawVectorNoID (t : BinnedTable) : Except String (List Block) :=
  if t.hashTable.length < t.numBins then .error "std::out_of_range"
  else .ok ((t.hashTable.take t.numBins).flatMap fun bin => bin.map HashTableEntry.keyBlock)

/-! ## The bins -/

/-- The entries the loops store: elements in order, functions in order. -/
def storedEntries (h : HashFamily) (numBins numOfHashFunctions : ℕ) (elements : List (Word × ℕ)) :
    List HashTableEntry :=
  elements.flatMap fun v => (List.range numOfHashFunctions).map fun f =>
    entryAt h numBins numOfHashFunctions v.1 v.2 f

/-- The address of an entry under its current function. -/
def entryAddress (h : HashFamily) (numBins : ℕ) (e : HashTableEntry) : ℕ :=
  h e.currentFunctionId e.value % numBins

/-- The table with its bins holding the given entries. -/
def BinnedTable.holding (h : HashFamily) (t : BinnedTable) (entries : List HashTableEntry) :
    BinnedTable :=
  let bins := buckets (entryAddress h t.numBins) id t.numBins entries
  { t with hashTable := bins, maxObservedBinSize := longest bins }

/-- Storing an entry appends it to its bin, and the maximum stays that of the
bins. -/
theorem storeUnder_holding {h : HashFamily} {t : BinnedTable} (hnb : 0 < t.numBins)
    (entries : List HashTableEntry) (v : Word) (k : ℕ) {f : ℕ} (hf : f < t.numOfHashFunctions) :
    BinnedTable.storeUnder (entryAt h t.numBins t.numOfHashFunctions v k 0)
        (t.holding h entries) f =
      .ok (t.holding h (entries ++ [entryAt h t.numBins t.numOfHashFunctions v k f])) := by
  let e := entryAt h t.numBins t.numOfHashFunctions v k f
  have hlt : entryAddress h t.numBins e < t.numBins := Nat.mod_lt _ hnb
  have haddr : e.getAddressAt f = .ok (entryAddress h t.numBins e) :=
    getAddressAt_entryAt h v k f hnb hf
  have hpush : pushAt (t.holding h entries).hashTable (entryAddress h t.numBins e) e =
      .ok (t.holding h (entries ++ [e])).hashTable := Lib.pushAt_buckets _ id entries hlt
  have hmax := Lib.longest_pushAt hpush
  have hcopy : (entryAt h t.numBins t.numOfHashFunctions v k 0).setCurrentAddress f = e := rfl
  rw [BinnedTable.storeUnder, hcopy]
  simp only [haddr, bind, Except.bind, hpush, pure, Except.pure]
  have hrunning : ∀ m n : ℕ, (if n > m then n else m) = max m n := by
    intro m n
    split <;> omega
  rw [hrunning]
  exact congrArg (fun n => Except.ok { t.holding h (entries ++ [e]) with maxObservedBinSize := n })
    hmax.symm

/-- Storing one element appends its entries, one per function. -/
theorem storeElement_holding {h : HashFamily} {t : BinnedTable} (hnb : 0 < t.numBins)
    (entries : List HashTableEntry) (element : Word × ℕ) :
    BinnedTable.storeElement h (t.holding h entries) element =
      .ok (t.holding h (entries ++ (List.range t.numOfHashFunctions).map
        (entryAt h t.numBins t.numOfHashFunctions element.1 element.2))) := by
  have hloop := foldlM_appending (t.holding h)
    (fun f => [entryAt h t.numBins t.numOfHashFunctions element.1 element.2 f])
    (List.range t.numOfHashFunctions) entries fun f hf entries =>
      storeUnder_holding hnb entries element.1 element.2 (List.mem_range.mp hf)
  rw [← List.map_eq_flatMap] at hloop
  exact hloop

/-- Storing all elements. -/
theorem storeElements_holding {h : HashFamily} {t : BinnedTable} (hnb : 0 < t.numBins)
    (elements : List (Word × ℕ)) (entries : List HashTableEntry) :
    elements.foldlM (BinnedTable.storeElement h) (t.holding h entries) =
      .ok (t.holding h (entries ++ storedEntries h t.numBins t.numOfHashFunctions elements)) :=
  foldlM_appending (t.holding h) _ elements entries fun element _ entries =>
    storeElement_holding hnb entries element

/-- `MapElements` of a table nothing is stored in. -/
theorem mapElements_holding {h : HashFamily} {t : BinnedTable} {n : ℕ}
    (hbins : t.allocateBins = .ok n) (hnb : 0 < n) (hmapped : t.mapped = false)
    (hfresh : t.hashTable = []) (hmax : t.maxObservedBinSize = 0) :
    t.mapElements h =
      .ok { ({ t with numBins := n } : BinnedTable).holding h
        (storedEntries h n t.numOfHashFunctions t.elements.zipIdx) with mapped := true } := by
  let allocated : BinnedTable := { t with numBins := n }
  have halloc : t.allocateTable = .ok (allocated.holding h []) := by
    rw [BinnedTable.allocateTable]
    simp only [hbins, bind, Except.bind, hfresh]
    simp [BinnedTable.holding, Lib.buckets_nil, pure, Except.pure, allocated, hmax]
  have hloop := storeElements_holding (h := h) (t := allocated) hnb t.elements.zipIdx []
  rw [List.nil_append] at hloop
  have hunmapped : (allocated.holding h []).mapped = false := hmapped
  have helements : (allocated.holding h []).elements = t.elements := rfl
  rw [BinnedTable.mapElements, halloc]
  simp only [bind, Except.bind, BinnedTable.mapElementsToTable, hunmapped, Bool.false_eq_true,
    if_false, helements, hloop]
  rfl

/-- A table of the bins of given entries can be read out. -/
theorem asRawVectorNoID_holding (h : HashFamily) (t : BinnedTable) (entries : List HashTableEntry)
    (mapped : Bool) :
    ({ t.holding h entries with mapped := mapped } : BinnedTable).asRawVectorNoID =
      .ok ((buckets (entryAddress h t.numBins) id t.numBins entries).flatMap fun bin =>
        bin.map HashTableEntry.keyBlock) := by
  have hlen : (buckets (entryAddress h t.numBins) id t.numBins entries).length = t.numBins :=
    Lib.length_buckets _ _ _ _
  rw [BinnedTable.asRawVectorNoID]
  simp only [BinnedTable.holding, hlen, lt_irrefl, if_false, List.take_of_length_le hlen.le]

/-! ## The two paths -/

/-- The rows list the key blocks of the stored entries. -/
theorem simpleRows_eq_bins (h : HashFamily) (nb nf : ℕ) (elements : List Word) :
    simpleRows h nb nf elements =
      (buckets (entryAddress h nb) id nb (storedEntries h nb nf elements.zipIdx)).map
        (List.map HashTableEntry.keyBlock) := by
  have hpairs : filedPairs nf elements = (storedEntries h nb nf elements.zipIdx).map
      fun e => (e.currentFunctionId, e.value) := by
    rw [filedPairs, storedEntries, List.map_flatMap]
    conv_lhs => rw [← List.zipIdx_map_fst 0 elements, List.flatMap_map]
    simp only [List.map_map]
    rfl
  rw [simpleRows, hpairs, Lib.buckets_map, Lib.map_map_buckets]
  rfl

/-- On two tables built alike, the rows of the direct path are the bins of the
mapped one, entry by entry.  So their concatenation is what the mapped table
reads out, and its statistics hold the length of the longest row. -/
theorem mapping_agrees_with_rows (h : HashFamily) (nb nf : ℕ) (elements : List Word)
    (hnb : 0 < nb) :
    ∃ (rows : List (List Block)) (t : BinnedTable),
      ((SimpleTable.ofNumOfBins nb nf).insert elements).asRaw2DVectorNoID h = .ok (rows, 0) ∧
      (BinnedTable.ofTable ((SimpleTable.ofNumOfBins nb nf).insert elements)).mapElements h =
        .ok t ∧
      rows = t.hashTable.map (fun bin => bin.map fun e =>
        makeBlock (BitVec.ofNat 64 e.currentFunctionId) e.value) ∧
      t.asRawVectorNoID = .ok rows.flatten ∧
      t.maxObservedBinSize = longest rows := by
  let fresh := (SimpleTable.ofNumOfBins nb nf).insert elements
  have hbins : fresh.allocateBins = .ok nb := HashingTable.allocateBins_of_pos hnb rfl
  have hmap := mapElements_holding (h := h) (t := .ofTable fresh) hbins hnb rfl rfl rfl
  have hrows := simpleRows_eq_bins h nb nf elements
  refine ⟨_, _, asRaw2DVectorNoID_eq h fresh hnb, hmap, hrows, ?_, ?_⟩
  · rw [asRawVectorNoID_holding]
    simp only [List.flatMap_def]
    exact congrArg (fun rows => Except.ok (List.flatten rows)) hrows.symm
  · have hlongest := congrArg longest hrows
    rw [Lib.longest_map_map] at hlongest
    exact hlongest.symm

theorem mapping_agrees_with_rows_on_repeated :
    ∃ (rows : List (List Block)) (t : BinnedTable),
      ((SimpleTable.ofNumOfBins 8 3).insert [5, 5, 6]).asRaw2DVectorNoID (fun f e => f * e.toNat) =
        .ok (rows, 0) ∧
      t.asRawVectorNoID = .ok rows.flatten ∧ t.maxObservedBinSize = longest rows := by
  obtain ⟨rows, t, hrows, -, -, hraw, hmax⟩ :=
    mapping_agrees_with_rows (fun f e => f * e.toNat) 8 3 [5, 5, 6] (by decide)
  exact ⟨rows, t, hrows, hraw, hmax⟩

end Sectric
