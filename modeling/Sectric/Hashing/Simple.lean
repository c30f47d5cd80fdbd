import Sectric.Lib.Buckets
import Sectric.Hashing.Table

/-!
# The simple table

The simple table files every element under every hash function, so a bin holds
all the pairs of a function id and an element that hash to it.
`asRaw2DVectorNoID` fills the bins directly.  `asRaw2DVectorNoID_eq` says which
rows it returns: row `b` lists the pairs with address `b`, elements in order
and the functions of one element in order.
-/

namespace Sectric

open Lib (pushAt pushAll buckets pushAll_eq buckets_nil mem_bucket_iff foldlM_flatMap
  foldlM_congr)

/-! ## The model -/

/-- `SimpleTable`.  The members for padding and for the mapped table play no
part in the rows below. -/
structure SimpleTable extends HashingTable

namespace SimpleTable

/-- The constructor from a number of bins. -/
def ofNumOfBins (numOfBins numOfHashFunctions : ℕ) : SimpleTable where
  epsilon := 0
  numBins := numOfBins
  numOfHashFunctions := numOfHashFunctions
  elements := []
  mapped := false

/-- `SetNumOfHashFunctions`. -/
def setNumOfHashFunctions (t : SimpleTable) (n : ℕ) : SimpleTable :=
  { t with numOfHashFunctions := n }

/-- `Insert`. -/
def insert (t : SimpleTable) (elements : List Word) : SimpleTable :=
  { t with elements := t.elements ++ elements }

/-- The body of the inner loop: file the entry under function `i`. -/
def fileUnder (current : HashTableEntry) (rows : List (List Block)) (i : ℕ) :
    Except String (List (List Block)) := do
  let entryCopy := current.setCurrentAddress i
  let address ← entryCopy.getAddressAt i
  pushAt rows address (makeBlock (BitVec.ofNat 64 entryCopy.currentFunctionId) entryCopy.value)

/-- The body of the outer loop: file one element under every function. -/
def fileElement (h : HashFamily) (t : SimpleTable) (rows : List (List Block))
    (element : Word × ℕ) : Except String (List (List Block)) :=
  let current := (HashTableEntry.ofValue element.1 element.2 t.numOfHashFunctions
    t.numBins).setPossibleAddresses (hashToPosition h t.numOfHashFunctions element.1)
  (List.range t.numOfHashFunctions).foldlM (fileUnder current) rows

/-- `AsRaw2DVectorNoID`.  The second component, `max_columns`, is never
updated. -/
def asRaw2DVectorNoID (h : HashFamily) (t : SimpleTable) :
    Except String (List (List Block) × ℕ) := do
  let rawTable ← t.elements.zipIdx.foldlM (fileElement h t) (List.replicate t.numBins [])
  return (rawTable, 0)

end SimpleTable

/-! ## The rows -/

/-- The pairs the loops visit: elements in order, functions in order. -/
def filedPairs (numOfHashFunctions : ℕ) (elements : List Word) : List (ℕ × Word) :=
  elements.flatMap fun v => (List.range numOfHashFunctions).map fun f => (f, v)

/-- The key block of a pair. -/
def pairBlock (p : ℕ × Word) : Block := makeBlock (BitVec.ofNat 64 p.1) p.2

/-- The rows of the simple table. -/
def simpleRows (h : HashFamily) (numBins numOfHashFunctions : ℕ) (elements : List Word) :
    List (List Block) :=
  buckets (fun p => h p.1 p.2 % numBins) pairBlock numBins
    (filedPairs numOfHashFunctions elements)

theorem mem_filedPairs {nf : ℕ} {elements : List Word} {p : ℕ × Word} :
    p ∈ filedPairs nf elements ↔ p.1 < nf ∧ p.2 ∈ elements := by
  obtain ⟨f, v⟩ := p
  simp only [filedPairs, List.mem_flatMap, List.mem_map, List.mem_range, Prod.mk.injEq]
  constructor
  · rintro ⟨w, hw, g, hg, rfl, rfl⟩
    exact ⟨hg, hw⟩
  · rintro ⟨hf, hv⟩
    exact ⟨v, hv, f, hf, rfl, rfl⟩

/-- Filing one element is appending its pairs to their buckets. -/
theorem fileElement_eq (h : HashFamily) (t : SimpleTable) (hnb : 0 < t.numBins)
    (rows : List (List Block)) (element : Word × ℕ) :
    SimpleTable.fileElement h t rows element =
      pushAll (fun p => h p.1 p.2 % t.numBins) pairBlock rows
        ((List.range t.numOfHashFunctions).map fun f => (f, element.1)) := by
  rw [SimpleTable.fileElement, pushAll, List.foldlM_map]
  apply foldlM_congr
  intro rows f hf
  have haddr := getAddressAt_entryAt h element.1 element.2 f hnb (List.mem_range.mp hf)
  simp only [entryAt] at haddr
  simp only [SimpleTable.fileUnder, haddr, bind, Except.bind]
  rfl

/-- `AsRaw2DVectorNoID` returns the rows. -/
theorem asRaw2DVectorNoID_eq (h : HashFamily) (t : SimpleTable) (hnb : 0 < t.numBins) :
    t.asRaw2DVectorNoID h =
      .ok (simpleRows h t.numBins t.numOfHashFunctions t.elements, 0) := by
  have hloop : t.elements.zipIdx.foldlM (SimpleTable.fileElement h t)
      (List.replicate t.numBins []) =
        pushAll (fun p => h p.1 p.2 % t.numBins) pairBlock (List.replicate t.numBins [])
          (filedPairs t.numOfHashFunctions t.elements) := by
    rw [pushAll, filedPairs, foldlM_flatMap, ← List.zipIdx_map_fst 0 t.elements,
      List.foldlM_map, List.zipIdx_map_fst]
    apply foldlM_congr
    intro rows element _
    exact fileElement_eq h t hnb rows element
  rw [SimpleTable.asRaw2DVectorNoID, hloop, ← buckets_nil, pushAll_eq]
  · rfl
  · intro p _
    exact Nat.mod_lt _ hnb

/-- Row `b` holds the key blocks of address `b`, and nothing else. -/
theorem mem_simpleRows_iff (h : HashFamily) {nb nf b : ℕ} (elements : List Word) (hb : b < nb)
    (x : Block) :
    x ∈ (simpleRows h nb nf elements)[b]?.getD [] ↔
      ∃ f < nf, ∃ v ∈ elements, h f v % nb = b ∧ makeBlock (BitVec.ofNat 64 f) v = x := by
  rw [simpleRows, mem_bucket_iff _ _ _ hb]
  constructor
  · rintro ⟨p, hp, haddr, hx⟩
    obtain ⟨hf, hv⟩ := mem_filedPairs.mp hp
    exact ⟨p.1, hf, p.2, hv, haddr, hx⟩
  · rintro ⟨f, hf, v, hv, haddr, hx⟩
    exact ⟨(f, v), mem_filedPairs.mpr ⟨hf, hv⟩, haddr, hx⟩

/-- Key blocks determine their pairs, for function ids of 64 bits. -/
theorem pairBlock_inj {p q : ℕ × Word} (hp : p.1 < 2 ^ 64) (hq : q.1 < 2 ^ 64)
    (h : pairBlock p = pairBlock q) : p = q := by
  obtain ⟨hid, hvalue⟩ := makeBlock_inj.mp h
  have hnat := congrArg BitVec.toNat hid
  rw [BitVec.toNat_ofNat, BitVec.toNat_ofNat, Nat.mod_eq_of_lt hp, Nat.mod_eq_of_lt hq] at hnat
  exact Prod.ext hnat hvalue

theorem nodup_filedPairs {nf : ℕ} {elements : List Word} (h : elements.Nodup) :
    (filedPairs nf elements).Nodup := by
  rw [filedPairs, List.nodup_flatMap]
  constructor
  · intro v _
    exact List.Nodup.map (fun f g hfg => (Prod.mk.inj hfg).1) List.nodup_range
  · refine h.imp ?_
    intro v w hvw
    rw [Function.onFun, List.disjoint_left]
    intro p hp hp'
    obtain ⟨f, _, rfl⟩ := List.mem_map.mp hp
    obtain ⟨g, _, heq⟩ := List.mem_map.mp hp'
    exact hvw (Prod.mk.inj heq).2.symm

/-- Distinct elements give distinct key blocks over the whole table. -/
theorem nodup_flatten_simpleRows (h : HashFamily) (nb : ℕ) {nf : ℕ} (hnf : nf ≤ 2 ^ 64)
    {elements : List Word} (hnodup : elements.Nodup) :
    (simpleRows h nb nf elements).flatten.Nodup := by
  refine Lib.nodup_flatten_buckets _ _ _ (nodup_filedPairs hnodup) ?_
  intro p hp q hq
  have hp := (mem_filedPairs.mp hp).1
  have hq := (mem_filedPairs.mp hq).1
  exact pairBlock_inj (by omega) (by omega)

/-- A table of distinct elements holds at most one key block per function and
element. -/
theorem length_flatten_simpleRows_le (h : HashFamily) (nb : ℕ) {nf : ℕ} (hnf : nf ≤ 2 ^ 64)
    {elements : List Word} (hnodup : elements.Nodup) :
    (simpleRows h nb nf elements).flatten.length ≤ elements.length * nf := by
  have hsub : (simpleRows h nb nf elements).flatten ⊆ (filedPairs nf elements).map pairBlock := by
    intro x hx
    obtain ⟨row, hrow, hx⟩ := List.mem_flatten.mp hx
    obtain ⟨b, -, rfl⟩ := List.mem_map.mp hrow
    obtain ⟨p, hp, rfl⟩ := List.mem_map.mp hx
    exact List.mem_map_of_mem (List.mem_of_mem_filter hp)
  have hle := (List.subperm_of_subset (nodup_flatten_simpleRows h nb hnf hnodup) hsub).length_le
  simpa [filedPairs] using hle

end Sectric
