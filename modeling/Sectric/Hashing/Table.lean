import Sectric.Block
import Sectric.Lib.Double

/-!
# Hash table entries and the common part of both tables

`HashTableEntry` is one slot of a hash table.  An entry carries the addresses
of its element under every hash function and the function it is currently
placed by.  The sentinel `dummyElement` marks an empty slot, so an element
equal to it cannot be stored.

`HashingTable` holds what the cuckoo table and the simple table share: the
bin count or the multiplier `epsilon` it is computed from, the number of hash
functions and the inserted elements.  The lookup tables behind
`HashToPosition` are generated from the seed.  They enter as a family of
functions, one per function id.

A failing `std::vector::at`, a division by zero, an assertion and a thrown
exception all end the run.  They are the error case of `Except`.
-/

namespace Sectric

/-! ## Entries -/

/-- `DUMMY_ELEMENT`, the largest 64-bit value. -/
def dummyElement : Word := 0xFFFFFFFFFFFFFFFF#64

/-- `HashTableEntry`. -/
structure HashTableEntry where
  /-- `num_of_hash_functions_`. -/
  numOfHashFunctions : ℕ
  /-- `num_of_bins_`. -/
  numOfBins : ℕ
  /-- `global_id_`, the index of the element in the inserted list. -/
  globalId : ℕ
  /-- `value_`, the element. -/
  value : Word
  /-- `current_function_id_`. -/
  currentFunctionId : ℕ
  /-- `possible_addresses_`, one per hash function. -/
  possibleAddresses : List ℕ
deriving DecidableEq, Repr

namespace HashTableEntry

/-- The default constructor.  It sets the id and the value; the other members
are left as they are and never read while the entry is empty. -/
def empty : HashTableEntry :=
  ⟨0, 0, dummyElement.toNat, dummyElement, 0, []⟩

/-- The constructor from a value. -/
def ofValue (value : Word) (globalId numOfFunctions numOfBins : ℕ) : HashTableEntry :=
  ⟨numOfFunctions, numOfBins, globalId, value, 0, []⟩

/-- `IsEmpty`. -/
def isEmpty (e : HashTableEntry) : Bool := e.value == dummyElement

/-- `SetCurrentAddress`. -/
def setCurrentAddress (e : HashTableEntry) (functionId : ℕ) : HashTableEntry :=
  { e with currentFunctionId := functionId }

/-- `SetPossibleAddresses`. -/
def setPossibleAddresses (e : HashTableEntry) (addresses : List ℕ) : HashTableEntry :=
  { e with possibleAddresses := addresses }

/-- `GetAddressAt`. -/
def getAddressAt (e : HashTableEntry) (functionId : ℕ) : Except String ℕ :=
  match e.possibleAddresses[functionId]? with
  | none => .error "std::out_of_range"
  | some a => if e.numOfBins = 0 then .error "division by zero" else .ok (a % e.numOfBins)

/-- `GetCurrentAddress`. -/
def getCurrentAddress (e : HashTableEntry) : Except String ℕ :=
  e.getAddressAt e.currentFunctionId

/-- `IterateFunctionNumber`. -/
def iterateFunctionNumber (e : HashTableEntry) : HashTableEntry :=
  { e with currentFunctionId := (e.currentFunctionId + 1) % e.numOfHashFunctions }

@[simp] theorem isEmpty_empty : empty.isEmpty = true := rfl

theorem isEmpty_eq_false_iff (e : HashTableEntry) : e.isEmpty = false ↔ e.value ≠ dummyElement := by
  simp [isEmpty]

@[simp] theorem isEmpty_iterateFunctionNumber (e : HashTableEntry) :
    e.iterateFunctionNumber.isEmpty = e.isEmpty := rfl

@[simp] theorem globalId_iterateFunctionNumber (e : HashTableEntry) :
    e.iterateFunctionNumber.globalId = e.globalId := rfl

end HashTableEntry

/-! ## The base class -/

/-- The hash functions: `h f e` is the address of `e` under function `f`,
before it is reduced modulo the number of bins. -/
abbrev HashFamily := ℕ → Word → ℕ

/-- `HashToPosition`: the addresses of an element, one per function. -/
def hashToPosition (h : HashFamily) (numOfHashFunctions : ℕ) (element : Word) : List ℕ :=
  (List.range numOfHashFunctions).map fun f => h f element

@[simp] theorem length_hashToPosition (h : HashFamily) (n : ℕ) (e : Word) :
    (hashToPosition h n e).length = n := by
  simp [hashToPosition]

theorem getElem?_hashToPosition (h : HashFamily) {n f : ℕ} (e : Word) (hf : f < n) :
    (hashToPosition h n e)[f]? = some (h f e) := by
  simp [hashToPosition, hf]

/-- The members the two tables inherit. -/
structure HashingTable where
  /-- `epsilon_`, the multiplier for the bin count, or zero.  It is a `double`, so
  its denominator is a power of two. -/
  epsilon : ℚ
  /-- `num_bins_`. -/
  numBins : ℕ
  /-- `num_of_hash_functions_`. -/
  numOfHashFunctions : ℕ
  /-- `elements_`. -/
  elements : List Word
  /-- `mapped_`. -/
  mapped : Bool

namespace HashingTable

open Lib (roundTo53Bits)

/-- The bin count `AllocateTable` settles on, in both tables.  The number of elements
and its product with `epsilon_` are rounded to a `double`, which is kept by the
denominator. -/
def allocateBins (t : HashingTable) : Except String ℕ :=
  if t.numBins = 0 ∧ t.epsilon = 0 then
    .error ("You must set to a non-zero value either the number of bins or epsilon " ++
      "in the cuckoo hash table")
  else if t.epsilon < 0 then
    .error "Epsilon cannot be negative in the cuckoo hash table"
  else
    let product := roundTo53Bits (roundTo53Bits t.elements.length * t.epsilon.num.toNat)
    let numBins :=
      if 0 < t.epsilon then (product + (t.epsilon.den - 1)) / t.epsilon.den else t.numBins
    if 0 < numBins then .ok numBins else .error "assert(num_bins_ > 0)"

/-- With a bin count and no multiplier the count stands. -/
theorem allocateBins_of_pos {t : HashingTable} (hb : 0 < t.numBins) (he : t.epsilon = 0) :
    t.allocateBins = .ok t.numBins := by
  have hne : t.numBins ≠ 0 := by omega
  simp [allocateBins, he, hb, hne]

end HashingTable

/-- An entry set up for an element: its own addresses, placed by function `f`. -/
def entryAt (h : HashFamily) (numBins numOfHashFunctions : ℕ) (element : Word) (id f : ℕ) :
    HashTableEntry :=
  ((HashTableEntry.ofValue element id numOfHashFunctions numBins).setPossibleAddresses
    (hashToPosition h numOfHashFunctions element)).setCurrentAddress f

theorem getAddressAt_entryAt (h : HashFamily) {nb nf f : ℕ} (e : Word) (id g : ℕ)
    (hnb : 0 < nb) (hf : f < nf) :
    (entryAt h nb nf e id g).getAddressAt f = .ok (h f e % nb) := by
  have hne : nb ≠ 0 := by omega
  simp [HashTableEntry.getAddressAt, entryAt, HashTableEntry.setCurrentAddress,
    HashTableEntry.setPossibleAddresses, HashTableEntry.ofValue, getElem?_hashToPosition h e hf,
    hne]

end Sectric
