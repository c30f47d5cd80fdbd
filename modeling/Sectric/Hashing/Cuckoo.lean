import Mathlib.Data.List.Perm.Lattice
import Sectric.Lib.Exchange
import Sectric.Lib.Loop
import Sectric.Hashing.Table

/-!
# The cuckoo table

`mapElementsToTable` places the elements one by one.  A new entry goes to its
address under function 0 and takes the slot over.  The entry found there, if
any, moves on to its next function, takes that slot over, and so on.  The chain
ends at an empty slot, or it is cut by the recursion limit and the entry in
hand goes to the stash.

The invariant `CuckooInv` carries two facts through the nested loops.

* Every entry is *owned*: its fields are those of one inserted element, and its
  function id is in range.  A slot holds an owned entry at its current address.
* The ids of the entries in the slots, in the stash and in hand are a
  rearrangement of the ids inserted so far, those of dummy elements left out.

The second fact is what rules out a lost or a doubled entry.  One exchange
keeps both (`swapCurrent_inv`), the rule of the inner loop carries them through
the chain (`evict_rule`), and the loop over the elements does the rest
(`mapElements_inv`).
-/

namespace Sectric

open Lib (exchange exchange_of_lt exchange_perm exchange_forall foldlM_ok)

/-! ## The model -/

/-- `CuckooTable`. -/
structure CuckooTable extends HashingTable where
  /-- `hash_table_`. -/
  hashTable : List HashTableEntry
  /-- `stash_`. -/
  stash : List HashTableEntry
  /-- `recursion_limiter_`. -/
  recursionLimiter : ℕ
  /-- `statistics_.recursive_remappings_counter_`. -/
  recursiveRemappingsCounter : ℕ

namespace CuckooTable

/-- The constructor from a number of bins.  The number of hash functions is
that of the base class until `setNumOfHashFunctions` is called. -/
def ofNumOfBins (numOfBins numOfHashFunctions : ℕ) : CuckooTable where
  epsilon := 0
  numBins := numOfBins
  numOfHashFunctions := numOfHashFunctions
  elements := []
  mapped := false
  hashTable := []
  stash := []
  recursionLimiter := 200
  recursiveRemappingsCounter := 0

/-- `SetNumOfHashFunctions`. -/
def setNumOfHashFunctions (t : CuckooTable) (n : ℕ) : CuckooTable :=
  { t with numOfHashFunctions := n }

/-- `SetRecursiveInsertionLimiter`. -/
def setRecursiveInsertionLimiter (t : CuckooTable) (limiter : ℕ) : CuckooTable :=
  { t with recursionLimiter := limiter }

/-- `Insert`. -/
def insert (t : CuckooTable) (elements : List Word) : CuckooTable :=
  { t with elements := t.elements ++ elements }

/-- `AllocateTable`: the bin count is fixed and the vector resized to it. -/
def allocateTable (t : CuckooTable) : Except String CuckooTable := do
  let numBins ← t.allocateBins
  return { t with
    numBins := numBins
    hashTable := t.hashTable.take numBins ++
      List.replicate (numBins - t.hashTable.length) HashTableEntry.empty }

/-- `std::swap(current_entry, hash_table_.at(current_entry.GetCurrentAddress()))`. -/
def swapCurrent (current : HashTableEntry) (t : CuckooTable) :
    Except String (HashTableEntry × CuckooTable) := do
  let address ← current.getCurrentAddress
  match exchange t.hashTable address current with
  | none => .error "std::out_of_range"
  | some (evicted, slots) => .ok (evicted, { t with hashTable := slots })

/-- The inner loop.  `rounds` is `recursion_limiter_ + 1 - recursion_step`, so
it reaches zero when `recursion_step > recursion_limiter_` holds.  With a limiter of
`2 ^ 64 - 1` no 64-bit step is above it, and the loop of the source has no bound. -/
def evict : ℕ → HashTableEntry → CuckooTable → Except String CuckooTable
  | rounds, current, t =>
      if current.isEmpty then .ok t
      else match rounds with
        | 0 => .ok { t with stash := t.stash ++ [current] }
        | rounds + 1 => do
            let t := { t with recursiveRemappingsCounter := t.recursiveRemappingsCounter + 1 }
            let (current, t) ← swapCurrent current.iterateFunctionNumber t
            evict rounds current t

/-- One round of the outer loop: place element `id`. -/
def mapElement (h : HashFamily) (t : CuckooTable) (element : Word × ℕ) :
    Except String CuckooTable := do
  let current := entryAt h t.numBins t.numOfHashFunctions element.1 element.2 0
  let (current, t) ← swapCurrent current t
  evict (t.recursionLimiter + 1) current t

/-- `MapElementsToTable`. -/
def mapElementsToTable (h : HashFamily) (t : CuckooTable) : Except String CuckooTable :=
  if t.mapped then .error "assert(!mapped_)"
  else do
    let t ← t.elements.zipIdx.foldlM (mapElement h) t
    return { t with mapped := true }

/-- `MapElements`: allocate, then map. -/
def mapElements (h : HashFamily) (t : CuckooTable) : Except String CuckooTable := do
  let t ← t.allocateTable
  t.mapElementsToTable h

/-- `GetStashSize`. -/
def getStashSize (t : CuckooTable) : ℕ := t.stash.length

/-- The non-empty slots with their positions, in bin order. -/
def occupied (t : CuckooTable) : List (HashTableEntry × ℕ) :=
  (t.hashTable.take t.numBins).zipIdx.filter fun e => !e.1.isEmpty

/-- `AsRawVectorNoID`: the positions of the non-empty bins, and for each the
block with the function id in the high word and the element in the low word.
The loop reads `hash_table_.at(i)` for every `i` below `num_bins_`. -/
def asRawVectorNoID (t : CuckooTable) : Except String (List ℕ × List Block) :=
  if t.hashTable.length < t.numBins then .error "std::out_of_range"
  else .ok (t.occupied.map Prod.snd,
    t.occupied.map fun e => makeBlock (BitVec.ofNat 64 e.1.currentFunctionId) e.1.value)

end CuckooTable

/-! ## Placeable and owned entries -/

/-- An entry with an address under its function, whatever it carries. -/
def Placeable (h : HashFamily) (t : HashingTable) (e : HashTableEntry) : Prop :=
  ∃ v id f, f < t.numOfHashFunctions ∧ e = entryAt h t.numBins t.numOfHashFunctions v id f

/-- An entry that carries the fields of an inserted element, under a function
id in range. -/
def Owned (h : HashFamily) (t : HashingTable) (e : HashTableEntry) : Prop :=
  ∃ v id f, f < t.numOfHashFunctions ∧ t.elements[id]? = some v ∧ v ≠ dummyElement ∧
    e = entryAt h t.numBins t.numOfHashFunctions v id f

section Entries

variable {h : HashFamily} {t : HashingTable} {e : HashTableEntry}

/-- The current address of a placeable entry is a bin. -/
theorem Placeable.address (hp : Placeable h t e) (hnb : 0 < t.numBins) :
    ∃ b < t.numBins, e.getCurrentAddress = .ok b := by
  obtain ⟨v, id, f, hf, rfl⟩ := hp
  exact ⟨h f v % t.numBins, Nat.mod_lt _ hnb, getAddressAt_entryAt h v id f hnb hf⟩

/-- Moving on to the next function keeps an entry placeable. -/
theorem Placeable.iterate (hp : Placeable h t e) : Placeable h t e.iterateFunctionNumber := by
  obtain ⟨v, id, f, hf, rfl⟩ := hp
  exact ⟨v, id, (f + 1) % t.numOfHashFunctions, Nat.mod_lt _ (by omega), rfl⟩

theorem Owned.placeable (ho : Owned h t e) : Placeable h t e := by
  obtain ⟨v, id, f, hf, -, -, rfl⟩ := ho
  exact ⟨v, id, f, hf, rfl⟩

theorem Owned.isEmpty (ho : Owned h t e) : e.isEmpty = false := by
  obtain ⟨v, id, f, -, -, hv, rfl⟩ := ho
  exact (HashTableEntry.isEmpty_eq_false_iff _).mpr hv

theorem Owned.iterate (ho : Owned h t e) : Owned h t e.iterateFunctionNumber := by
  obtain ⟨v, id, f, hf, he, hv, rfl⟩ := ho
  exact ⟨v, id, (f + 1) % t.numOfHashFunctions, Nat.mod_lt _ (by omega), he, hv, rfl⟩

end Entries

/-! ## The loops -/

/-- The loops touch the slots, the stash and the counter only. -/
def CuckooTable.SameBase (t t' : CuckooTable) : Prop :=
  t'.toHashingTable = t.toHashingTable ∧ t'.recursionLimiter = t.recursionLimiter

theorem CuckooTable.SameBase.trans {t₁ t₂ t₃ : CuckooTable} (h : t₁.SameBase t₂)
    (h' : t₂.SameBase t₃) : t₁.SameBase t₃ :=
  ⟨h'.1.trans h.1, h'.2.trans h.2⟩

/-- A placeable entry is exchanged with the content of its bin. -/
theorem swapCurrent_eq {h : HashFamily} {t : CuckooTable} {current : HashTableEntry}
    (hsize : t.hashTable.length = t.numBins) (hnb : 0 < t.numBins)
    (hc : Placeable h t.toHashingTable current) :
    ∃ b, ∃ hb : b < t.hashTable.length, current.getCurrentAddress = .ok b ∧
      CuckooTable.swapCurrent current t =
        .ok (t.hashTable[b], { t with hashTable := t.hashTable.set b current }) := by
  obtain ⟨b, hb, haddr⟩ := hc.address hnb
  have hlt : b < t.hashTable.length := hsize ▸ hb
  refine ⟨b, hlt, haddr, ?_⟩
  rw [CuckooTable.swapCurrent, haddr]
  simp only [bind, Except.bind, exchange_of_lt hlt]

/-- The rule of the inner loop, for an invariant of the entry in hand and the
table: one remapping keeps it, and at the end the hand is empty or its entry
goes to the stash. -/
theorem evict_rule {I : HashTableEntry → CuckooTable → Prop} {J : CuckooTable → Prop}
    (step : ∀ current t, I current t → current.isEmpty = false →
      ∃ evicted t', CuckooTable.swapCurrent current.iterateFunctionNumber
          { t with recursiveRemappingsCounter := t.recursiveRemappingsCounter + 1 } =
        .ok (evicted, t') ∧ I evicted t')
    (done : ∀ current t, I current t → current.isEmpty = true → J t)
    (cut : ∀ current t, I current t → current.isEmpty = false →
      J { t with stash := t.stash ++ [current] }) :
    ∀ rounds current t, I current t →
      ∃ t', CuckooTable.evict rounds current t = .ok t' ∧ J t' := by
  intro rounds
  induction rounds with
  | zero =>
      intro current t hi
      cases hc : current.isEmpty with
      | true => exact ⟨t, by rw [CuckooTable.evict, if_pos hc], done current t hi hc⟩
      | false =>
          refine ⟨{ t with stash := t.stash ++ [current] }, ?_, cut current t hi hc⟩
          rw [CuckooTable.evict, hc, if_neg Bool.false_ne_true]
  | succ rounds ih =>
      intro current t hi
      cases hc : current.isEmpty with
      | true => exact ⟨t, by rw [CuckooTable.evict, if_pos hc], done current t hi hc⟩
      | false =>
          obtain ⟨evicted, t₁, hswap, hi₁⟩ := step current t hi hc
          obtain ⟨t', hevict, hj⟩ := ih evicted t₁ hi₁
          refine ⟨t', ?_, hj⟩
          rw [CuckooTable.evict, hc, if_neg Bool.false_ne_true]
          simp only [bind, Except.bind, hswap, hevict]

/-! ## The invariant -/

/-- The entries that hold an element. -/
def live (es : List HashTableEntry) : List HashTableEntry := es.filter fun e => !e.isEmpty

theorem mem_live {es : List HashTableEntry} {e : HashTableEntry} :
    e ∈ live es ↔ e ∈ es ∧ e.isEmpty = false := by
  simp [live]

/-- The indices below `k` whose element is no dummy.  A dummy element is placed
like any other, but the slot it takes counts as empty. -/
def storable (elements : List Word) (k : ℕ) : List ℕ :=
  (List.range k).filter fun id => elements[id]? != some dummyElement

theorem mem_storable {elements : List Word} {k id : ℕ} :
    id ∈ storable elements k ↔ id < k ∧ elements[id]? ≠ some dummyElement := by
  rw [storable, List.mem_filter, List.mem_range, bne_iff_ne]

theorem nodup_storable (elements : List Word) (k : ℕ) : (storable elements k).Nodup :=
  List.nodup_range.filter _

theorem length_storable_le (elements : List Word) (k : ℕ) : (storable elements k).length ≤ k :=
  (List.length_filter_le _ _).trans List.length_range.le

theorem storable_succ_of_ne {elements : List Word} {k : ℕ}
    (hk : elements[k]? ≠ some dummyElement) :
    storable elements (k + 1) = storable elements k ++ [k] := by
  rw [storable, List.range_succ, List.filter_append, List.filter_singleton, bne_iff_ne.mpr hk]
  rfl

theorem storable_succ_of_dummy {elements : List Word} {k : ℕ}
    (hk : elements[k]? = some dummyElement) : storable elements (k + 1) = storable elements k := by
  rw [storable, List.range_succ, List.filter_append, List.filter_singleton, hk, bne_self_eq_false]
  exact List.append_nil _

/-- Without dummies every index counts. -/
theorem storable_eq_range {elements : List Word} (hdummy : dummyElement ∉ elements) (k : ℕ) :
    storable elements k = List.range k := by
  refine List.filter_eq_self.mpr fun id _ => bne_iff_ne.mpr fun hid => ?_
  exact hdummy (List.mem_of_getElem? hid)

/-- The invariant of the mapping after `k` elements, with `hand` the entries
taken out of the table and not placed again yet. -/
structure CuckooInv (h : HashFamily) (t : CuckooTable) (hand : List HashTableEntry) (k : ℕ) :
    Prop where
  /-- There is one slot per bin. -/
  size : t.hashTable.length = t.numBins
  /-- A non-empty slot holds an owned entry at its current address. -/
  placed : ∀ b e, t.hashTable[b]? = some e → e.isEmpty = false →
    Owned h t.toHashingTable e ∧ e.getCurrentAddress = .ok b
  /-- The stash holds owned entries. -/
  stashed : ∀ e ∈ t.stash, Owned h t.toHashingTable e
  /-- So does the hand, empty entries apart. -/
  held : ∀ e ∈ hand, e.isEmpty = false → Owned h t.toHashingTable e
  /-- No id is lost and none occurs twice. -/
  ids : ((live (hand ++ t.hashTable) ++ t.stash).map HashTableEntry.globalId).Perm
    (storable t.elements k)

/-- One exchange keeps the invariant.  The entry in hand goes to its current
address and the entry found there is in hand next. -/
theorem swapCurrent_inv {h : HashFamily} {t : CuckooTable} {current : HashTableEntry} {k : ℕ}
    (hi : CuckooInv h t [current] k) (hnb : 0 < t.numBins)
    (hc : Placeable h t.toHashingTable current) :
    ∃ evicted t', CuckooTable.swapCurrent current t = .ok (evicted, t') ∧
      CuckooInv h t' [evicted] k ∧ t.SameBase t' := by
  obtain ⟨b, hlt, haddr, hswap⟩ := swapCurrent_eq hi.size hnb hc
  refine ⟨_, _, hswap, ⟨?_, ?_, hi.stashed, ?_, ?_⟩, rfl, rfl⟩
  · rw [List.length_set]
    exact hi.size
  · exact exchange_forall hi.placed fun hne =>
      ⟨hi.held current (List.mem_singleton_self _) hne, haddr⟩
  · intro e he hne
    rw [List.mem_singleton.mp he] at hne ⊢
    exact (hi.placed b _ (List.getElem?_eq_getElem hlt) hne).1
  · have hperm := ((exchange_perm hlt current).filter fun e => !e.isEmpty).append_right t.stash
    exact (hperm.map HashTableEntry.globalId).trans hi.ids

/-- The entry in hand may move on to its next function. -/
theorem CuckooInv.iterate {h : HashFamily} {t : CuckooTable} {current : HashTableEntry} {k : ℕ}
    (hi : CuckooInv h t [current] k) : CuckooInv h t [current.iterateFunctionNumber] k := by
  refine ⟨hi.size, hi.placed, hi.stashed, ?_, ?_⟩
  · intro e he hne
    rw [List.mem_singleton.mp he] at hne ⊢
    exact (hi.held current (List.mem_singleton_self _) hne).iterate
  · have hids := hi.ids
    cases hc : current.isEmpty with
    | true => simpa [live, hc] using hids
    | false => simpa [live, hc] using hids

/-- The remapping counter is not part of the invariant. -/
theorem CuckooInv.count {h : HashFamily} {t : CuckooTable} {hand : List HashTableEntry} {k : ℕ}
    (hi : CuckooInv h t hand k) (n : ℕ) :
    CuckooInv h { t with recursiveRemappingsCounter := n } hand k :=
  ⟨hi.size, hi.placed, hi.stashed, hi.held, hi.ids⟩

/-- An empty hand may be put away. -/
theorem CuckooInv.done {h : HashFamily} {t : CuckooTable} {current : HashTableEntry} {k : ℕ}
    (hi : CuckooInv h t [current] k) (hc : current.isEmpty = true) : CuckooInv h t [] k := by
  refine ⟨hi.size, hi.placed, hi.stashed, by simp, ?_⟩
  simpa [live, hc] using hi.ids

/-- The entry in hand may go to the stash. -/
theorem CuckooInv.cut {h : HashFamily} {t : CuckooTable} {current : HashTableEntry} {k : ℕ}
    (hi : CuckooInv h t [current] k) (hc : current.isEmpty = false) :
    CuckooInv h { t with stash := t.stash ++ [current] } [] k := by
  refine ⟨hi.size, hi.placed, ?_, by simp, ?_⟩
  · intro e he
    rcases List.mem_append.mp he with he | he
    · exact hi.stashed e he
    · rw [List.mem_singleton.mp he]
      exact hi.held current (List.mem_singleton_self _) hc
  · have hids := hi.ids
    simp only [live, List.filter_cons, hc, Bool.not_false, if_true, List.nil_append,
      List.cons_append] at hids ⊢
    rw [← List.append_assoc]
    exact ((List.perm_append_singleton _ _).map _).trans hids

/-- The eviction chain ends, and it ends with nothing in hand. -/
theorem evict_inv {h : HashFamily} {t : CuckooTable} {current : HashTableEntry} {k : ℕ}
    (hi : CuckooInv h t [current] k) (hnb : 0 < t.numBins) (rounds : ℕ) :
    ∃ t', CuckooTable.evict rounds current t = .ok t' ∧ CuckooInv h t' [] k ∧ t.SameBase t' := by
  refine evict_rule (I := fun current t' => CuckooInv h t' [current] k ∧ t.SameBase t')
    (J := fun t' => CuckooInv h t' [] k ∧ t.SameBase t') ?_ ?_ ?_ rounds current t ⟨hi, rfl, rfl⟩
  · rintro current t₀ ⟨hi₀, hbase₀⟩ hc
    have hnb₀ : 0 < t₀.numBins := hbase₀.1 ▸ hnb
    have howned := hi₀.held current (List.mem_singleton_self _) hc
    obtain ⟨evicted, t', hswap, hi', hbase'⟩ :=
      swapCurrent_inv (hi₀.iterate.count (t₀.recursiveRemappingsCounter + 1)) hnb₀
        howned.placeable.iterate
    exact ⟨evicted, t', hswap, hi', hbase₀.trans hbase'⟩
  · rintro current t₀ ⟨hi₀, hbase₀⟩ hc
    exact ⟨hi₀.done hc, hbase₀⟩
  · rintro current t₀ ⟨hi₀, hbase₀⟩ hc
    exact ⟨hi₀.cut hc, hbase₀⟩

/-- Placing the next element keeps the invariant. -/
theorem mapElement_inv {h : HashFamily} {t : CuckooTable} {v : Word} {k : ℕ}
    (hi : CuckooInv h t [] k) (hnb : 0 < t.numBins) (hnf : 0 < t.numOfHashFunctions)
    (hv : t.elements[k]? = some v) :
    ∃ t', CuckooTable.mapElement h t (v, k) = .ok t' ∧ CuckooInv h t' [] (k + 1) ∧
      t.SameBase t' := by
  let current := entryAt h t.numBins t.numOfHashFunctions v k 0
  have hid : current.globalId = k := rfl
  have hi₀ : CuckooInv h t [current] (k + 1) := by
    refine ⟨hi.size, hi.placed, hi.stashed, ?_, ?_⟩
    · intro e he hne
      rw [List.mem_singleton.mp he] at hne ⊢
      exact ⟨v, k, 0, hnf, hv, (HashTableEntry.isEmpty_eq_false_iff _).mp hne, rfl⟩
    · cases hc : current.isEmpty with
      | true =>
          have hdummy : v = dummyElement := beq_iff_eq.mp hc
          rw [storable_succ_of_dummy (hdummy ▸ hv)]
          simpa [live, hc] using hi.ids
      | false =>
          have hne : v ≠ dummyElement := (HashTableEntry.isEmpty_eq_false_iff _).mp hc
          have hids := (hi.ids.cons k).trans (List.perm_append_singleton k _).symm
          rw [← storable_succ_of_ne (by rw [hv]; simpa using hne)] at hids
          simpa [live, hc, hid] using hids
  obtain ⟨evicted, t₁, hswap, hi₁, hbase₁⟩ := swapCurrent_inv hi₀ hnb ⟨v, k, 0, hnf, rfl⟩
  obtain ⟨t', hevict, hi', hbase'⟩ := evict_inv hi₁ (hbase₁.1 ▸ hnb) (t₁.recursionLimiter + 1)
  refine ⟨t', ?_, hi', hbase₁.trans hbase'⟩
  rw [CuckooTable.mapElement]
  simp only [current] at hswap
  simp only [bind, Except.bind, hswap, hevict]

/-- An allocated table before anything is placed. -/
theorem allocateTable_of_fresh {t : CuckooTable} (hnb : 0 < t.numBins) (he : t.epsilon = 0)
    (hfresh : t.hashTable = []) :
    t.allocateTable = .ok { t with hashTable := List.replicate t.numBins .empty } := by
  rw [CuckooTable.allocateTable, HashingTable.allocateBins_of_pos hnb he, hfresh]
  simp [bind, Except.bind, pure, Except.pure]

/-- `MapElements` of a new table is the loop over its elements. -/
theorem mapElements_of_fresh {h : HashFamily} {t t₁ : CuckooTable} (hnb : 0 < t.numBins)
    (he : t.epsilon = 0) (hfresh : t.hashTable = []) (hmapped : t.mapped = false)
    (hfold : t.elements.zipIdx.foldlM (CuckooTable.mapElement h)
      { t with hashTable := List.replicate t.numBins .empty } = .ok t₁) :
    t.mapElements h = .ok { t₁ with mapped := true } := by
  rw [CuckooTable.mapElements, allocateTable_of_fresh hnb he hfresh]
  simp only [bind, Except.bind, CuckooTable.mapElementsToTable, hmapped, Bool.false_eq_true,
    if_false, hfold]
  rfl

/-- `MapElements` on a new table succeeds and leaves the invariant with every
inserted id accounted for, whatever the elements. -/
theorem mapElements_inv {h : HashFamily} {t : CuckooTable} (hnb : 0 < t.numBins)
    (hnf : t.elements ≠ [] → 0 < t.numOfHashFunctions) (he : t.epsilon = 0)
    (hfresh : t.hashTable = [])
    (hstash : t.stash = []) (hmapped : t.mapped = false) :
    ∃ t', t.mapElements h = .ok t' ∧ CuckooInv h t' [] t.elements.length ∧
      t'.toHashingTable = { t.toHashingTable with mapped := true } := by
  have hi₀ : CuckooInv h { t with hashTable := List.replicate t.numBins .empty } [] 0 := by
    refine ⟨by simp, ?_, ?_, by simp, ?_⟩
    · intro b e hb hne
      rw [List.eq_of_mem_replicate (List.mem_of_getElem? hb)] at hne
      cases hne
    · intro e hmem
      rw [hstash] at hmem
      cases hmem
    · have hlive : live (List.replicate t.numBins HashTableEntry.empty) = [] := by
        rw [live, List.filter_eq_nil_iff]
        intro e hmem
        rw [List.eq_of_mem_replicate hmem]
        simp
      simp [hlive, hstash, storable]
  -- round `k` places element `k`
  obtain ⟨t₁, hfold, hi₁, hbase₁⟩ := foldlM_ok t.elements.zipIdx
    (I := fun k t' => CuckooInv h t' [] k ∧ CuckooTable.SameBase
      { t with hashTable := List.replicate t.numBins .empty } t')
    (f := CuckooTable.mapElement h) ⟨hi₀, rfl, rfl⟩ (by
      rintro k element t₀ hk ⟨hi, hbase⟩
      rw [List.getElem?_zipIdx, Option.map_eq_some_iff] at hk
      obtain ⟨v, hv, rfl⟩ := hk
      rw [Nat.zero_add]
      have hnf := hnf (List.ne_nil_of_mem (List.mem_of_getElem? hv))
      obtain ⟨t', hround, hi', hbase'⟩ :=
        mapElement_inv hi (hbase.1 ▸ hnb) (hbase.1 ▸ hnf) (hbase.1 ▸ hv)
      exact ⟨t', hround, hi', hbase.trans hbase'⟩)
  rw [List.length_zipIdx] at hi₁
  refine ⟨_, mapElements_of_fresh hnb he hfresh hmapped hfold, ?_, ?_⟩
  · exact ⟨hi₁.size, hi₁.placed, hi₁.stashed, hi₁.held, hi₁.ids⟩
  · rw [hbase₁.1]

/-! ## Dummy elements -/

/-- The slots of a table with the given base, when the entries in them are of one
kind.  This holds also when dummy elements are inserted, which are lost. -/
structure CuckooTable.FilledBy (P : HashTableEntry → Prop) (base : HashingTable)
    (t : CuckooTable) : Prop where
  base_eq : t.toHashingTable = base
  size : t.hashTable.length = t.numBins
  entries : ∀ e ∈ t.hashTable, e.isEmpty = false → P e

section FilledBy

variable {h : HashFamily} {base : HashingTable} {P : HashTableEntry → Prop}
  (hplace : ∀ e, P e → Placeable h base e) (hnb : 0 < base.numBins)

theorem filledBy_replicate_empty {t : CuckooTable} (hbase : t.toHashingTable = base) :
    CuckooTable.FilledBy P base { t with hashTable := List.replicate t.numBins .empty } := by
  refine ⟨hbase, List.length_replicate, ?_⟩
  intro e he hne
  rw [List.eq_of_mem_replicate he] at hne
  cases hne

include hplace hnb

theorem swapCurrent_filledBy {t : CuckooTable} {current : HashTableEntry}
    (ht : t.FilledBy P base) (hc : P current) :
    ∃ evicted t', CuckooTable.swapCurrent current t = .ok (evicted, t') ∧ t'.FilledBy P base ∧
      (evicted.isEmpty = false → P evicted) := by
  obtain ⟨b, hlt, -, hswap⟩ :=
    swapCurrent_eq ht.size (ht.base_eq ▸ hnb) (ht.base_eq ▸ hplace current hc)
  refine ⟨_, _, hswap, ⟨ht.base_eq, ?_, ?_⟩, ?_⟩
  · rw [List.length_set]
    exact ht.size
  · intro e he hne
    cases List.mem_or_eq_of_mem_set he with
    | inl he => exact ht.entries e he hne
    | inr heq => exact heq ▸ hc
  · exact ht.entries _ (List.getElem_mem hlt)

variable (hiter : ∀ e, P e → P e.iterateFunctionNumber)

include hiter

theorem evict_filledBy {t : CuckooTable} {current : HashTableEntry} (ht : t.FilledBy P base)
    (hc : current.isEmpty = false → P current) (rounds : ℕ) :
    ∃ t', CuckooTable.evict rounds current t = .ok t' ∧ t'.FilledBy P base := by
  refine evict_rule (I := fun current t' => t'.FilledBy P base ∧
      (current.isEmpty = false → P current)) ?_ ?_ ?_ rounds current t ⟨ht, hc⟩
  · rintro current t₀ ⟨ht₀, hcurrent⟩ hc
    obtain ⟨evicted, t', hswap, ht', hevicted⟩ := swapCurrent_filledBy hplace hnb
      (t := { t₀ with recursiveRemappingsCounter := t₀.recursiveRemappingsCounter + 1 })
      ⟨ht₀.base_eq, ht₀.size, ht₀.entries⟩ (hiter current (hcurrent hc))
    exact ⟨evicted, t', hswap, ht', hevicted⟩
  · rintro current t₀ ⟨ht₀, -⟩ _
    exact ht₀
  · rintro current t₀ ⟨ht₀, -⟩ _
    exact ⟨ht₀.base_eq, ht₀.size, ht₀.entries⟩

theorem mapElement_filledBy {t : CuckooTable} (ht : t.FilledBy P base) {element : Word × ℕ}
    (hnew : P (entryAt h base.numBins base.numOfHashFunctions element.1 element.2 0)) :
    ∃ t', CuckooTable.mapElement h t element = .ok t' ∧ t'.FilledBy P base := by
  obtain ⟨evicted, t₁, hswap, ht₁, hevicted⟩ := swapCurrent_filledBy hplace hnb ht hnew
  obtain ⟨t', hevict, ht'⟩ :=
    evict_filledBy hplace hnb hiter ht₁ hevicted (t₁.recursionLimiter + 1)
  refine ⟨t', ?_, ht'⟩
  rw [CuckooTable.mapElement, ht.base_eq]
  simp only [bind, Except.bind, hswap, hevict]

/-- `MapElementsToTable` succeeds on any elements whose entries are of the kind. -/
theorem mapElementsToTable_filledBy {t : CuckooTable} (ht : t.FilledBy P base)
    (hmapped : t.mapped = false) (hnew : ∀ element ∈ base.elements.zipIdx,
      P (entryAt h base.numBins base.numOfHashFunctions element.1 element.2 0)) :
    ∃ t', t.mapElementsToTable h = .ok t' ∧ t'.FilledBy P { base with mapped := true } := by
  obtain ⟨t₁, hfold, ht₁⟩ := foldlM_ok t.elements.zipIdx
    (I := fun _ t' => t'.FilledBy P base) (f := CuckooTable.mapElement h) ht (by
      intro _ element t₀ helement ht₀
      have hmem := List.mem_of_getElem? helement
      rw [ht.base_eq] at hmem
      exact mapElement_filledBy hplace hnb hiter ht₀ (hnew element hmem))
  refine ⟨{ t₁ with mapped := true }, ?_, ⟨by rw [ht₁.base_eq], ht₁.size, ht₁.entries⟩⟩
  simp only [CuckooTable.mapElementsToTable, hmapped, Bool.false_eq_true, if_false, hfold, bind,
    Except.bind]
  rfl

end FilledBy

/-- What holds of the table whatever is inserted. -/
structure CuckooTable.Slots (h : HashFamily) (t : CuckooTable) : Prop where
  size : t.hashTable.length = t.numBins
  placeable : ∀ e ∈ t.hashTable, e.isEmpty = false → Placeable h t.toHashingTable e

theorem slots_replicate_empty {h : HashFamily} (t : CuckooTable) :
    CuckooTable.Slots h { t with hashTable := List.replicate t.numBins .empty } :=
  have hempty := filledBy_replicate_empty (P := Placeable h t.toHashingTable) (t := t) rfl
  ⟨hempty.size, hempty.entries⟩

/-- `MapElementsToTable` succeeds on any elements. -/
theorem mapElementsToTable_slots {h : HashFamily} {t : CuckooTable} (hs : t.Slots h)
    (hnb : 0 < t.numBins) (hnf : 0 < t.numOfHashFunctions) (hmapped : t.mapped = false) :
    ∃ t', t.mapElementsToTable h = .ok t' ∧ t'.Slots h ∧
      t'.toHashingTable = { t.toHashingTable with mapped := true } := by
  obtain ⟨t', hmap, ht'⟩ := mapElementsToTable_filledBy (P := Placeable h t.toHashingTable)
    (fun _ => id) hnb (fun _ => Placeable.iterate) ⟨rfl, hs.size, hs.placeable⟩ hmapped
    fun element _ => ⟨element.1, element.2, 0, hnf, rfl⟩
  refine ⟨t', hmap, ⟨ht'.size, ?_⟩, ht'.base_eq⟩
  intro e he hne
  rw [ht'.base_eq]
  exact ht'.entries e he hne

/-- `MapElements` on a new table succeeds on any elements. -/
theorem mapElements_slots {h : HashFamily} {t : CuckooTable} (hnb : 0 < t.numBins)
    (hnf : 0 < t.numOfHashFunctions) (he : t.epsilon = 0) (hfresh : t.hashTable = [])
    (hmapped : t.mapped = false) : ∃ t', t.mapElements h = .ok t' ∧ t'.Slots h := by
  obtain ⟨t', hmap, hs', -⟩ := mapElementsToTable_slots
    (t := { t with hashTable := List.replicate t.numBins .empty }) (slots_replicate_empty t) hnb
    hnf hmapped
  refine ⟨t', ?_, hs'⟩
  rw [CuckooTable.mapElements, allocateTable_of_fresh hnb he hfresh]
  exact hmap

/-! ## What the invariant says of the finished table -/

/-- Every id is the id of exactly one entry, and that entry carries the element
inserted under it. -/
theorem CuckooInv.unique_id {h : HashFamily} {t : CuckooTable}
    (hi : CuckooInv h t [] t.elements.length) (hdummy : dummyElement ∉ t.elements) {id : ℕ}
    (hid : id < t.elements.length) :
    ∃ e, (live t.hashTable ++ t.stash).filter (fun e => e.globalId == id) = [e] ∧
      e.value = t.elements[id] := by
  have hcount : ((live t.hashTable ++ t.stash).map HashTableEntry.globalId).count id = 1 := by
    have hids := hi.ids
    rw [List.nil_append, storable_eq_range hdummy] at hids
    rw [hids.count_eq]
    exact List.count_eq_one_of_mem List.nodup_range (List.mem_range.mpr hid)
  rw [List.count_eq_countP, List.countP_map, List.countP_eq_length_filter] at hcount
  obtain ⟨e, he⟩ := List.length_eq_one_iff.mp hcount
  refine ⟨e, he, ?_⟩
  have hmem : e ∈ (live t.hashTable ++ t.stash).filter fun e => e.globalId == id := by
    rw [show (fun e : HashTableEntry => e.globalId == id) =
      ((fun i => i == id) ∘ HashTableEntry.globalId) from rfl, he]
    exact List.mem_singleton_self e
  rw [List.mem_filter, List.mem_append, mem_live, beq_iff_eq] at hmem
  have howned : Owned h t.toHashingTable e := by
    rcases hmem.1 with ⟨hslot, hne⟩ | hstash
    · obtain ⟨b, hb⟩ := List.mem_iff_getElem?.mp hslot
      exact (hi.placed b e hb hne).1
    · exact hi.stashed e hstash
  obtain ⟨v, id', f, -, hv, -, rfl⟩ := howned
  have hid' : id' = id := hmem.2
  rw [hid', List.getElem?_eq_getElem hid, Option.some.injEq] at hv
  exact hv.symm

/-- A non-empty bin holds an entry at the address its own function gives. -/
theorem CuckooInv.address {h : HashFamily} {t : CuckooTable} {hand : List HashTableEntry} {k : ℕ}
    (hi : CuckooInv h t hand k) (hnb : 0 < t.numBins) {b : ℕ} {e : HashTableEntry}
    (hb : t.hashTable[b]? = some e) (hne : e.isEmpty = false) :
    e.currentFunctionId < t.numOfHashFunctions ∧
      e.possibleAddresses = hashToPosition h t.numOfHashFunctions e.value ∧
      h e.currentFunctionId e.value % t.numBins = b := by
  obtain ⟨howned, haddr⟩ := hi.placed b e hb hne
  obtain ⟨v, id, f, hf, -, -, rfl⟩ := howned
  have hget : HashTableEntry.getAddressAt
      (entryAt h t.numBins t.numOfHashFunctions v id f) f = .ok b := haddr
  rw [getAddressAt_entryAt h v id f hnb hf, Except.ok.injEq] at hget
  exact ⟨hf, rfl, hget⟩

/-- The table the receiver builds: a number of bins, the hash functions and the
limiter set, one list inserted. -/
def CuckooTable.withElements (numBins numOfHashFunctions limiter : ℕ) (elements : List Word) :
    CuckooTable :=
  (((CuckooTable.ofNumOfBins numBins 0).setNumOfHashFunctions
    numOfHashFunctions).setRecursiveInsertionLimiter limiter).insert elements

/-- `MapElements` on a new table, with the invariant. -/
theorem withElements_inv (h : HashFamily) {nb nf : ℕ} (limiter : ℕ) (elements : List Word)
    (hnb : 0 < nb) (hnf : elements ≠ [] → 0 < nf) :
    ∃ t, (CuckooTable.withElements nb nf limiter elements).mapElements h = .ok t ∧
      CuckooInv h t [] elements.length ∧ t.numBins = nb ∧ t.numOfHashFunctions = nf ∧
      t.elements = elements := by
  obtain ⟨t, hmap, hi, hbase⟩ :=
    mapElements_inv (h := h) (t := CuckooTable.withElements nb nf limiter elements) hnb hnf rfl
      rfl rfl rfl
  refine ⟨t, hmap, ?_, ?_, ?_, ?_⟩
  · exact hi
  · rw [hbase]
    rfl
  · rw [hbase]
    rfl
  · rw [hbase]
    rfl

/-- A mapping succeeds with a bin at least, and a function if there is anything
to place. -/
theorem withElements_ok {h : HashFamily} {nb nf limiter : ℕ} {elements : List Word}
    {t : CuckooTable}
    (hmap : (CuckooTable.withElements nb nf limiter elements).mapElements h = .ok t) :
    0 < nb ∧ (elements ≠ [] → 0 < nf) := by
  have hnb : 0 < nb := by
    rcases Nat.eq_zero_or_pos nb with rfl | hnb
    · cases hmap
    · exact hnb
  refine ⟨hnb, fun hne => ?_⟩
  rcases Nat.eq_zero_or_pos nf with rfl | hnf
  · obtain ⟨v, rest, rfl⟩ := List.exists_cons_of_ne_nil hne
    -- the first entry has no address
    rw [CuckooTable.mapElements, allocateTable_of_fresh hnb rfl rfl] at hmap
    cases hmap
  · exact hnf

/-- An entry of a mapped table carries one of the elements. -/
theorem value_mem_of_mapElements {h : HashFamily} {nb nf limiter : ℕ} {elements : List Word}
    {t : CuckooTable}
    (hmap : (CuckooTable.withElements nb nf limiter elements).mapElements h = .ok t)
    {e : HashTableEntry} (he : e ∈ t.hashTable) (hne : e.isEmpty = false) :
    e.value ∈ elements := by
  obtain ⟨hnb, hsome⟩ := withElements_ok hmap
  let fresh := CuckooTable.withElements nb nf limiter elements
  let P : HashTableEntry → Prop := fun e =>
    Placeable h fresh.toHashingTable e ∧ e.value ∈ elements
  have hempty := filledBy_replicate_empty (P := P) (t := fresh) rfl
  obtain ⟨t', hmap', ht'⟩ := mapElementsToTable_filledBy (h := h) (P := P)
    (fun _ hp => hp.1) hnb (fun _ hp => ⟨hp.1.iterate, hp.2⟩) hempty rfl (by
      intro element helement
      have hmem := List.fst_mem_of_mem_zipIdx helement
      exact ⟨⟨element.1, element.2, 0, hsome (List.ne_nil_of_mem hmem), rfl⟩, hmem⟩)
  rw [CuckooTable.mapElements, allocateTable_of_fresh hnb rfl rfl] at hmap
  cases hmap.symm.trans hmap'
  exact (ht'.entries e he hne).2

/-- Mapping a list of elements, repeats allowed, succeeds and neither loses,
doubles nor misplaces one.  Each index is the id of exactly one entry among the
non-empty bins and the stash, and the entry carries that element.  An entry in
bin `b` has a function id in range, and `b` is the address of its element under
that function. -/
theorem mapElements_places_every_element (h : HashFamily) (nb nf limiter : ℕ)
    (elements : List Word) (hnb : 0 < nb) (hnf : 0 < nf)
    (hdummy : dummyElement ∉ elements) :
    ∃ t, (CuckooTable.withElements nb nf limiter elements).mapElements h = .ok t ∧
      (∀ id (hid : id < elements.length), ∃ e,
        (live t.hashTable ++ t.stash).filter (fun e => e.globalId == id) = [e] ∧
          e.value = elements[id]) ∧
      ∀ b e, t.hashTable[b]? = some e → e.isEmpty = false →
        e.currentFunctionId < nf ∧ e.possibleAddresses = hashToPosition h nf e.value ∧
          h e.currentFunctionId e.value % nb = b := by
  obtain ⟨t, hmap, hi, rfl, rfl, rfl⟩ := withElements_inv h limiter elements hnb fun _ => hnf
  exact ⟨t, hmap, fun id hid => hi.unique_id hdummy hid, fun b e hb hne => hi.address hnb hb hne⟩

/-- Four copies of one element. -/
def fourCopies : List Word := [5, 5, 5, 5]

/-- The address of an element moves up by one with the function. -/
def shiftHash : HashFamily := fun f e => f + e.toNat

/-- Four copies have three candidate bins, so one of them ends in the stash. -/
theorem mapElements_places_fourCopies :
    ∃ t, (CuckooTable.withElements 8 3 2 fourCopies).mapElements shiftHash = .ok t ∧
      (∀ id (hid : id < fourCopies.length), ∃ e,
        (live t.hashTable ++ t.stash).filter (fun e => e.globalId == id) = [e] ∧
          e.value = fourCopies[id]) ∧
      ∀ b e, t.hashTable[b]? = some e → e.isEmpty = false →
        e.currentFunctionId < 3 ∧ e.possibleAddresses = hashToPosition shiftHash 3 e.value ∧
          shiftHash e.currentFunctionId e.value % 8 = b :=
  mapElements_places_every_element shiftHash 8 3 2 fourCopies (by decide) (by decide)
    (by decide)

end Sectric
