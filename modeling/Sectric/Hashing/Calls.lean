import Sectric.Hashing.Cuckoo
import Sectric.Hashing.Mapping

/-!
# The public calls of the tables

A table is built with a number of bins, or with a factor `epsilon` from which
`AllocateTable` computes the number when the elements are mapped.  Until then
the second kind has no bins.  `AsRaw2DVectorNoID` of the simple table and
`GetElementAddresses` of the cuckoo table compute addresses without a call of
`AllocateTable`.

A run is a list of calls, and it ends at the first one that fails.  What a call
can do is said once for both tables, by `TableSpec`.  From it follows which runs
reduce an address modulo zero (`run_faultless_iff`): those of a table built with
`epsilon` that ask for addresses between the first inserted element and the
first mapping.
-/

namespace Sectric

open Lib (foldlM_appending foldlM_head_error foldlM_idle)

/-! ## Calls -/

/-- What the public constructors take: a positive number of bins, or a positive
`epsilon`. -/
inductive TableSize where
  | numOfBins (n : ℕ) (pos : 0 < n)
  | epsilon (factor : ℚ) (pos : 0 < factor)

/-- A public call.  `addresses` is `AsRaw2DVectorNoID` on a simple table and
`GetElementAddresses` on a cuckoo table.  The calls that hash generate their
lookup tables anew, so each comes with its own family. -/
inductive TableCall where
  | insert (elements : List Word)
  | mapElements (h : HashFamily)
  | addresses (h : HashFamily)

/-- The constructor `SimpleTable(double epsilon)`. -/
def SimpleTable.ofEpsilon (epsilon : ℚ) (numOfHashFunctions : ℕ) : SimpleTable where
  epsilon := epsilon
  numBins := 0
  numOfHashFunctions := numOfHashFunctions
  elements := []
  mapped := false

/-- The constructor `CuckooTable(double epsilon)`. -/
def CuckooTable.ofEpsilon (epsilon : ℚ) (numOfHashFunctions : ℕ) : CuckooTable where
  epsilon := epsilon
  numBins := 0
  numOfHashFunctions := numOfHashFunctions
  elements := []
  mapped := false
  hashTable := []
  stash := []
  recursionLimiter := 200
  recursiveRemappingsCounter := 0

/-- A new simple table. -/
def TableSize.simpleTable (numOfHashFunctions : ℕ) : TableSize → BinnedTable
  | .numOfBins n _ => .ofTable (.ofNumOfBins n numOfHashFunctions)
  | .epsilon factor _ => .ofTable (.ofEpsilon factor numOfHashFunctions)

/-- A new cuckoo table. -/
def TableSize.cuckooTable (numOfHashFunctions : ℕ) : TableSize → CuckooTable
  | .numOfBins n _ => .ofNumOfBins n numOfHashFunctions
  | .epsilon factor _ => .ofEpsilon factor numOfHashFunctions

/-- A vector whose storage is reserved: its elements, and what was written to
the storage behind them. -/
structure ReservedVector where
  elements : List ℕ
  behind : List (ℕ × ℕ)

/-- `v[i] = x`.  The operator does not extend the vector. -/
def ReservedVector.assign (v : ReservedVector) (i x : ℕ) : ReservedVector :=
  if i < v.elements.length then { v with elements := v.elements.set i x }
  else { v with behind := v.behind ++ [(i, x)] }

namespace CuckooTable

/-- The body of the outer loop of `GetElementAddresses`. -/
def elementAddresses (h : HashFamily) (t : CuckooTable) (v : ReservedVector)
    (element : Word × ℕ) : Except String ReservedVector :=
  let current := entryAt h t.numBins t.numOfHashFunctions element.1 element.2 0
  (List.range t.numOfHashFunctions).foldlM (fun v j => do
    let address ← current.getAddressAt j
    return v.assign (element.2 * t.numOfHashFunctions + j) address) v

/-- `GetElementAddresses`.  The vector is reserved and not resized. -/
def getElementAddresses (h : HashFamily) (t : CuckooTable) : Except String ReservedVector :=
  t.elements.zipIdx.foldlM (elementAddresses h t) ⟨[], []⟩

/-- A call on a cuckoo table. -/
def call (t : CuckooTable) : TableCall → Except String CuckooTable
  | .insert elements => .ok (t.insert elements)
  | .mapElements h => t.mapElements h
  | .addresses h => do
      let _ ← t.getElementAddresses h
      return t

end CuckooTable

/-- A call on a simple table. -/
def BinnedTable.call (t : BinnedTable) : TableCall → Except String BinnedTable
  | .insert elements => .ok (t.insert elements)
  | .mapElements h => t.mapElements h
  | .addresses h => do
      let _ ← t.asRaw2DVectorNoID h
      return t

/-- A run ends with an error of the given kind. -/
def Fails {α : Type} (bad : String → Prop) (r : Except String α) : Prop :=
  ∃ e, r = .error e ∧ bad e

/-- The remainder of an address was taken modulo zero. -/
def DivisionFault (e : String) : Prop := e = "division by zero"

/-- That, or a row that is not there. -/
def RowFault (e : String) : Prop := DivisionFault e ∨ e = "std::out_of_range"

/-- With `elements` inserted so far and nothing mapped, no call asks for
addresses between the first element and the first mapping. -/
def MappedBeforeUse : List Word → List TableCall → Prop
  | _, [] => True
  | elements, .insert more :: calls => MappedBeforeUse (elements ++ more) calls
  | _, .mapElements _ :: _ => True
  | elements, .addresses _ :: calls => elements = [] ∧ MappedBeforeUse elements calls

/-! ## Runs of either table -/

/-- What the calls do on a sound table, for the faults `bad`. -/
structure TableSpec {τ : Type} (call : τ → TableCall → Except String τ) (bins : τ → ℕ)
    (elements : τ → List Word) (nf : ℕ) (bad : String → Prop) (Sound : τ → Prop) : Prop where
  /-- Elements are appended. -/
  insert : ∀ t more, Sound t → ∃ t', call t (.insert more) = .ok t' ∧ Sound t' ∧
    bins t' = bins t ∧ elements t' = elements t ++ more
  /-- A mapping fails for other reasons only, and it leaves a bin at least. -/
  map : ∀ t h, Sound t → ¬ Fails bad (call t (.mapElements h)) ∧
    ∀ t', call t (.mapElements h) = .ok t' → Sound t' ∧ 0 < bins t'
  /-- Addresses are there with a bin, or if none is computed. -/
  addresses : ∀ t h, Sound t → 0 < bins t ∨ nf = 0 ∨ elements t = [] →
    call t (.addresses h) = .ok t
  /-- Otherwise the first of them is a fault. -/
  fault : ∀ t h, Sound t → bins t = 0 → nf ≠ 0 → elements t ≠ [] →
    Fails bad (call t (.addresses h))

section Runs

variable {τ : Type} {call : τ → TableCall → Except String τ} {bins : τ → ℕ}
  {elements : τ → List Word} {nf : ℕ} {bad : String → Prop} {Sound : τ → Prop}
  (spec : TableSpec call bins elements nf bad Sound)

include spec

/-- A table with bins runs without a fault. -/
theorem TableSpec.run_faultless : ∀ (calls : List TableCall) (t : τ), Sound t → 0 < bins t →
    ¬ Fails bad (calls.foldlM call t)
  | [], t, _, _ => by
      rintro ⟨e, he, -⟩
      cases he
  | c :: calls, t, hs, hb => by
      rw [List.foldlM_cons]
      cases c with
      | insert more =>
          obtain ⟨t', hcall, hs', hbins, -⟩ := spec.insert t more hs
          rw [hcall]
          exact TableSpec.run_faultless calls t' hs' (hbins ▸ hb)
      | mapElements h =>
          obtain ⟨hnofault, hok⟩ := spec.map t h hs
          cases hcall : call t (.mapElements h) with
          | error e => rwa [hcall] at hnofault
          | ok t' =>
              obtain ⟨hs', hb'⟩ := hok t' hcall
              exact TableSpec.run_faultless calls t' hs' hb'
      | addresses h =>
          rw [spec.addresses t h hs (.inl hb)]
          exact TableSpec.run_faultless calls t hs hb

/-- A table without bins does exactly if it is mapped before it is used, or
there is no function to compute an address by. -/
theorem TableSpec.run_faultless_iff : ∀ (calls : List TableCall) (t : τ), Sound t → bins t = 0 →
    (¬ Fails bad (calls.foldlM call t) ↔ nf = 0 ∨ MappedBeforeUse (elements t) calls)
  | [], t, _, _ => by
      refine iff_of_true ?_ (.inr trivial)
      rintro ⟨e, he, -⟩
      cases he
  | c :: calls, t, hs, hb => by
      rw [List.foldlM_cons]
      cases c with
      | insert more =>
          obtain ⟨t', hcall, hs', hbins, helements⟩ := spec.insert t more hs
          rw [hcall, MappedBeforeUse, ← helements]
          exact TableSpec.run_faultless_iff calls t' hs' (hbins.trans hb)
      | mapElements h =>
          obtain ⟨hnofault, hok⟩ := spec.map t h hs
          refine iff_of_true ?_ (.inr trivial)
          cases hcall : call t (.mapElements h) with
          | error e => rwa [hcall] at hnofault
          | ok t' =>
              obtain ⟨hs', hb'⟩ := hok t' hcall
              exact spec.run_faultless calls t' hs' hb'
      | addresses h =>
          by_cases hnone : nf = 0 ∨ elements t = []
          · have ih := TableSpec.run_faultless_iff calls t hs hb
            rw [spec.addresses t h hs (.inr hnone), MappedBeforeUse]
            rcases hnone with hnf | hempty
            · exact iff_of_true (ih.mpr (.inl hnf)) (.inl hnf)
            · rw [hempty] at ih ⊢
              simp only [true_and]
              exact ih
          · rw [not_or] at hnone
            obtain ⟨e, herror, hbad⟩ := spec.fault t h hs hb hnone.1 hnone.2
            rw [herror, MappedBeforeUse]
            refine iff_of_false (fun hsafe => hsafe ⟨e, rfl, hbad⟩) ?_
            rintro (hnf | ⟨hempty, -⟩)
            · exact hnone.1 hnf
            · exact hnone.2 hempty

end Runs

/-! ## The bin count -/

/-- `AllocateTable` fails with an error of its own or leaves a bin at least. -/
theorem HashingTable.allocateBins_cases (t : HashingTable) :
    (∃ e, t.allocateBins = .error e ∧ ¬ RowFault e) ∨ ∃ n, t.allocateBins = .ok n ∧ 0 < n := by
  rw [HashingTable.allocateBins]
  dsimp only
  split
  · exact .inl ⟨_, rfl, by simp [RowFault, DivisionFault]⟩
  · split
    · exact .inl ⟨_, rfl, by simp [RowFault, DivisionFault]⟩
    · generalize (if 0 < t.epsilon then _ else t.numBins) = n
      by_cases hn : 0 < n
      · exact .inr ⟨n, by rw [if_pos hn], hn⟩
      · exact .inl ⟨_, by rw [if_neg hn], by simp [RowFault, DivisionFault]⟩

/-- The second mapping of a table is an assertion failure. -/
theorem not_rowFault_mapped : ¬ RowFault "assert(!mapped_)" := by
  simp [RowFault, DivisionFault]

section Outcome

variable {α : Type} {bad : String → Prop} {left : α → Prop} {r : Except String α}

/-- A call with an error of its own. -/
theorem call_of_own_error {e : String} (hr : r = .error e) (he : ¬ bad e) :
    ¬ Fails bad r ∧ ∀ x, r = .ok x → left x := by
  subst hr
  constructor
  · rintro ⟨e', he', hbad⟩
    cases he'
    exact he hbad
  · intro x hx
    cases hx

/-- A call that ends. -/
theorem call_of_ok {x : α} (hr : r = .ok x) (hx : left x) :
    ¬ Fails bad r ∧ ∀ x, r = .ok x → left x := by
  subst hr
  constructor
  · rintro ⟨e, he, -⟩
    cases he
  · intro y hy
    cases hy
    exact hx

end Outcome

/-! ## The simple table -/

/-- A table that is not mapped has nothing stored. -/
def BinnedTable.Sound (nf : ℕ) (t : BinnedTable) : Prop :=
  t.numOfHashFunctions = nf ∧ (t.mapped = false → t.hashTable = [] ∧ t.maxObservedBinSize = 0)

/-- Without bins the first address is a division by zero. -/
theorem getAddressAt_entryAt_zero (h : HashFamily) {nf f : ℕ} (e : Word) (id g : ℕ) (hf : f < nf) :
    (entryAt h 0 nf e id g).getAddressAt f = .error "division by zero" := by
  simp [HashTableEntry.getAddressAt, entryAt, HashTableEntry.setCurrentAddress,
    HashTableEntry.setPossibleAddresses, HashTableEntry.ofValue, getElem?_hashToPosition h e hf]

theorem range_eq_cons {n : ℕ} (hn : 0 < n) :
    List.range n = 0 :: (List.range (n - 1)).map Nat.succ := by
  rw [← List.range_succ_eq_map]
  congr
  omega

/-- Without bins the rows of a first element are a division by zero. -/
theorem asRaw2DVectorNoID_zero {h : HashFamily} {t : SimpleTable} (hb : t.numBins = 0)
    (hnf : 0 < t.numOfHashFunctions) (he : t.elements ≠ []) :
    t.asRaw2DVectorNoID h = .error "division by zero" := by
  obtain ⟨v, rest, helements⟩ := List.exists_cons_of_ne_nil he
  have haddr := getAddressAt_entryAt_zero h v 0 0 hnf
  have hfirst : ∀ rows, SimpleTable.fileElement h t rows (v, 0) = .error "division by zero" := by
    intro rows
    rw [SimpleTable.fileElement, hb]
    refine foldlM_head_error (range_eq_cons hnf) rows ?_
    show (entryAt h 0 t.numOfHashFunctions v 0 0).getAddressAt 0 >>= _ = _
    rw [haddr]
    rfl
  have hzip : t.elements.zipIdx = (v, 0) :: rest.zipIdx 1 := by rw [helements, List.zipIdx_cons]
  rw [SimpleTable.asRaw2DVectorNoID, foldlM_head_error hzip _ (hfirst _)]
  rfl

/-- With no function or no element there is nothing to file. -/
theorem asRaw2DVectorNoID_idle (h : HashFamily) {t : SimpleTable}
    (hidle : t.numOfHashFunctions = 0 ∨ t.elements = []) :
    t.asRaw2DVectorNoID h = .ok (List.replicate t.numBins [], 0) := by
  rcases hidle with hnf | hempty
  · have hround : ∀ element, SimpleTable.fileElement h t (List.replicate t.numBins []) element =
        .ok (List.replicate t.numBins []) := by
      intro element
      rw [SimpleTable.fileElement, hnf]
      rfl
    rw [SimpleTable.asRaw2DVectorNoID, foldlM_idle _ hround]
    rfl
  · rw [SimpleTable.asRaw2DVectorNoID, hempty]
    rfl

theorem BinnedTable.map_spec {nf : ℕ} {t : BinnedTable} (hs : t.Sound nf) (h : HashFamily) :
    ¬ Fails RowFault (t.call (.mapElements h)) ∧
      ∀ t', t.call (.mapElements h) = .ok t' → t'.Sound nf ∧ 0 < t'.numBins := by
  rcases t.allocateBins_cases with ⟨e, herror, hown⟩ | ⟨n, hok, hn⟩
  · refine call_of_own_error ?_ hown
    rw [BinnedTable.call, BinnedTable.mapElements, BinnedTable.allocateTable, herror]
    rfl
  · cases hmapped : t.mapped with
    | true =>
        refine call_of_own_error ?_ not_rowFault_mapped
        rw [BinnedTable.call, BinnedTable.mapElements, BinnedTable.allocateTable, hok]
        simp only [bind, Except.bind, pure, Except.pure, BinnedTable.mapElementsToTable,
          hmapped, if_true]
    | false =>
        obtain ⟨hfresh, hmax⟩ := hs.2 hmapped
        have hmap := mapElements_holding (h := h) hok hn hmapped hfresh hmax
        exact call_of_ok hmap ⟨⟨hs.1, fun hfalse => Bool.noConfusion hfalse⟩, hn⟩

/-- The calls of the simple table. -/
theorem BinnedTable.spec (nf : ℕ) :
    TableSpec BinnedTable.call (·.numBins) (·.elements) nf RowFault (BinnedTable.Sound nf) where
  insert t more hs := ⟨t.insert more, rfl, hs, rfl, rfl⟩
  map t h hs := BinnedTable.map_spec hs h
  addresses t h hs hcase := by
    have hrows : ∃ rows, t.asRaw2DVectorNoID h = .ok rows := by
      rcases hcase with hb | hidle
      · exact ⟨_, asRaw2DVectorNoID_eq h t.toSimpleTable hb⟩
      · exact ⟨_, asRaw2DVectorNoID_idle h (by rwa [hs.1])⟩
    obtain ⟨rows, hrows⟩ := hrows
    rw [BinnedTable.call, hrows]
    rfl
  fault t h hs hb hnf he := by
    refine ⟨_, ?_, .inl rfl⟩
    rw [BinnedTable.call, asRaw2DVectorNoID_zero hb (by rw [hs.1]; omega) he]
    rfl

/-! ## The cuckoo table -/

/-- A table that is not mapped has nothing placed. -/
def CuckooTable.Sound (nf : ℕ) (t : CuckooTable) : Prop :=
  t.numOfHashFunctions = nf ∧ (t.mapped = false → t.hashTable = [])

/-- With bins all addresses are computed.  They are written to the storage
behind the empty vector, position by position. -/
theorem getElementAddresses_eq (h : HashFamily) {t : CuckooTable} (hb : 0 < t.numBins) :
    t.getElementAddresses h = .ok ⟨[], t.elements.zipIdx.flatMap fun element =>
      (List.range t.numOfHashFunctions).map fun j =>
        (element.2 * t.numOfHashFunctions + j, h j element.1 % t.numBins)⟩ := by
  have helement : ∀ element behind, CuckooTable.elementAddresses h t ⟨[], behind⟩ element =
      .ok ⟨[], behind ++ (List.range t.numOfHashFunctions).map fun j =>
        (element.2 * t.numOfHashFunctions + j, h j element.1 % t.numBins)⟩ := by
    intro element behind
    rw [List.map_eq_flatMap]
    refine foldlM_appending (ReservedVector.mk []) _ _ behind ?_
    intro j hj behind
    rw [getAddressAt_entryAt h element.1 element.2 0 hb (List.mem_range.mp hj)]
    rfl
  exact foldlM_appending (ReservedVector.mk []) _ _ [] fun element _ behind =>
    helement element behind

/-- With no function or no element there is no address. -/
theorem getElementAddresses_idle (h : HashFamily) {t : CuckooTable}
    (hidle : t.numOfHashFunctions = 0 ∨ t.elements = []) :
    t.getElementAddresses h = .ok ⟨[], []⟩ := by
  rcases hidle with hnf | hempty
  · have hround : ∀ element, CuckooTable.elementAddresses h t ⟨[], []⟩ element = .ok ⟨[], []⟩ := by
      intro element
      rw [CuckooTable.elementAddresses, hnf]
      rfl
    rw [CuckooTable.getElementAddresses, foldlM_idle _ hround]
  · rw [CuckooTable.getElementAddresses, hempty]
    rfl

/-- Without bins the addresses of a first element are a division by zero. -/
theorem getElementAddresses_zero {h : HashFamily} {t : CuckooTable} (hb : t.numBins = 0)
    (hnf : 0 < t.numOfHashFunctions) (he : t.elements ≠ []) :
    t.getElementAddresses h = .error "division by zero" := by
  obtain ⟨v, rest, helements⟩ := List.exists_cons_of_ne_nil he
  have haddr := getAddressAt_entryAt_zero h v 0 0 hnf
  have hfirst : ∀ x, CuckooTable.elementAddresses h t x (v, 0) = .error "division by zero" := by
    intro x
    rw [CuckooTable.elementAddresses, hb]
    refine foldlM_head_error (range_eq_cons hnf) x ?_
    rw [haddr]
    rfl
  have hzip : t.elements.zipIdx = (v, 0) :: rest.zipIdx 1 := by rw [helements, List.zipIdx_cons]
  exact foldlM_head_error hzip _ (hfirst _)

/-- Without a function no element can be placed. -/
theorem mapElement_no_function {h : HashFamily} {t : CuckooTable} (hnf : t.numOfHashFunctions = 0)
    (element : Word × ℕ) : CuckooTable.mapElement h t element = .error "std::out_of_range" := by
  rw [CuckooTable.mapElement, hnf]
  rfl

/-- A mapping of a table nothing is placed in does not fail on a remainder, and
the bins stay. -/
theorem mapElementsToTable_faultless {h : HashFamily} {t : CuckooTable} (hs : t.Slots h)
    (hnb : 0 < t.numBins) (hmapped : t.mapped = false) :
    ¬ Fails DivisionFault (t.mapElementsToTable h) ∧
      ∀ t', t.mapElementsToTable h = .ok t' →
        t'.toHashingTable = { t.toHashingTable with mapped := true } := by
  rcases Nat.eq_zero_or_pos t.numOfHashFunctions with hnf | hnf
  · rw [CuckooTable.mapElementsToTable, hmapped, if_neg Bool.false_ne_true]
    cases helements : t.elements with
    | nil =>
        exact call_of_ok rfl (by simp [helements])
    | cons v rest =>
        -- the first element has no address at all
        rw [List.zipIdx_cons, foldlM_head_error rfl _ (mapElement_no_function hnf _)]
        exact call_of_own_error rfl (by simp [DivisionFault])
  · obtain ⟨t', hmap, -, hbase⟩ := mapElementsToTable_slots hs hnb hnf hmapped
    exact call_of_ok hmap hbase

theorem CuckooTable.map_spec {nf : ℕ} {t : CuckooTable} (hs : t.Sound nf) (h : HashFamily) :
    ¬ Fails DivisionFault (t.call (.mapElements h)) ∧
      ∀ t', t.call (.mapElements h) = .ok t' → t'.Sound nf ∧ 0 < t'.numBins := by
  rcases t.allocateBins_cases with ⟨e, herror, hown⟩ | ⟨n, hok, hn⟩
  · refine call_of_own_error ?_ fun hbad => hown (.inl hbad)
    rw [CuckooTable.call, CuckooTable.mapElements, CuckooTable.allocateTable, herror]
    rfl
  · cases hmapped : t.mapped with
    | true =>
        refine call_of_own_error ?_ fun hbad => not_rowFault_mapped (.inl hbad)
        rw [CuckooTable.call, CuckooTable.mapElements, CuckooTable.allocateTable, hok]
        simp only [bind, Except.bind, pure, Except.pure, CuckooTable.mapElementsToTable,
          hmapped, if_true]
    | false =>
        let allocated : CuckooTable :=
          { t with numBins := n, hashTable := List.replicate n .empty }
        have hcall : t.call (.mapElements h) = allocated.mapElementsToTable h := by
          rw [CuckooTable.call, CuckooTable.mapElements, CuckooTable.allocateTable, hok,
            hs.2 hmapped]
          simp [bind, Except.bind, pure, Except.pure, allocated]
        obtain ⟨hfault, hbase⟩ := mapElementsToTable_faultless (h := h) (t := allocated)
          (slots_replicate_empty { t with numBins := n }) hn hmapped
        rw [hcall]
        refine ⟨hfault, ?_⟩
        intro t' ht'
        have hbase := hbase t' ht'
        refine ⟨⟨?_, ?_⟩, ?_⟩
        · rw [hbase]
          exact hs.1
        · rw [hbase]
          intro hfalse
          cases hfalse
        · rw [hbase]
          exact hn

/-- The calls of the cuckoo table. -/
theorem CuckooTable.spec (nf : ℕ) :
    TableSpec CuckooTable.call (·.numBins) (·.elements) nf DivisionFault
      (CuckooTable.Sound nf) where
  insert t more hs := ⟨t.insert more, rfl, hs, rfl, rfl⟩
  map t h hs := CuckooTable.map_spec hs h
  addresses t h hs hcase := by
    have hsome : ∃ v, t.getElementAddresses h = .ok v := by
      rcases hcase with hb | hidle
      · exact ⟨_, getElementAddresses_eq h hb⟩
      · exact ⟨_, getElementAddresses_idle h (by rwa [hs.1])⟩
    obtain ⟨v, hv⟩ := hsome
    rw [CuckooTable.call, hv]
    rfl
  fault t h hs hb hnf he := by
    refine ⟨_, ?_, rfl⟩
    rw [CuckooTable.call, getElementAddresses_zero hb (by rw [hs.1]; omega) he]
    rfl

/-! ## Both tables -/

/-- The run fixes the bin count at construction, or computes no address, or maps
before it asks for addresses. -/
def BinsBeforeUse (size : TableSize) (nf : ℕ) (calls : List TableCall) : Prop :=
  (∃ n pos, size = .numOfBins n pos) ∨ nf = 0 ∨ MappedBeforeUse [] calls

/-- A run on a new table takes no remainder modulo zero exactly if the bins are
there before they are used, on a simple table and on a cuckoo table.  The simple
table accesses no row that is not there under the same condition. -/
theorem run_takes_no_remainder_by_zero_iff (size : TableSize) (nf : ℕ) (calls : List TableCall) :
    (¬ Fails RowFault (calls.foldlM BinnedTable.call (size.simpleTable nf)) ↔
      BinsBeforeUse size nf calls) ∧
    (¬ Fails DivisionFault (calls.foldlM CuckooTable.call (size.cuckooTable nf)) ↔
      BinsBeforeUse size nf calls) := by
  have hsimple : (size.simpleTable nf).Sound nf := by
    cases size <;> exact ⟨rfl, fun _ => ⟨rfl, rfl⟩⟩
  have hcuckoo : (size.cuckooTable nf).Sound nf := by
    cases size <;> exact ⟨rfl, fun _ => rfl⟩
  cases size with
  | numOfBins n pos =>
      have hcondition : BinsBeforeUse (.numOfBins n pos) nf calls := .inl ⟨n, pos, rfl⟩
      exact ⟨iff_of_true ((BinnedTable.spec nf).run_faultless calls _ hsimple pos) hcondition,
        iff_of_true ((CuckooTable.spec nf).run_faultless calls _ hcuckoo pos) hcondition⟩
  | epsilon factor pos =>
      have hcondition : BinsBeforeUse (.epsilon factor pos) nf calls ↔
          nf = 0 ∨ MappedBeforeUse [] calls := by
        simp [BinsBeforeUse]
      rw [hcondition]
      exact ⟨(BinnedTable.spec nf).run_faultless_iff calls _ hsimple rfl,
        (CuckooTable.spec nf).run_faultless_iff calls _ hcuckoo rfl⟩

/-- With `epsilon` 1.27, an element inserted and the rows asked for, the address
is taken modulo zero. -/
theorem remainder_by_zero_of_unmapped :
    [TableCall.insert [5], .addresses shiftHash].foldlM BinnedTable.call
        ((TableSize.epsilon (127 / 100) (by norm_num)).simpleTable 3) =
      .error "division by zero" := by
  rfl

end Sectric
