import Sectric.Hashing.Mapping
import Sectric.Hashing.Cuckoo
import Sectric.Lib.Collect

/-!
# The hint table

The server of `run_circuit_psi` hashes its inputs into a simple table and reads it out
as words, an element plus the function it is filed under.  It notes the place of every
item in one map for all bins, puts the items of all bins into a cuckoo table, and sends
a hint for every slot: the content of the bin noted for the item, masked with an output
of the generator that is seeded with its mask.  The client looks its items up under the
functions of the cuckoo table.

An item does not say which element and which function it is the sum of.  If two
elements have an item in common, and it is filed in two bins, the place noted last is
the only one, and the hint is for that bin.  An item that equals the dummy element is
lost in the cuckoo table.  `hintsDecode_iff` says that there is nothing else to go wrong.

The generator and the transfer the masks come from are libraries.  A generator is a
function from seeds to outputs, and the mask of an item is a function of the item and
its bin.
-/

namespace Sectric

open Lib (buckets mem_bucket_iff fileAll exists_lookup_fileAll)

/-! ## The model -/

/-- `GetElement() ^ GetCurrentFunctinId()`. -/
def HashTableEntry.item (e : HashTableEntry) : Word :=
  e.value ^^^ BitVec.ofNat 64 e.currentFunctionId

/-- `AsRaw2DVector`.  The loops read `hash_table_.at(i)` for every `i` below
`num_bins_`. -/
def BinnedTable.asRaw2DVector (t : BinnedTable) : Except String (List (List Word)) :=
  if t.hashTable.length < t.numBins then .error "std::out_of_range"
  else .ok ((t.hashTable.take t.numBins).map fun bin => bin.map HashTableEntry.item)

/-- `simple_table_v`. -/
def simpleTableItems (h : HashFamily) (nbins nfuns : ℕ) (inputs : List Word) :
    Except String (List (List Word)) := do
  let simpleTable : BinnedTable :=
    .ofTable (((SimpleTable.ofNumOfBins nbins 0).setNumOfHashFunctions nfuns).insert inputs)
  let simpleTable ← simpleTable.mapElements h
  simpleTable.asRaw2DVector

/-- `hashlocmap`. -/
structure HashLoc where
  bin : ℕ
  index : ℕ

/-- The items with their places, in the order of the two loops. -/
def placedItems (rows : List (List Word)) : List (Word × HashLoc) :=
  rows.zipIdx.flatMap fun row => row.1.zipIdx.map fun item =>
    (item.1, { bin := row.2, index := item.2 })

/-- `tloc[item]` after the loops.  An item that is not there has the place of zeros. -/
def tlocAt (rows : List (List Word)) (item : Word) : HashLoc :=
  ((fileAll (placedItems rows)).lookup item).getD { bin := 0, index := 0 }

/-- `filterinputs`. -/
def filterInputs (rows : List (List Word)) : List Word := (placedItems rows).map Prod.fst

/-- `cuckoo_table` before the mapping. -/
def hintCuckooTable (fbins ffuns : ℕ) (rows : List (List Word)) : CuckooTable :=
  .withElements fbins ffuns 200 (filterInputs rows)

/-- What the hints are made from: the contents of the bins, the masks, the outputs of a
seeded generator, and those of the generator for the dummies. -/
structure HintSources where
  contentOfBins : ℕ → Word
  masks : ℕ → ℕ → Block
  prng : Block → ℕ → Word
  prngo : ℕ → Word

namespace HintSources

variable (s : HintSources)

/-- The hint for a slot that is not empty.  `pad` is the last of as many outputs as the
function id, and one more. -/
def hint (tloc : Word → HashLoc) (e : HashTableEntry) : Word :=
  let hlm := tloc e.value
  s.contentOfBins hlm.bin ^^^ s.prng (s.masks hlm.bin hlm.index) e.currentFunctionId

/-- The loop over the slots, with output `drawn` of `prngo` next. -/
def fill (tloc : Word → HashLoc) : List HashTableEntry → ℕ → List Word
  | [], _ => []
  | e :: slots, drawn =>
      if e.isEmpty then s.prngo drawn :: fill tloc slots (drawn + 1)
      else s.hint tloc e :: fill tloc slots drawn

/-- `garbled_cuckoo_filter`. -/
def garbledCuckooFilter (fbins : ℕ) (rows : List (List Word)) (t : CuckooTable) :
    Except String (List Word) :=
  if t.hashTable.length < fbins then .error "std::out_of_range"
  else .ok (s.fill (tlocAt rows) (t.hashTable.take fbins) 0)

/-- The mask of an item is a function of the item and its bin. -/
def MasksOfItems (rows : List (List Word)) : Prop :=
  ∀ (i : ℕ) row, rows[i]? = some row → ∀ (j j' : ℕ) item,
    row[j]? = some item → row[j']? = some item → s.masks i j = s.masks i j'

end HintSources

/-- Every item decodes, whatever the hints are made from: under one of its functions the
hint at its address, less the output of the generator, is the content of its bin. -/
def HintsDecode (h : HashFamily) (fbins ffuns : ℕ) (rows : List (List Word)) (t : CuckooTable) :
    Prop :=
  ∀ s : HintSources, s.MasksOfItems rows →
    ∃ garbled, s.garbledCuckooFilter fbins rows t = .ok garbled ∧
      ∀ (i : ℕ) row, rows[i]? = some row → ∀ (j : ℕ) item, row[j]? = some item →
        ∃ f < ffuns, garbled.getD (h f item % fbins) 0 ^^^ s.prng (s.masks i j) f =
          s.contentOfBins i

/-- No item is the dummy element, and an item two elements have in common is filed in
one bin. -/
structure ItemsDetermineBins (h : HashFamily) (nbins nfuns : ℕ) (inputs : List Word) : Prop where
  not_dummy : ∀ x ∈ inputs, ∀ f < nfuns, x ^^^ BitVec.ofNat 64 f ≠ dummyElement
  one_bin : ∀ x ∈ inputs, ∀ y ∈ inputs, ∀ f < nfuns, ∀ g < nfuns,
    x ^^^ BitVec.ofNat 64 f = y ^^^ BitVec.ofNat 64 g → h f x % nbins = h g y % nbins

/-- Over the pairs of a function and an element it can be computed. -/
instance (h : HashFamily) (nbins nfuns : ℕ) (inputs : List Word) :
    Decidable (ItemsDetermineBins h nbins nfuns inputs) :=
  decidable_of_iff
    ((∀ p ∈ filedPairs nfuns inputs, p.2 ^^^ BitVec.ofNat 64 p.1 ≠ dummyElement) ∧
      ∀ p ∈ filedPairs nfuns inputs, ∀ q ∈ filedPairs nfuns inputs,
        p.2 ^^^ BitVec.ofNat 64 p.1 = q.2 ^^^ BitVec.ofNat 64 q.1 →
          h p.1 p.2 % nbins = h q.1 q.2 % nbins) (by
    constructor
    · rintro ⟨hdummy, hbin⟩
      constructor
      · intro x hx f hf
        exact hdummy (f, x) (mem_filedPairs.mpr ⟨hf, hx⟩)
      · intro x hx y hy f hf g hg
        exact hbin (f, x) (mem_filedPairs.mpr ⟨hf, hx⟩) (g, y) (mem_filedPairs.mpr ⟨hg, hy⟩)
    · intro hdetermine
      constructor
      · intro p hp
        obtain ⟨hf, hx⟩ := mem_filedPairs.mp hp
        exact hdetermine.not_dummy p.2 hx p.1 hf
      · intro p hp q hq
        obtain ⟨hf, hx⟩ := mem_filedPairs.mp hp
        obtain ⟨hg, hy⟩ := mem_filedPairs.mp hq
        exact hdetermine.one_bin p.2 hx q.2 hy p.1 hf q.1 hg)

/-! ## The items of the simple table -/

/-- The table that is read out has a bin. -/
theorem simpleTableItems_pos {h : HashFamily} {nbins nfuns : ℕ} {inputs : List Word}
    {rows : List (List Word)} (hrows : simpleTableItems h nbins nfuns inputs = .ok rows) :
    0 < nbins := by
  cases nbins with
  | zero => cases hrows
  | succ nbins => exact Nat.succ_pos _

/-- A table of the bins of given entries can be read out. -/
theorem asRaw2DVector_holding (h : HashFamily) (t : BinnedTable) (entries : List HashTableEntry)
    (mapped : Bool) :
    ({ t.holding h entries with mapped := mapped } : BinnedTable).asRaw2DVector =
      .ok (buckets (entryAddress h t.numBins) HashTableEntry.item t.numBins entries) := by
  have hlen : (buckets (entryAddress h t.numBins) id t.numBins entries).length = t.numBins :=
    Lib.length_buckets _ _ _ _
  have hitems := Lib.map_map_buckets (entryAddress h t.numBins) id HashTableEntry.item t.numBins
    entries
  rw [BinnedTable.asRaw2DVector]
  simp only [BinnedTable.holding, hlen, lt_irrefl, if_false, List.take_of_length_le hlen.le]
  exact congrArg Except.ok hitems

theorem simpleTableItems_eq (h : HashFamily) {nbins : ℕ} (hnb : 0 < nbins) (nfuns : ℕ)
    (inputs : List Word) :
    simpleTableItems h nbins nfuns inputs =
      .ok (buckets (entryAddress h nbins) HashTableEntry.item nbins
        (storedEntries h nbins nfuns inputs.zipIdx)) := by
  have hmap := mapElements_holding (h := h)
    (t := .ofTable (((SimpleTable.ofNumOfBins nbins 0).setNumOfHashFunctions nfuns).insert inputs))
    (HashingTable.allocateBins_of_pos hnb rfl) hnb rfl rfl rfl
  rw [simpleTableItems]
  simp only [hmap, bind, Except.bind]
  exact asRaw2DVector_holding h _ _ true

/-- A row holds the sums of elements and functions with its address. -/
theorem mem_simpleTableItems {h : HashFamily} {nbins nfuns : ℕ} {inputs : List Word}
    {rows : List (List Word)} (hrows : simpleTableItems h nbins nfuns inputs = .ok rows) (i : ℕ)
    (item : Word) :
    (∃ row, rows[i]? = some row ∧ item ∈ row) ↔
      ∃ x ∈ inputs, ∃ f < nfuns, h f x % nbins = i ∧ x ^^^ BitVec.ofNat 64 f = item := by
  have hnb := simpleTableItems_pos hrows
  rw [simpleTableItems_eq h hnb, Except.ok.injEq] at hrows
  subst hrows
  have hrow : (∃ row, (buckets (entryAddress h nbins) HashTableEntry.item nbins
      (storedEntries h nbins nfuns inputs.zipIdx))[i]? = some row ∧ item ∈ row) ↔
        ∃ e ∈ storedEntries h nbins nfuns inputs.zipIdx, entryAddress h nbins e = i ∧
          e.item = item := by
    constructor
    · rintro ⟨row, hi, hitem⟩
      have hlt : i < nbins := by simpa using (List.getElem?_eq_some_iff.mp hi).1
      rw [← mem_bucket_iff _ _ _ hlt, hi]
      exact hitem
    · rintro ⟨e, he, rfl, hitem⟩
      have hlt : entryAddress h nbins e < nbins := Nat.mod_lt _ hnb
      refine ⟨_, Lib.getElem?_buckets _ _ _ hlt, ?_⟩
      have hmem := (mem_bucket_iff _ HashTableEntry.item _ hlt item).mpr ⟨e, he, rfl, hitem⟩
      rwa [Lib.getElem?_buckets _ _ _ hlt] at hmem
  rw [hrow]
  constructor
  · rintro ⟨e, he, haddr, hitem⟩
    obtain ⟨⟨x, id⟩, hx, he⟩ := List.mem_flatMap.mp he
    obtain ⟨f, hf, rfl⟩ := List.mem_map.mp he
    exact ⟨x, List.fst_mem_of_mem_zipIdx hx, f, List.mem_range.mp hf, haddr, hitem⟩
  · rintro ⟨x, hx, f, hf, haddr, hitem⟩
    obtain ⟨id, hid⟩ := List.mem_iff_getElem?.mp hx
    refine ⟨entryAt h nbins nfuns x id f, ?_, haddr, hitem⟩
    refine List.mem_flatMap.mpr ⟨(x, id), List.mem_zipIdx_iff_getElem?.mpr hid, ?_⟩
    exact List.mem_map_of_mem (List.mem_range.mpr hf)

/-! ## The places of the items -/

section Places

variable {rows : List (List Word)}

theorem mem_placedItems {item : Word} {loc : HashLoc} :
    (item, loc) ∈ placedItems rows ↔
      ∃ row, rows[loc.bin]? = some row ∧ row[loc.index]? = some item := by
  simp only [placedItems, List.mem_flatMap, List.mem_map]
  constructor
  · rintro ⟨⟨row, i⟩, hrow, ⟨item', j⟩, hitem, heq⟩
    cases heq
    exact ⟨row, List.mem_zipIdx_iff_getElem?.mp hrow, List.mem_zipIdx_iff_getElem?.mp hitem⟩
  · rintro ⟨row, hrow, hitem⟩
    exact ⟨(row, loc.bin), List.mem_zipIdx_iff_getElem?.mpr hrow, (item, loc.index),
      List.mem_zipIdx_iff_getElem?.mpr hitem, rfl⟩

theorem mem_filterInputs {item : Word} :
    item ∈ filterInputs rows ↔ ∃ (i : ℕ) (row : _), rows[i]? = some row ∧ item ∈ row := by
  rw [filterInputs, List.mem_map]
  constructor
  · rintro ⟨⟨item, loc⟩, hmem, rfl⟩
    obtain ⟨row, hrow, hitem⟩ := mem_placedItems.mp hmem
    exact ⟨loc.bin, row, hrow, List.mem_of_getElem? hitem⟩
  · rintro ⟨i, row, hrow, hitem⟩
    obtain ⟨j, hj⟩ := List.mem_iff_getElem?.mp hitem
    exact ⟨(item, { bin := i, index := j }), mem_placedItems.mpr ⟨row, hrow, hj⟩, rfl⟩

/-- The place noted for an item is a place of the item. -/
theorem tlocAt_spec {item : Word} (h : item ∈ filterInputs rows) :
    ∃ row, rows[(tlocAt rows item).bin]? = some row ∧
      row[(tlocAt rows item).index]? = some item := by
  obtain ⟨loc, hlookup, hmem⟩ := exists_lookup_fileAll h
  have hloc : tlocAt rows item = loc := by
    rw [tlocAt, hlookup]
    rfl
  rw [hloc]
  exact mem_placedItems.mp hmem

end Places

/-! ## The hints -/

/-- A slot that is not empty has the hint of its entry, an empty one a dummy. -/
theorem HintSources.getElem?_fill (s : HintSources) (tloc : Word → HashLoc) :
    ∀ {slots : List HashTableEntry} (drawn : ℕ) {b : ℕ} {e : HashTableEntry}, slots[b]? = some e →
      (e.isEmpty = false → (s.fill tloc slots drawn)[b]? = some (s.hint tloc e)) ∧
        (e.isEmpty = true → ∃ d, (s.fill tloc slots drawn)[b]? = some (s.prngo d)) := by
  intro slots
  induction slots with
  | nil =>
      intro drawn b e h
      cases h
  | cons e' slots ih =>
      intro drawn b e h
      cases b with
      | zero =>
          cases h
          cases hempty : e'.isEmpty with
          | true => simp [fill, hempty]
          | false => simp [fill, hempty]
      | succ b =>
          have hrest : slots[b]? = some e := h
          rw [fill]
          split
          · exact ih _ hrest
          · exact ih _ hrest

@[simp] theorem HintSources.length_fill (s : HintSources) (tloc : Word → HashLoc) :
    ∀ (slots : List HashTableEntry) (drawn : ℕ), (s.fill tloc slots drawn).length = slots.length
  | [], _ => rfl
  | e :: slots, drawn => by
      rw [fill]
      split <;> simp [length_fill s tloc slots]

section Decoding

variable {h : HashFamily} {fbins ffuns : ℕ} {rows : List (List Word)} {t : CuckooTable}
  (hmap : (hintCuckooTable fbins ffuns rows).mapElements h = .ok t)

include hmap

/-- If the bin noted for every item is its only one, the items decode. -/
theorem hintsDecode_of_one_bin (hstash : t.getStashSize = 0)
    (hdummy : dummyElement ∉ filterInputs rows)
    (hbin : ∀ (i : ℕ) row, rows[i]? = some row → ∀ item ∈ row, (tlocAt rows item).bin = i) :
    HintsDecode h fbins ffuns rows t := by
  intro s hmasks
  obtain ⟨hnb, hsome⟩ := withElements_ok hmap
  obtain ⟨t', hmap', hi, rfl, rfl, helements⟩ :=
    withElements_inv h 200 (filterInputs rows) hnb hsome
  cases hmap.symm.trans hmap'
  rw [← helements] at hi hdummy
  have hsize : ¬ t.hashTable.length < t.numBins := by
    rw [hi.size]
    exact lt_irrefl _
  refine ⟨_, by rw [HintSources.garbledCuckooFilter, if_neg hsize], ?_⟩
  intro i row hrow j item hitem
  -- the entry of the item is in a slot, since the stash is empty
  have hin : item ∈ t.elements := by
    rw [helements]
    exact mem_filterInputs.mpr ⟨i, row, hrow, List.mem_of_getElem? hitem⟩
  obtain ⟨id, hid, hget⟩ := List.mem_iff_getElem.mp hin
  obtain ⟨e, hentry, hvalue⟩ := hi.unique_id hdummy hid
  have hmem : e ∈ live t.hashTable ++ t.stash :=
    List.mem_of_mem_filter (hentry ▸ List.mem_singleton_self e)
  rw [List.length_eq_zero_iff.mp hstash, List.append_nil, mem_live] at hmem
  obtain ⟨b, hb⟩ := List.mem_iff_getElem?.mp hmem.1
  obtain ⟨hf, -, haddr⟩ := hi.address hnb hb hmem.2
  have hitem' : e.value = item := hvalue.trans hget
  have htake : (t.hashTable.take t.numBins)[b]? = some e := by
    rw [← hi.size, List.take_length]
    exact hb
  have hslot := (s.getElem?_fill (tlocAt rows) 0 htake).1 hmem.2
  -- the mask noted is another one of the item in the same bin
  obtain ⟨row', hrow', hindex⟩ := tlocAt_spec
    (mem_filterInputs.mpr ⟨i, row, hrow, List.mem_of_getElem? hitem⟩)
  have hnoted := hbin i row hrow item (List.mem_of_getElem? hitem)
  rw [hnoted, hrow, Option.some.injEq] at hrow'
  subst hrow'
  have hmask := hmasks i row hrow _ j item hindex hitem
  refine ⟨e.currentFunctionId, hf, ?_⟩
  rw [hitem'] at haddr
  rw [haddr, List.getD_eq_getElem?_getD, hslot, Option.getD_some, HintSources.hint, hitem']
  simp only [hnoted, hmask]
  rw [BitVec.xor_assoc, BitVec.xor_self, BitVec.xor_zero]

/-- Sources that mark the masks of one item in one bin. -/
def markingSources (rows : List (List Word)) (i : ℕ) (item : Word) : HintSources where
  contentOfBins _ := 0
  masks i' j' := if i' = i ∧ (rows[i']?.bind (·[j']?)) = some item then 1 else 0
  prng seed _ := seed.low
  prngo _ := 0

omit hmap in
theorem masksOfItems_markingSources (i : ℕ) (item : Word) :
    (markingSources rows i item).MasksOfItems rows := by
  intro i' row hrow j j' item' hj hj'
  simp [markingSources, hrow, hj, hj']

omit hmap in
/-- A hint is 1 only if the mask noted is marked. -/
theorem marked_of_hint {i : ℕ} {item : Word} {tloc : Word → HashLoc} {e : HashTableEntry}
    (hone : (markingSources rows i item).hint tloc e = 1) :
    (tloc e.value).bin = i ∧
      (rows[(tloc e.value).bin]?.bind (·[(tloc e.value).index]?)) = some item := by
  by_contra hnot
  simp only [HintSources.hint, markingSources, if_neg hnot] at hone
  cases hone

/-- Where every item decodes, the bin noted for an item is its own, and no item is the
dummy element. -/
theorem HintsDecode.noted (hdecode : HintsDecode h fbins ffuns rows t) {i : ℕ} {row : List Word}
    (hrow : rows[i]? = some row) {item : Word} (hitem : item ∈ row) :
    item ≠ dummyElement ∧ (tlocAt rows item).bin = i := by
  let s := markingSources rows i item
  obtain ⟨j, hj⟩ := List.mem_iff_getElem?.mp hitem
  obtain ⟨garbled, hgarbled, hall⟩ := hdecode s (masksOfItems_markingSources i item)
  obtain ⟨f, -, hf⟩ := hall i row hrow j item hj
  rw [HintSources.garbledCuckooFilter] at hgarbled
  split at hgarbled
  · cases hgarbled
  · cases hgarbled
    have hpad : s.prng (s.masks i j) f = 1 := by
      simp only [s, markingSources, hrow, Option.bind_some, hj, and_self, if_true]
      rfl
    have hone : (s.fill (tlocAt rows) (t.hashTable.take fbins) 0).getD (h f item % fbins) 0 =
        1 := by
      rw [hpad] at hf
      exact BitVec.xor_eq_zero_iff.mp hf
    cases hslot : (t.hashTable.take fbins)[h f item % fbins]? with
    | none =>
        have hbehind : (s.fill (tlocAt rows) (t.hashTable.take fbins) 0).length ≤
            h f item % fbins := by
          rw [HintSources.length_fill]
          exact List.getElem?_eq_none_iff.mp hslot
        rw [List.getD_eq_default _ _ hbehind] at hone
        cases hone
    | some e =>
        have hfill := s.getElem?_fill (tlocAt rows) 0 hslot
        rw [List.getD_eq_getElem?_getD] at hone
        cases hempty : e.isEmpty with
        | true =>
            obtain ⟨d, hd⟩ := hfill.2 hempty
            rw [hd] at hone
            cases hone
        | false =>
            -- the slot has the mark, so its entry is the item, and its bin the one noted
            rw [hfill.1 hempty] at hone
            have hmark := marked_of_hint hone
            have hin := value_mem_of_mapElements hmap
              (List.mem_of_mem_take (List.mem_of_getElem? hslot)) hempty
            obtain ⟨row', hrow', hindex⟩ := tlocAt_spec hin
            rw [hrow', Option.bind_some, hindex, Option.some.injEq] at hmark
            rw [← hmark.2]
            exact ⟨(HashTableEntry.isEmpty_eq_false_iff e).mp hempty, hmark.1⟩

end Decoding

/-- An element is in the bin of the function. -/
def functionHash : HashFamily := fun f _ => f

/-- The bin is the element. -/
def elementHash : HashFamily := fun _ w => w.toNat

/-- Even words have the first two slots, odd ones the last two. -/
def parityHash : HashFamily := fun f w => 2 * (w.toNat % 2) + f

/-- A cuckoo table of four slots on the way.  A slot is empty or has an element, its id
and its function. -/
def tableOnWay (h : HashFamily) (ffuns : ℕ) (items : List Word)
    (slots : List (Option (Word × ℕ × ℕ))) (counter : ℕ) : CuckooTable :=
  { CuckooTable.withElements 4 ffuns 200 items with
    hashTable := slots.map fun
      | none => .empty
      | some (v, id, f) => entryAt h 4 ffuns v id f
    recursiveRemappingsCounter := counter }

/-- Four steps fill the table. -/
theorem mapElements_tableOnWay {h : HashFamily} {ffuns : ℕ} {a b c d : Word}
    {t₁ t₂ t₃ t₄ : CuckooTable}
    (hfirst : CuckooTable.mapElement h
      (tableOnWay h ffuns [a, b, c, d] [none, none, none, none] 0) (a, 0) = .ok t₁)
    (hsecond : CuckooTable.mapElement h t₁ (b, 1) = .ok t₂)
    (hthird : CuckooTable.mapElement h t₂ (c, 2) = .ok t₃)
    (hfourth : CuckooTable.mapElement h t₃ (d, 3) = .ok t₄) :
    (CuckooTable.withElements 4 ffuns 200 [a, b, c, d]).mapElements h =
      .ok { t₄ with mapped := true } := by
  refine mapElements_of_fresh (Nat.succ_pos 3) rfl rfl rfl ?_
  change List.foldlM _ (tableOnWay h ffuns [a, b, c, d] [none, none, none, none] 0)
    [(a, 0), (b, 1), (c, 2), (d, 3)] = _
  simp only [List.foldlM_cons, hfirst, hsecond, hthird, hfourth, bind, Except.bind]
  rfl

/-- The table of the items of 2 and 4. -/
def apartTable : List (Option (Word × ℕ × ℕ)) → ℕ → CuckooTable :=
  tableOnWay elementHash 1 [2, 4, 3, 5]

/-- The table of the items of 2 and 3. -/
def commonTable : List (Option (Word × ℕ × ℕ)) → ℕ → CuckooTable :=
  tableOnWay parityHash 2 [2, 3, 3, 2]

end Sectric
