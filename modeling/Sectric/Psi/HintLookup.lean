import Sectric.Hashing.Addresses
import Sectric.Psi.HintTable

/-!
# Looking items up in the hints

The client reads its cuckoo table out as one item for every bin, and takes the addresses
of the items from the storage `GetElementAddresses` leaves them in.  If the items of the
server are all different, the hint of an item stands under one of its functions, and
there it decodes to the content of the bin.
-/

namespace Sectric

open Lib

/-! ## The model -/

/-- `AsRawVector`.  An empty slot has no function id of its own. -/
def CuckooTable.asRawVector (unset : ℕ → Word) (t : CuckooTable) : Except String (List Word) :=
  if t.hashTable.length < t.numBins then .error "std::out_of_range"
  else .ok ((t.hashTable.take t.numBins).mapIdx fun i e =>
    if e.isEmpty then e.value ^^^ unset i else e.item)

/-- `v[i]`, where the storage holds what was written last. -/
def ReservedVector.read (v : ReservedVector) (i : ℕ) : ℕ :=
  if i < v.elements.length then v.elements.getD i 0 else ((fileAll v.behind).lookup i).getD 0

/-! ## Reading the addresses -/

/-- The client reads the addresses where they were written. -/
theorem ReservedVector.read_written {h : HashFamily} {nb nf : ℕ} {elements : List Word} {i j : ℕ}
    {v : Word} (hi : elements[i]? = some v) (hj : j < nf) :
    (ReservedVector.mk [] (writtenAddresses h nb nf elements)).read (i * nf + j) = h j v % nb := by
  have hmem : (i * nf + j, h j v % nb) ∈ writtenAddresses h nb nf elements :=
    mem_writtenAddresses.mpr ⟨i, v, hi, j, hj, rfl⟩
  obtain ⟨address, hlookup, hwritten⟩ := exists_lookup_fileAll (List.mem_map_of_mem hmem)
  obtain ⟨i', v', hi', j', hj', heq⟩ := mem_writtenAddresses.mp hwritten
  rw [Prod.mk.injEq] at heq
  obtain ⟨rfl, rfl⟩ := cell_inj hj' hj heq.1
  rw [hi, Option.some.injEq] at hi'
  subst hi'
  have hread : (ReservedVector.mk [] (writtenAddresses h nb nf elements)).read (i' * nf + j') =
      ((fileAll (writtenAddresses h nb nf elements)).lookup (i' * nf + j')).getD 0 := rfl
  rw [hread, hlookup, ← heq.2, Option.getD_some]

/-! ## The hint of an item -/

/-- The slot of an item under a function holds the item under it. -/
def Hinted (h' : HashFamily) (t : CuckooTable) (item : Word) (j : ℕ) : Prop :=
  ∃ e, t.hashTable[h' j item % t.numBins]? = some e ∧ e.isEmpty = false ∧ e.value = item ∧
    e.currentFunctionId = j

/-- An item that is filed once has one place. -/
theorem tlocAt_of_nodup {rows : List (List Word)} (hnodup : (filterInputs rows).Nodup) {i j : ℕ}
    {row : List Word} {item : Word} (hrow : rows[i]? = some row) (hj : row[j]? = some item) :
    tlocAt rows item = { bin := i, index := j } := by
  have hmem : (item, { bin := i, index := j : HashLoc }) ∈ placedItems rows :=
    mem_placedItems.mpr ⟨row, hrow, hj⟩
  obtain ⟨row', hrow', hindex⟩ := tlocAt_spec (List.mem_map_of_mem (f := Prod.fst) hmem)
  have hnoted : (item, tlocAt rows item) ∈ placedItems rows :=
    mem_placedItems.mpr ⟨row', hrow', hindex⟩
  exact congrArg Prod.snd (List.inj_on_of_nodup_map hnodup hnoted hmem rfl)

section Hints

variable {h' : HashFamily} {fbins ffuns : ℕ} {rows : List (List Word)} {t : CuckooTable}
  (hmap : (hintCuckooTable fbins ffuns rows).mapElements h' = .ok t)

include hmap

/-- With an empty stash, an item that is filed once has its hint under one function. -/
theorem hinted_under_one (hdummy : dummyElement ∉ filterInputs rows)
    (hnodup : (filterInputs rows).Nodup) (hstash : t.getStashSize = 0)
    {item : Word} (hitem : item ∈ filterInputs rows) :
    ∃ j < ffuns, ∀ j', Hinted h' t item j' ↔ j' = j := by
  obtain ⟨hnb, hsome⟩ := withElements_ok hmap
  obtain ⟨t', hmap', hi, rfl, rfl, helements⟩ :=
    withElements_inv h' 200 (filterInputs rows) hnb hsome
  cases hmap.symm.trans hmap'
  rw [← helements] at hi hdummy hnodup hitem
  obtain ⟨id, hid, hget⟩ := List.mem_iff_getElem.mp hitem
  obtain ⟨e, hentry, hvalue⟩ := hi.unique_id hdummy hid
  have hmem : e ∈ live t.hashTable ++ t.stash :=
    List.mem_of_mem_filter (hentry ▸ List.mem_singleton_self e)
  rw [List.length_eq_zero_iff.mp hstash, List.append_nil, mem_live] at hmem
  obtain ⟨b, hb⟩ := List.mem_iff_getElem?.mp hmem.1
  obtain ⟨hf, -, haddr⟩ := hi.address hnb hb hmem.2
  have hitem' : e.value = item := hvalue.trans hget
  refine ⟨e.currentFunctionId, hf, ?_⟩
  intro j'
  constructor
  · rintro ⟨e', hb', hne', hvalue', rfl⟩
    -- the entry has the id the item is inserted under
    obtain ⟨⟨v, id', f, -, hv, -, rfl⟩, -⟩ := hi.placed _ e' hb' hne'
    have hv' : v = t.elements[id] := hvalue'.trans hget.symm
    rw [hv', ← List.getElem?_eq_getElem hid, eq_comm, List.getElem?_inj hid hnodup] at hv
    have hlive : entryAt h' t.numBins t.numOfHashFunctions v id' f ∈
        (live t.hashTable ++ t.stash).filter fun e => e.globalId == id := by
      refine List.mem_filter.mpr ⟨?_, beq_iff_eq.mpr hv.symm⟩
      exact List.mem_append_left _ (mem_live.mpr ⟨List.mem_of_getElem? hb', hne'⟩)
    rw [hentry, List.mem_singleton] at hlive
    rw [hlive]
  · rintro rfl
    exact ⟨e, by rw [← hitem', haddr]; exact hb, hmem.2, hitem', rfl⟩

theorem garbledCuckooFilter_ok (s : HintSources) :
    s.garbledCuckooFilter fbins rows t =
      .ok (s.fill (tlocAt rows) (t.hashTable.take fbins) 0) := by
  obtain ⟨hnb, hsome⟩ := withElements_ok hmap
  obtain ⟨t', hmap', hi, rfl, -⟩ := withElements_inv h' 200 (filterInputs rows) hnb hsome
  cases hmap.symm.trans hmap'
  rw [HintSources.garbledCuckooFilter, if_neg (not_lt_of_ge hi.size.ge)]

/-- Where an item has its hint, it decodes to the content of its bin. -/
theorem hint_decodes (s : HintSources) (hnodup : (filterInputs rows).Nodup) {i j f : ℕ}
    {row : List Word} {item : Word} (hrow : rows[i]? = some row) (hj : row[j]? = some item)
    (hhint : Hinted h' t item f) :
    (s.fill (tlocAt rows) (t.hashTable.take fbins) 0).getD (h' f item % fbins) 0 ^^^
      s.prng (s.masks i j) f = s.contentOfBins i := by
  obtain ⟨hnb, hsome⟩ := withElements_ok hmap
  obtain ⟨t', hmap', hi, rfl, rfl, -⟩ := withElements_inv h' 200 (filterInputs rows) hnb hsome
  cases hmap.symm.trans hmap'
  obtain ⟨e, hb, hne, rfl, rfl⟩ := hhint
  have htake : (t.hashTable.take t.numBins)[h' e.currentFunctionId e.value % t.numBins]? =
      some e := by
    rw [← hi.size, List.take_length, hi.size]
    exact hb
  have hslot := (s.getElem?_fill (tlocAt rows) 0 htake).1 hne
  rw [List.getD_eq_getElem?_getD, hslot, Option.getD_some, HintSources.hint,
    tlocAt_of_nodup hnodup hrow hj, BitVec.xor_assoc, BitVec.xor_self, BitVec.xor_zero]

end Hints

/-! ## The items of the inputs -/

/-- The items of all inputs under all functions. -/
def itemsOf (nfuns : ℕ) (inputs : List Word) : List Word :=
  (filedPairs nfuns inputs).map fun p => p.2 ^^^ BitVec.ofNat 64 p.1

theorem mem_itemsOf {nfuns : ℕ} {inputs : List Word} {item : Word} :
    item ∈ itemsOf nfuns inputs ↔ ∃ x ∈ inputs, ∃ f < nfuns, x ^^^ BitVec.ofNat 64 f = item := by
  rw [itemsOf, List.mem_map]
  constructor
  · rintro ⟨p, hp, rfl⟩
    obtain ⟨hf, hx⟩ := mem_filedPairs.mp hp
    exact ⟨p.2, hx, p.1, hf, rfl⟩
  · rintro ⟨x, hx, f, hf, rfl⟩
    exact ⟨(f, x), mem_filedPairs.mpr ⟨hf, hx⟩, rfl⟩

theorem filterInputs_eq_flatten (rows : List (List Word)) : filterInputs rows = rows.flatten := by
  have hrow : ∀ row : List Word × ℕ,
      (row.1.zipIdx.map fun item => (item.1, { bin := row.2, index := item.2 : HashLoc })).map
        Prod.fst = row.1 := by
    intro row
    rw [List.map_map]
    exact List.zipIdx_map_fst 0 row.1
  rw [filterInputs, placedItems, List.map_flatMap]
  simp only [hrow]
  rw [List.flatMap_def]
  exact congrArg List.flatten (List.zipIdx_map_fst 0 rows)

/-- The items of all bins are those of the inputs. -/
theorem filterInputs_perm {h : HashFamily} {nbins nfuns : ℕ} {inputs : List Word}
    {rows : List (List Word)} (hrows : simpleTableItems h nbins nfuns inputs = .ok rows) :
    (filterInputs rows).Perm (itemsOf nfuns inputs) := by
  have hnb := simpleTableItems_pos hrows
  have hitems : (storedEntries h nbins nfuns inputs.zipIdx).map HashTableEntry.item =
      itemsOf nfuns inputs := by
    rw [storedEntries, itemsOf, filedPairs, List.map_flatMap, List.map_flatMap]
    simp only [List.map_map]
    conv_rhs => rw [← List.zipIdx_map_fst 0 inputs, List.flatMap_map]
    rfl
  rw [simpleTableItems_eq h hnb, Except.ok.injEq] at hrows
  rw [filterInputs_eq_flatten, ← hrows, ← hitems]
  exact perm_flatten_buckets _ _ _ fun e _ => Nat.mod_lt _ hnb

/-- What the client has in its bins. -/
theorem asRawVector_bins {h : HashFamily} {nbins nfuns : ℕ} {inputs : List Word}
    {t : CuckooTable}
    (hmap : (CuckooTable.withElements nbins nfuns 200 inputs).mapElements h = .ok t)
    (unset : ℕ → Word) :
    ∃ v, t.asRawVector unset = .ok v ∧ v.length = nbins ∧ ∀ i < nbins, ∃ e,
      t.hashTable[i]? = some e ∧ (e.isEmpty = true ∧ v[i]? = some (dummyElement ^^^ unset i) ∨
        e.isEmpty = false ∧ e.value ∈ inputs ∧ e.currentFunctionId < nfuns ∧
          h e.currentFunctionId e.value % nbins = i ∧ v[i]? = some e.item) := by
  obtain ⟨hnb, hsome⟩ := withElements_ok hmap
  obtain ⟨t', hmap', hi, rfl, rfl, -⟩ := withElements_inv h 200 inputs hnb hsome
  cases hmap.symm.trans hmap'
  refine ⟨_, by rw [CuckooTable.asRawVector, if_neg (not_lt_of_ge hi.size.ge)], ?_, ?_⟩
  · rw [List.length_mapIdx, List.length_take, hi.size, Nat.min_self]
  · intro i hlt
    obtain ⟨e, hslot⟩ : ∃ e, t.hashTable[i]? = some e :=
      ⟨_, List.getElem?_eq_getElem (hi.size ▸ hlt)⟩
    refine ⟨e, hslot, ?_⟩
    rw [← hi.size, List.take_length, List.getElem?_mapIdx, hslot, Option.map_some]
    cases hempty : e.isEmpty with
    | true =>
        have hvalue : e.value = dummyElement := by simpa [HashTableEntry.isEmpty] using hempty
        exact .inl ⟨rfl, by rw [if_pos rfl, hvalue]⟩
    | false =>
        obtain ⟨hf, -, haddr⟩ := hi.address hnb hslot hempty
        exact .inr ⟨rfl, value_mem_of_mapElements hmap (List.mem_of_getElem? hslot) hempty, hf,
          hi.size ▸ haddr, rfl⟩

end Sectric
