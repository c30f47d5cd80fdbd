import Sectric.Hashing.Cuckoo

/-!
# Reading out the cuckoo table

`asRawVectorNoID` lists the non-empty bins in increasing order, with the block
of the function id and the element for each.  Two bins never have the same
block: the block determines the address, and the address of an entry is its bin.
So the keys of the receiver are distinct even where its elements are not.
-/

namespace Sectric

/-- The occupied slots are the non-empty bins. -/
theorem mem_occupied_iff {t : CuckooTable} (hsize : t.hashTable.length = t.numBins)
    {e : HashTableEntry} {b : ℕ} :
    (e, b) ∈ t.occupied ↔ t.hashTable[b]? = some e ∧ e.isEmpty = false := by
  rw [CuckooTable.occupied, ← hsize, List.take_length, List.mem_filter,
    List.mem_zipIdx_iff_getElem?]
  simp

/-- The active positions are listed in increasing order. -/
theorem occupied_increasing (t : CuckooTable) :
    (t.occupied.map Prod.snd).Pairwise (· < ·) := by
  have hsub : (t.occupied.map Prod.snd).Sublist
      (List.range' 0 (t.hashTable.take t.numBins).length) := by
    rw [← List.zipIdx_map_snd]
    exact List.filter_sublist.map Prod.snd
  exact List.Pairwise.sublist hsub List.pairwise_lt_range'

/-- An occupied slot of a mapped table: a bin, and an owned entry at its own
address. -/
theorem CuckooInv.occupied {h : HashFamily} {t : CuckooTable} {hand : List HashTableEntry}
    {k : ℕ} (hi : CuckooInv h t hand k) (hnb : 0 < t.numBins) {e : HashTableEntry} {b : ℕ}
    (hmem : (e, b) ∈ t.occupied) :
    b < t.numBins ∧ Owned h t.toHashingTable e ∧
      h e.currentFunctionId e.value % t.numBins = b := by
  obtain ⟨hb, hne⟩ := (mem_occupied_iff hi.size).mp hmem
  obtain ⟨hlt, -⟩ := List.getElem?_eq_some_iff.mp hb
  exact ⟨hi.size ▸ hlt, (hi.placed b e hb hne).1, (hi.address hnb hb hne).2.2⟩

/-- A mapped table can be read out. -/
theorem CuckooInv.asRawVectorNoID {h : HashFamily} {t : CuckooTable}
    {hand : List HashTableEntry} {k : ℕ} (hi : CuckooInv h t hand k) :
    t.asRawVectorNoID = .ok (t.occupied.map Prod.snd,
      t.occupied.map fun e => makeBlock (BitVec.ofNat 64 e.1.currentFunctionId) e.1.value) := by
  have hsize : ¬ t.hashTable.length < t.numBins := by
    have := hi.size
    omega
  rw [CuckooTable.asRawVectorNoID, if_neg hsize]

theorem map_fst_occupied {t : CuckooTable} (hsize : t.hashTable.length = t.numBins) :
    t.occupied.map Prod.fst = live t.hashTable := by
  rw [CuckooTable.occupied, ← hsize, List.take_length, live]
  conv_rhs => rw [← List.zipIdx_map_fst 0 t.hashTable, List.filter_map]
  rfl

theorem occupied_idxs_nodup (t : CuckooTable) : (t.occupied.map Prod.snd).Nodup :=
  (occupied_increasing t).imp fun h => Nat.ne_of_lt h

/-! ## The keys -/

/-- The key block of an entry. -/
def entryKey (e : HashTableEntry × ℕ) : Block :=
  makeBlock (BitVec.ofNat 64 e.1.currentFunctionId) e.1.value

/-- Two active bins have different keys, since a key determines its bin. -/
theorem nodup_entryKey {h : HashFamily} {t : CuckooTable} {hand : List HashTableEntry} {k : ℕ}
    (hinv : CuckooInv h t hand k) (hnb : 0 < t.numBins) (hnf : t.numOfHashFunctions ≤ 2 ^ 64) :
    (t.occupied.map entryKey).Nodup := by
  have hbins := occupied_idxs_nodup t
  refine List.Nodup.map_on ?_ (List.Nodup.of_map Prod.snd hbins)
  rintro ⟨e, b⟩ he ⟨e', b'⟩ he' hkey
  obtain ⟨-, ⟨v, id, f, hf, -, -, rfl⟩, hb⟩ := hinv.occupied hnb he
  obtain ⟨-, ⟨v', id', f', hf', -, -, rfl⟩, hb'⟩ := hinv.occupied hnb he'
  obtain ⟨hfunction, hvalue⟩ := makeBlock_inj.mp hkey
  change BitVec.ofNat 64 f = BitVec.ofNat 64 f' at hfunction
  change v = v' at hvalue
  have hff : f = f' := by
    have hnat := congrArg BitVec.toNat hfunction
    rwa [BitVec.toNat_ofNat, BitVec.toNat_ofNat, Nat.mod_eq_of_lt (by omega),
      Nat.mod_eq_of_lt (by omega)] at hnat
  change h f v % t.numBins = b at hb
  change h f' v' % t.numBins = b' at hb'
  have hbb : b = b' := by rw [← hb, ← hb', hff, hvalue]
  exact List.inj_on_of_nodup_map hbins he he' hbb

/-- The non-empty bins and the stash hold every element placed so far, dummies
apart. -/
theorem length_occupied_add_stash {h : HashFamily} {t : CuckooTable} {k : ℕ}
    (hi : CuckooInv h t [] k) :
    t.occupied.length + t.getStashSize = (storable t.elements k).length := by
  have hlen := hi.ids.length_eq
  rwa [List.nil_append, ← map_fst_occupied hi.size, List.length_map, List.length_append,
    List.length_map] at hlen

/-- Whatever is inserted, the keys read out after a mapping are distinct, and
with the stash there are as many as elements.  The mapping ends if there is a bin
and a function. -/
theorem asRawVectorNoID_keys (h : HashFamily) (nb nf limiter : ℕ) (elements : List Word)
    (hnf : nf ≤ 2 ^ 64) (hdummy : dummyElement ∉ elements) :
    (0 < nb → 0 < nf →
      ∃ t, (CuckooTable.withElements nb nf limiter elements).mapElements h = .ok t) ∧
    ∀ t, (CuckooTable.withElements nb nf limiter elements).mapElements h = .ok t →
      ∃ activeIdx raw, t.asRawVectorNoID = .ok (activeIdx, raw) ∧ raw.Nodup ∧
        raw.length + t.getStashSize = elements.length := by
  constructor
  · intro hnb hnf
    obtain ⟨t, hmap, -⟩ := withElements_inv h limiter elements hnb fun _ => hnf
    exact ⟨t, hmap⟩
  · intro t hmap
    obtain ⟨hnb, hsome⟩ := withElements_ok hmap
    obtain ⟨t', hmap', hi, hbins, hfuns, helements⟩ := withElements_inv h limiter elements hnb hsome
    rw [hmap, Except.ok.injEq] at hmap'
    subst hmap'
    refine ⟨_, _, hi.asRawVectorNoID, nodup_entryKey hi (hbins ▸ hnb) (hfuns ▸ hnf), ?_⟩
    rw [List.length_map, length_occupied_add_stash hi, helements, storable_eq_range hdummy,
      List.length_range]

theorem asRawVectorNoID_keys_of_fourCopies :
    ∃ t activeIdx raw, (CuckooTable.withElements 8 3 2 fourCopies).mapElements shiftHash = .ok t ∧
      t.asRawVectorNoID = .ok (activeIdx, raw) ∧ raw.Nodup ∧ raw.length + t.getStashSize = 4 := by
  obtain ⟨hok, hkeys⟩ := asRawVectorNoID_keys shiftHash 8 3 2 fourCopies (by decide) (by decide)
  obtain ⟨t, hmap⟩ := hok (by decide) (by decide)
  obtain ⟨activeIdx, raw, hraw, hnodup, hlen⟩ := hkeys t hmap
  exact ⟨t, activeIdx, raw, hmap, hraw, hnodup, hlen⟩

end Sectric
