import Sectric.Hashing.ReadOut
import Sectric.Hashing.Simple

/-!
# The two tables agree bin by bin

The receiver reads its cuckoo table out as a list of active bins with one key
block each.  The sender reads its simple table out as one row of key blocks per
bin.  Both are built from the same hash functions.  The key of an active bin
occurs in the sender's row of that bin exactly when its element is one of the
sender's.

One direction needs the placement of the cuckoo table, that a function id and
an element determine the bin.  The other is read off the rows.
-/

namespace Sectric

/-- The key of an occupied bin is in the row of that bin exactly when its
element is among the filed ones. -/
theorem key_mem_row_iff {h : HashFamily} {t : CuckooTable} {hand : List HashTableEntry} {k : ℕ}
    (hi : CuckooInv h t hand k) (hnb : 0 < t.numBins) {e : HashTableEntry} {b : ℕ}
    (hmem : (e, b) ∈ t.occupied) (elements : List Word) :
    makeBlock (BitVec.ofNat 64 e.currentFunctionId) e.value ∈
        (simpleRows h t.numBins t.numOfHashFunctions elements)[b]?.getD [] ↔
      e.value ∈ elements := by
  obtain ⟨hb, howned, haddr⟩ := hi.occupied hnb hmem
  rw [mem_simpleRows_iff h elements hb]
  constructor
  · rintro ⟨f, -, v, hv, -, hx⟩
    exact (makeBlock_inj.mp hx).2 ▸ hv
  · intro hv
    obtain ⟨v, id, f, hf, -, -, rfl⟩ := howned
    exact ⟨f, hf, v, hv, haddr, rfl⟩

/-- The receiver's read-out against the sender's rows.  The active bins are
strictly increasing and in range, every key is the block of a function id and
an element of the receiver, and the key of an active bin is in the sender's row
of that bin if and only if its element is one of the sender's. -/
theorem asRawVectorNoID_agrees_with_rows (h : HashFamily) (nb nf limiter : ℕ)
    (receiver sender : List Word) (hnb : 0 < nb) (hnf : 0 < nf) :
    ∃ (t : CuckooTable) (activeIdx : List ℕ) (raw : List Block) (rows : List (List Block)),
      (CuckooTable.withElements nb nf limiter receiver).mapElements h = .ok t ∧
      t.asRawVectorNoID = .ok (activeIdx, raw) ∧
      ((SimpleTable.ofNumOfBins nb nf).insert sender).asRaw2DVectorNoID h = .ok (rows, 0) ∧
      activeIdx.Pairwise (· < ·) ∧ (∀ b ∈ activeIdx, b < nb) ∧
      raw.length = activeIdx.length ∧
      ∀ (k b : ℕ) (x : Block), activeIdx[k]? = some b → raw[k]? = some x →
        (∃ f < nf, ∃ v ∈ receiver, x = makeBlock (BitVec.ofNat 64 f) v) ∧
          (x ∈ rows[b]?.getD [] ↔ x.low ∈ sender) := by
  obtain ⟨t, hmap, hi, rfl, rfl, rfl⟩ := withElements_inv h limiter receiver hnb fun _ => hnf
  refine ⟨t, _, _, _, hmap, hi.asRawVectorNoID,
    asRaw2DVectorNoID_eq h ((SimpleTable.ofNumOfBins t.numBins t.numOfHashFunctions).insert sender)
      hnb, occupied_increasing t, ?_, by simp, ?_⟩
  · intro b hb
    obtain ⟨⟨e, b⟩, hmem, rfl⟩ := List.mem_map.mp hb
    exact (hi.occupied hnb hmem).1
  · intro k b x hb hx
    rw [List.getElem?_map, Option.map_eq_some_iff] at hb hx
    obtain ⟨⟨e, b⟩, hk, rfl⟩ := hb
    obtain ⟨_, hk', rfl⟩ := hx
    rw [hk, Option.some.injEq] at hk'
    subst hk'
    have hmem := List.mem_of_getElem? hk
    refine ⟨?_, ?_⟩
    · obtain ⟨-, ⟨v, id, f, hf, hv, -, rfl⟩, -⟩ := hi.occupied hnb hmem
      exact ⟨f, hf, v, List.mem_of_getElem? hv, rfl⟩
    · rw [low_makeBlock]
      exact key_mem_row_iff hi hnb hmem sender

/-- Four copies of one element against a sender that holds it. -/
theorem asRawVectorNoID_agrees_on_fourCopies :
    ∃ (t : CuckooTable) (activeIdx : List ℕ) (raw : List Block) (rows : List (List Block)),
      (CuckooTable.withElements 8 3 200 fourCopies).mapElements shiftHash = .ok t ∧
      t.asRawVectorNoID = .ok (activeIdx, raw) ∧
      ((SimpleTable.ofNumOfBins 8 3).insert [5, 6]).asRaw2DVectorNoID shiftHash = .ok (rows, 0) ∧
      ∀ (k b : ℕ) (x : Block), activeIdx[k]? = some b → raw[k]? = some x →
        (x ∈ rows[b]?.getD [] ↔ x.low ∈ ([5, 6] : List Word)) := by
  obtain ⟨t, activeIdx, raw, rows, hmap, hraw, hrows, -, -, -, hagree⟩ :=
    asRawVectorNoID_agrees_with_rows shiftHash 8 3 200 fourCopies [5, 6] (by decide) (by decide)
  exact ⟨t, activeIdx, raw, rows, hmap, hraw, hrows, fun k b x hb hx => (hagree k b x hb hx).2⟩

end Sectric
