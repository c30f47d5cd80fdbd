import Sectric.Equality.BatchTree

/-!
# The leaves of a batch

The byte BOB gets for a leaf holds, in bit `k`, ALICE's mask bit for word `k` of the
batch, flipped if the digits agree.  Taking the bytes apart in place is taking apart a
copy of them, since the byte of a leaf is overwritten last.  So for every word of a
batch the two parties share the agreement of the digits, and with the tree the outputs
share the parity of the words that agree.
-/

namespace Sectric

open Lib

/-! ## Messages -/

/-- A truth value at bit `m`. -/
theorem getLsbD_boolByte_shift (b : Bool) (m : ℕ) {t : ℕ} (ht : t < 8) :
    (boolByte b <<< m).getLsbD t = (decide (t = m) && b) := by
  rw [BitVec.getLsbD_shiftLeft]
  cases b with
  | false => simp [boolByte]
  | true =>
      simp only [boolByte, if_true, Bool.and_true, ht, decide_true, Bool.true_and]
      rw [Bool.eq_iff_iff]
      simp
      omega

/-- Truth values packed one by one. -/
theorem getLsbD_pack (v : ℕ → Bool) (n : ℕ) {t : ℕ} (ht : t < 8) :
    ((List.range n).foldl (fun message m => message ||| (boolByte (v m) <<< m)) (0 : Byte)).getLsbD
      t = (decide (t < n) && v t) := by
  induction n with
  | zero => simp
  | succ n ih =>
      rw [List.range_succ, List.foldl_append, List.foldl_cons, List.foldl_nil, BitVec.getLsbD_or,
        ih, getLsbD_boolByte_shift _ _ ht]
      by_cases heq : t = n
      · subst heq
        simp
      · have hlt : t < n + 1 ↔ t < n := by omega
        simp [heq, hlt]

/-- The bit that is taken out of a byte. -/
theorem shift_and_one (b : Byte) (j : ℕ) : (b >>> j) &&& 1 = boolByte (b.getLsbD j) := by
  apply BitVec.eq_of_getLsbD_eq
  intro t _
  cases t with
  | zero => cases hbit : b.getLsbD j <;> simp [boolByte, hbit]
  | succ t => cases hbit : b.getLsbD j <;> simp [boolByte]

/-- Messages of the given number of bits. -/
def OfWidth (width : ℕ) (row : List Byte) : Prop :=
  ∀ b ∈ row, ∀ t, width ≤ t → b.getLsbD t = false

theorem OfWidth.mono {width width' : ℕ} {row : List Byte} (h : OfWidth width row)
    (hle : width ≤ width') : OfWidth width' row :=
  fun b hb t ht => h b hb t (hle.trans ht)

namespace BatchEquality

variable {eq : BatchEquality}

/-- Bit `m` of message `k` of a leaf. -/
def leafBit (eq : BatchEquality) (dataAlice : List Word) (masks : List Bool) (i j k m : ℕ) : Bool :=
  ((eq.digit dataAlice i (j * eq.batchSize + m)).toNat == k) ^^
    masks.getD ((m * eq.numDigits + i) * eq.numCmps + j) false

theorem leafMessage_eq (dataAlice : List Word) (masks : List Bool) {i j : ℕ}
    (hi : i < eq.numDigits) (hj : j < eq.numCmps) (k : ℕ) :
    eq.leafMessage (eq.digits .alice dataAlice) (masks.map boolByte) i j k =
      (List.range eq.batchSize).foldl (fun message m =>
        message ||| (boolByte (eq.leafBit dataAlice masks i j k m) <<< m)) 0 := by
  rw [leafMessage]
  refine List.foldl_ext _ _ _ fun message m hm => ?_
  have hcell : j * eq.batchSize + m < eq.batchSize * eq.numCmps := by
    rw [Nat.mul_comm eq.batchSize]
    exact cell_lt hj (List.mem_range.mp hm)
  have hdigit : (eq.digits .alice dataAlice).getD
      (i * eq.radixArrSize .alice + j * eq.batchSize + m) 0 =
        eq.digit dataAlice i (j * eq.batchSize + m) := by
    rw [Nat.add_assoc]
    exact getD_rowMajor _ _ hi hcell
  have hmask : m * eq.numDigits * eq.numCmps + i * eq.numCmps + j =
      (m * eq.numDigits + i) * eq.numCmps + j := by ring
  rw [hdigit, getD_map_boolByte, hmask, boolByte_xor, leafBit]

theorem leafMessage_width (dataAlice : List Word) (masks : List Bool) {i j : ℕ}
    (hi : i < eq.numDigits) (hj : j < eq.numCmps) (N : ℕ) :
    OfWidth eq.batchSize
      (eq.setLeafOtMessages (eq.digits .alice dataAlice) N (masks.map boolByte) i j) := by
  intro b hb t ht
  obtain ⟨k, -, rfl⟩ := List.mem_map.mp hb
  rw [leafMessage_eq dataAlice masks hi hj]
  rcases Nat.lt_or_ge t 8 with ht8 | ht8
  · rw [getLsbD_pack _ _ ht8, decide_eq_false (by omega), Bool.false_and]
  · exact BitVec.getLsbD_of_ge _ _ ht8

/-- What BOB receives for a leaf. -/
def leafByte (eq : BatchEquality) (dataAlice dataBob : List Word) (masks : List Bool) (i j : ℕ) :
    Byte :=
  eq.leafMessage (eq.digits .alice dataAlice) (masks.map boolByte) i j
    (eq.digit dataBob i j).toNat

theorem leafOtMessages_eq (wan : Bool) (digits leafEq : List Byte) :
    eq.leafOtMessages wan digits leafEq = rowMajor eq.numDigits eq.numCmps fun i j =>
      eq.setLeafOtMessages digits (eq.rowSize wan i) leafEq i j := by
  refine rowMajor_congr fun i _ j _ => ?_
  exact Equality.ite_rowSize (fun N => eq.setLeafOtMessages digits N leafEq i j) wan i

theorem leafOts_eq (h : eq.Valid) {width : ℕ} (hwidth : eq.batchSize ≤ width) {ot : OtPack}
    (hot : ot.Selects (OfWidth width) (2 ^ eq.beta)) (dataAlice dataBob : List Word)
    (masks : List Bool) {wan : Bool} (hr : wan = true ∨ eq.r ≤ 4) :
    eq.leafOts wan ot (eq.leafOtMessages wan (eq.digits .alice dataAlice) (masks.map boolByte))
        (eq.digits .bob dataBob) =
      .ok (rowMajor eq.numDigits eq.numCmps (eq.leafByte dataAlice dataBob masks)) := by
  have hchoice : ∀ i j, (eq.digit dataBob i j).toNat < 2 ^ eq.digitWidth i :=
    h.toNat_digit_lt dataBob
  have hdigits : eq.digits .bob dataBob =
      rowMajor eq.numDigits eq.numCmps (eq.digit dataBob) := rfl
  rw [leafOtMessages_eq, hdigits, Equality.leafOts_rows hot h ?_ hchoice hr]
  · congr 1
    refine rowMajor_congr fun i _ j _ => ?_
    exact getD_map_range _ _ (h.lt_rowSize (hchoice i j) wan)
  · intro i hi j hj
    refine ⟨?_, (leafMessage_width dataAlice masks hi hj _).mono hwidth⟩
    rw [setLeafOtMessages, List.length_map, List.length_range]

/-! ## Taking the bytes apart -/

/-- The rounds of the loop: the leaves in order, the words of each from the last to the
first. -/
def extractRounds (leaves batchSize : ℕ) : List (ℕ × ℕ) :=
  (List.range leaves).flatMap fun i => (List.range batchSize).reverse.map fun j => (i, j)

theorem mem_extractRounds {leaves batchSize : ℕ} {p : ℕ × ℕ} :
    p ∈ extractRounds leaves batchSize ↔ p.1 < leaves ∧ p.2 < batchSize := by
  simp only [extractRounds, List.mem_flatMap, List.mem_map, List.mem_reverse, List.mem_range]
  constructor
  · rintro ⟨i, hi, j, hj, rfl⟩
    exact ⟨hi, hj⟩
  · rintro ⟨hi, hj⟩
    exact ⟨p.1, hi, p.2, hj, rfl⟩

/-- What holds of a round and every later one. -/
theorem pairwise_extractRounds {leaves batchSize : ℕ} {R : ℕ × ℕ → ℕ × ℕ → Prop}
    (h : ∀ p p', p.1 < leaves → p'.1 < leaves → p.1 < p'.1 ∨ (p.1 = p'.1 ∧ p'.2 < p.2) → R p p') :
    (extractRounds leaves batchSize).Pairwise R := by
  rw [extractRounds, List.pairwise_flatMap]
  constructor
  · intro i hi
    have hlt := List.mem_range.mp hi
    rw [List.pairwise_map, List.pairwise_reverse]
    refine List.pairwise_lt_range.imp ?_
    intro j' j hj
    exact h _ _ hlt hlt (.inr ⟨rfl, hj⟩)
  · refine List.pairwise_lt_range.imp_of_mem fun {i i'} hi hi' hii' p hp p' hp' => ?_
    obtain ⟨j, -, rfl⟩ := List.mem_map.mp hp
    obtain ⟨j', -, rfl⟩ := List.mem_map.mp hp'
    exact h _ _ (List.mem_range.mp hi) (List.mem_range.mp hi') (.inl hii')

/-- The cell a round writes. -/
def extractCell (leaves : ℕ) (p : ℕ × ℕ) : ℕ := p.2 * leaves + p.1

/-- The loop in place, as a loop from a copy. -/
theorem extract_eq (eq : BatchEquality) (leafEq : List Byte) :
    eq.extract leafEq = writeAll (extractCell (eq.numDigits * eq.numCmps))
      (fun p => (leafEq.getD p.1 0 >>> p.2) &&& 1)
      (extractRounds (eq.numDigits * eq.numCmps) eq.batchSize) leafEq := by
  rw [← foldl_set_eq_writeAll _ Prod.fst fun p b => (b >>> p.2) &&& 1, extract, extractRounds,
    List.foldl_flatMap]
  · simp only [List.foldl_map]
    rfl
  · -- a round writes the byte of a leaf only if it is the last for that leaf
    refine pairwise_extractRounds fun p p' hp hp' hlater => ?_
    rw [extractCell]
    cases hword : p.2 with
    | zero => omega
    | succ j =>
        rw [Nat.succ_mul]
        omega

/-- The leaves of word `j` of the batches are bit `j` of the bytes. -/
theorem getD_extract {leafEq : List Byte}
    (hlen : leafEq.length = eq.batchSize * (eq.numDigits * eq.numCmps)) {i j : ℕ}
    (hi : i < eq.numDigits * eq.numCmps) (hj : j < eq.batchSize) :
    (eq.extract leafEq).getD (j * (eq.numDigits * eq.numCmps) + i) 0 =
      boolByte ((leafEq.getD i 0).getLsbD j) := by
  have hnodup : ((extractRounds (eq.numDigits * eq.numCmps) eq.batchSize).map
      (extractCell (eq.numDigits * eq.numCmps))).Nodup := by
    rw [List.Nodup, List.pairwise_map]
    refine pairwise_extractRounds fun p p' hp hp' hlater h => ?_
    obtain ⟨hword, hleaf⟩ := cell_inj hp hp' h
    omega
  have hcell : j * (eq.numDigits * eq.numCmps) + i < leafEq.length := hlen ▸ cell_lt hj hi
  have hget := getElem?_writeAll (extractCell (eq.numDigits * eq.numCmps))
    (fun p => (leafEq.getD p.1 0 >>> p.2) &&& 1) leafEq hnodup
    (mem_extractRounds.mpr (show (i, j).1 < _ ∧ (i, j).2 < _ from ⟨hi, hj⟩)) hcell
  rw [extract_eq, List.getD_eq_getElem?_getD, ← shift_and_one]
  exact congrArg (Option.getD · 0) hget

@[simp] theorem length_extract (leafEq : List Byte) :
    (eq.extract leafEq).length = leafEq.length := by
  rw [extract_eq, length_writeAll]

/-- Every cell is written, so all are bits. -/
theorem extract_bits {leafEq : List Byte}
    (hlen : leafEq.length = eq.batchSize * (eq.numDigits * eq.numCmps)) :
    AllBits (eq.extract leafEq) := by
  intro p
  rcases Nat.lt_or_ge p (eq.batchSize * (eq.numDigits * eq.numCmps)) with hp | hp
  · have hpos : 0 < eq.numDigits * eq.numCmps := by
      rcases Nat.eq_zero_or_pos (eq.numDigits * eq.numCmps) with hzero | hpos
      · rw [hzero, Nat.mul_zero] at hp
        omega
      · exact hpos
    have hword := Nat.div_lt_of_lt_mul (Nat.mul_comm eq.batchSize _ ▸ hp)
    rw [← Nat.div_add_mod' p (eq.numDigits * eq.numCmps),
      getD_extract hlen (Nat.mod_lt _ hpos) hword]
    exact isBit_boolByte _
  · rw [List.getD_eq_default _ _ (by rw [length_extract, hlen]; exact hp)]
    exact .inl rfl

/-! ## The comparison -/

/-- BOB's leaves after the transfers, from the bytes he received. -/
def leafBob (eq : BatchEquality) (leaf : ℕ → ℕ → Byte) : List Byte :=
  eq.extract (rowMajor eq.numDigits eq.numCmps leaf ++
    List.replicate ((eq.batchSize - 1) * (eq.numDigits * eq.numCmps)) 0)

theorem length_received {k : ℕ} (hk : k < eq.batchSize) (leaf : ℕ → ℕ → Byte) :
    (rowMajor eq.numDigits eq.numCmps leaf ++
      List.replicate ((eq.batchSize - 1) * (eq.numDigits * eq.numCmps)) 0).length =
        eq.batchSize * (eq.numDigits * eq.numCmps) := by
  obtain ⟨n, hn⟩ : ∃ n, eq.batchSize = n + 1 := ⟨eq.batchSize - 1, by omega⟩
  rw [List.length_append, length_rowMajor, List.length_replicate, hn, Nat.add_sub_cancel,
    Nat.succ_mul, Nat.add_comm]

/-- For every word of a batch the parties share ALICE's mask and a bit of the byte BOB
received. -/
theorem sharedBit_leafBob (masks : List Bool) (leaf : ℕ → ℕ → Byte) {i j k : ℕ}
    (hi : i < eq.numDigits) (hj : j < eq.numCmps) (hk : k < eq.batchSize) :
    sharedBit (masks.map boolByte) (eq.leafBob leaf) ((k * eq.numDigits + i) * eq.numCmps + j) =
      (masks.getD ((k * eq.numDigits + i) * eq.numCmps + j) false ^^ (leaf i j).getLsbD k) := by
  have hleaf : i * eq.numCmps + j < eq.numDigits * eq.numCmps := cell_lt hi hj
  have hbyte : (rowMajor eq.numDigits eq.numCmps leaf ++
      List.replicate ((eq.batchSize - 1) * (eq.numDigits * eq.numCmps)) 0).getD
        (i * eq.numCmps + j) 0 = leaf i j := by
    rw [getD_append_left ((length_rowMajor ..).symm ▸ hleaf), getD_rowMajor _ _ hi hj]
  have hcell : (k * eq.numDigits + i) * eq.numCmps + j =
      k * (eq.numDigits * eq.numCmps) + (i * eq.numCmps + j) := by ring
  have hbob : (eq.leafBob leaf).getD ((k * eq.numDigits + i) * eq.numCmps + j) 0 =
      boolByte ((leaf i j).getLsbD k) := by
    rw [hcell, leafBob, getD_extract (length_received hk _) hleaf hk, hbyte]
  rw [sharedBit, bitAt, bitAt, getD_map_boolByte, hbob, boolByte_bne_zero, boolByte_bne_zero]

/-- A bit of the byte of a leaf. -/
theorem getLsbD_leafByte (dataAlice dataBob : List Word) (masks : List Bool)
    (hbatch : eq.batchSize ≤ 8) {i j k : ℕ} (hi : i < eq.numDigits) (hj : j < eq.numCmps)
    (hk : k < eq.batchSize) :
    (eq.leafByte dataAlice dataBob masks i j).getLsbD k =
      eq.leafBit dataAlice masks i j (eq.digit dataBob i j).toNat k := by
  rw [leafByte, leafMessage_eq dataAlice masks hi hj, getLsbD_pack _ _ (by omega),
    decide_eq_true hk, Bool.true_and]

/-- The parties share, for every word of every batch, the agreement of its digits. -/
theorem leaf_shares (dataAlice dataBob : List Word) (masks : List Bool)
    (hbatch : eq.batchSize ≤ 8) {i j k : ℕ} (hi : i < eq.numDigits) (hj : j < eq.numCmps)
    (hk : k < eq.batchSize) :
    sharedBit (masks.map boolByte) (eq.leafBob (eq.leafByte dataAlice dataBob masks))
        ((k * eq.numDigits + i) * eq.numCmps + j) =
      decide (eq.digit dataAlice i (j * eq.batchSize + k) = eq.digit dataBob i j) := by
  have hagree : ((eq.digit dataAlice i (j * eq.batchSize + k)).toNat ==
      (eq.digit dataBob i j).toNat) =
        decide (eq.digit dataAlice i (j * eq.batchSize + k) = eq.digit dataBob i j) := by
    rw [Bool.eq_iff_iff]
    simp [BitVec.toNat_inj]
  rw [sharedBit_leafBob masks _ hi hj hk, getLsbD_leafByte dataAlice dataBob masks hbatch hi hj hk,
    leafBit, hagree, Bool.xor_comm, Bool.xor_assoc, Bool.xor_self, Bool.xor_false]

end BatchEquality

/-- The randomness fits the objects: a mask for every leaf, and products in every
triple. -/
structure EqualityRandomness.BatchValid (random : EqualityRandomness) (eq : BatchEquality) :
    Prop where
  length_masks : random.masks.length = eq.batchSize * eq.numDigits * eq.numCmps
  triples : ValidTriples random.triplesAlice random.triplesBob
    (eq.numTriples * eq.batchSize * eq.numCmps / 8)

/-- Where its sizes are held, a batched comparison ends once the leaf transfers do: the
outputs share the parity of the words of a batch whose leaves all agree. -/
theorem BatchEquality.run_of_bytes {eq : BatchEquality} (hnd : 0 < eq.numDigits)
    (hfits : eq.numDigits * eq.batchSize * eq.numCmps < 2 ^ 31) (hbatch : 1 ≤ eq.batchSize)
    {wan : Bool} (h8 : 8 ∣ eq.numCmps) {packing : BitPacking} (hpacking : packing.Lawful)
    {ot : OtPack} {random : EqualityRandomness} (hrandom : random.BatchValid eq)
    {dataAlice dataBob : List Word} {leaf : ℕ → ℕ → Byte}
    (hleaf : eq.leafOts wan ot
      (eq.leafOtMessages wan (eq.digits .alice dataAlice) (random.masks.map boolByte))
      (eq.digits .bob dataBob) = .ok (rowMajor eq.numDigits eq.numCmps leaf)) :
    ∃ resAlice resBob, eq.run wan packing ot random dataAlice dataBob = .ok (resAlice, resBob) ∧
      resAlice.length = eq.numCmps ∧ resBob.length = eq.numCmps ∧
      ∀ j < eq.numCmps, resAlice.getD j 0 ^^^ resBob.getD j 0 =
        BitVec.ofNat 8 ((List.range eq.batchSize).countP (fun k =>
          ∀ i < eq.numDigits, sharedBit (random.masks.map boolByte) (eq.leafBob leaf)
            ((k * eq.numDigits + i) * eq.numCmps + j) = true) % 2) := by
  have hlen := BatchEquality.length_received (show 0 < eq.batchSize by omega) leaf
  have hla : (random.masks.map boolByte).length = eq.numDigits * eq.batchSize * eq.numCmps := by
    rw [List.length_map, hrandom.length_masks, Nat.mul_comm eq.batchSize]
  have hlb : (eq.leafBob leaf).length = eq.numDigits * eq.batchSize * eq.numCmps := by
    rw [BatchEquality.leafBob, BatchEquality.length_extract, hlen, ← Nat.mul_assoc,
      Nat.mul_comm eq.batchSize]
  have hba : AllBits (random.masks.map boolByte) := allBits_map_boolByte _
  have hbb : AllBits (eq.leafBob leaf) := BatchEquality.extract_bits hlen
  let z := batchTraverseAndComputeANDs packing random.triplesAlice random.triplesBob eq.numDigits
    eq.batchSize eq.numCmps (random.masks.map boolByte) (eq.leafBob leaf)
  refine ⟨z.1, z.2, ?_, length_resShares .., length_resShares .., ?_⟩
  · have hheld : SizeType.int.Holds (eq.numDigits * eq.batchSize * eq.numCmps) := hfits
    rw [BatchEquality.run, if_pos hheld, BatchEquality.computeLeafOTs, hleaf]
    rfl
  · intro j hj
    exact batchTraverseAndComputeANDs_parity hnd h8 hla hlb hpacking hrandom.triples hba hbb hj

/-- Where a size is not held, nothing is compared. -/
theorem BatchEquality.run_overflow {eq : BatchEquality}
    (hlost : ¬ eq.numDigits * eq.batchSize * eq.numCmps < 2 ^ 31) (wan : Bool)
    (packing : BitPacking) (ot : OtPack) (random : EqualityRandomness)
    (dataAlice dataBob : List Word) :
    eq.run wan packing ot random dataAlice dataBob = overflow :=
  if_neg hlost

/-- A batched comparison of batches of at most three ends, and it shares the parity of
the matches of every batch. -/
theorem BatchEquality.run_parity {eq : BatchEquality} (h : eq.Valid)
    (hbatch : 1 ≤ eq.batchSize ∧ eq.batchSize ≤ 3)
    (hfits : eq.numDigits * eq.batchSize * eq.numCmps < 2 ^ 31) {wan : Bool}
    (hr : wan = true ∨ eq.r ≤ 4) (h8 : 8 ∣ eq.numCmps) {packing : BitPacking}
    (hpacking : packing.Lawful) {ot : OtPack} (hot : ot.Selects (OfWidth 3) (2 ^ eq.beta))
    {random : EqualityRandomness} (hrandom : random.BatchValid eq)
    (dataAlice dataBob : List Word) :
    ∃ resAlice resBob, eq.run wan packing ot random dataAlice dataBob = .ok (resAlice, resBob) ∧
      resAlice.length = eq.numCmps ∧ resBob.length = eq.numCmps ∧
      ∀ j < eq.numCmps, resAlice.getD j 0 ^^^ resBob.getD j 0 =
        BitVec.ofNat 8 ((List.range eq.batchSize).countP (fun m =>
          (dataAlice.getD (j * eq.batchSize + m) 0).toNat % 2 ^ eq.l =
            (dataBob.getD j 0).toNat % 2 ^ eq.l) % 2) := by
  obtain ⟨resAlice, resBob, hrun, hlenAlice, hlenBob, hparity⟩ := BatchEquality.run_of_bytes
    h.numDigits_pos hfits hbatch.1 h8 hpacking hrandom
    (BatchEquality.leafOts_eq h hbatch.2 hot dataAlice dataBob random.masks hr)
  refine ⟨resAlice, resBob, hrun, hlenAlice, hlenBob, ?_⟩
  intro j hj
  rw [hparity j hj]
  congr 2
  refine List.countP_congr fun m hm => ?_
  rw [decide_eq_true_eq, decide_eq_true_eq,
    ← h.digits_agree_iff dataAlice dataBob (j * eq.batchSize + m) j]
  refine forall₂_congr fun i hi => ?_
  rw [BatchEquality.leaf_shares dataAlice dataBob random.masks (by omega) hi hj
    (List.mem_range.mp hm), decide_eq_true_eq]

/-- Masks and triples for a batched comparison. -/
def sampleBatch (eq : BatchEquality) : EqualityRandomness where
  masks := List.replicate (eq.batchSize * eq.numDigits * eq.numCmps) true
  triplesAlice := (onesTriples (eq.numTriples * eq.batchSize * eq.numCmps / 8)).1
  triplesBob := (onesTriples (eq.numTriples * eq.batchSize * eq.numCmps / 8)).2

theorem sampleBatch_valid (eq : BatchEquality) : (sampleBatch eq).BatchValid eq where
  length_masks := List.length_replicate
  triples := onesTriples_valid _

theorem selectPack_selects (kind : List Byte → Prop) (betaPow : ℕ) :
    selectPack.Selects kind betaPow where
  kkotBeta _ _ _ _ _ := rfl
  kkot4 _ _ _ _ _ := rfl
  kkot8 _ _ _ _ _ := rfl
  kkot16 _ _ _ _ _ := rfl
  iknpStraight _ _ _ _ _ := rfl

/-- Batches of three words of ten bits, in digits of three. -/
def tenBitBatches : BatchEquality where
  toEquality := tenBits
  batchSize := 3

/-! ## Batches of more than three -/

/-- A transfer that hands out the three low bits of the selected messages. -/
def lowOt (messages : List (List Byte)) (choices : List Byte) : List Byte :=
  (selectOt messages choices).map (· &&& 7)

def lowPack : OtPack where
  kkotBeta := lowOt
  kkot4 := lowOt
  kkot8 := lowOt
  kkot16 := lowOt
  iknpStraight := lowOt

theorem getLsbD_and_seven (b : Byte) (k : ℕ) :
    (b &&& 7).getLsbD k = (decide (k < 3) && b.getLsbD k) := by
  have hseven : (7 : Byte).getLsbD k = decide (k < 3) := by
    rcases Nat.lt_or_ge k 8 with hk | hk
    · revert k
      decide
    · rw [BitVec.getLsbD_of_ge _ _ hk, decide_eq_false (by omega)]
  rw [BitVec.getLsbD_and, hseven, Bool.and_comm]

theorem OfWidth.getLsbD_getD {width : ℕ} {row : List Byte} (h : OfWidth width row) (p : ℕ) {t : ℕ}
    (ht : width ≤ t) : (row.getD p 0).getLsbD t = false := by
  rcases Nat.lt_or_ge p row.length with hp | hp
  · rw [List.getD_eq_getElem _ _ hp]
    exact h _ (List.getElem_mem hp) t ht
  · rw [List.getD_eq_default _ _ hp]
    exact BitVec.getLsbD_zero

/-- Of messages of three bits it hands out all. -/
theorem lowOt_selects (N : ℕ) : SelectsRow (OfWidth 3) N lowOt := by
  intro messages choices _ hrows _
  rw [lowOt, selectOt, ← List.map_uncurry_zip_eq_zipWith, List.map_map]
  refine List.map_congr_left fun p hp => ?_
  have hwidth := (hrows p.1 (List.of_mem_zip hp).1).2
  change p.1.getD p.2.toNat 0 &&& 7 = p.1.getD p.2.toNat 0
  apply BitVec.eq_of_getLsbD_eq
  intro t _
  rw [getLsbD_and_seven]
  by_cases ht : t < 3
  · rw [decide_eq_true ht, Bool.true_and]
  · rw [decide_eq_false ht, Bool.false_and, hwidth.getLsbD_getD _ (by omega)]

theorem lowPack_selects (betaPow : ℕ) : lowPack.Selects (OfWidth 3) betaPow :=
  ⟨lowOt_selects _, lowOt_selects _, lowOt_selects _, lowOt_selects _, lowOt_selects _⟩

/-- The transfers of a leaf array hand out the low bits of what a full transfer does. -/
theorem leafOts_lowPack (eq : Equality) (wan : Bool) (messages : List (List Byte))
    (choices : List Byte) :
    eq.leafOts wan lowPack messages choices =
      (eq.leafOts wan selectPack messages choices).map (List.map (· &&& 7)) := by
  simp only [Equality.leafOts]
  repeat' split
  all_goals
    simp only [Except.map, List.map_append, lowPack, selectPack, lowOt]

/-- The same randomness with masks that are all 0. -/
def unmaskedBatch (eq : BatchEquality) : EqualityRandomness :=
  { sampleBatch eq with
    masks := List.replicate (eq.batchSize * eq.numDigits * eq.numCmps) false }

theorem unmaskedBatch_valid (eq : BatchEquality) : (unmaskedBatch eq).BatchValid eq where
  length_masks := List.length_replicate
  triples := (sampleBatch_valid eq).triples

/-- Batches of which the fourth word is 0, and no other. -/
def fourthZero (eq : BatchEquality) : List Word :=
  rowMajor eq.numCmps eq.batchSize fun _ m => if m = 3 then 0 else 1

/-- Against zeros the fourth word agrees, and no other. -/
theorem fourthZero_agrees_iff {eq : BatchEquality} (h : eq.Valid) {j m : ℕ} (hj : j < eq.numCmps)
    (hm : m < eq.batchSize) :
    ((fourthZero eq).getD (j * eq.batchSize + m) 0).toNat % 2 ^ eq.l =
      ((List.replicate eq.numCmps (0 : Word)).getD j 0).toNat % 2 ^ eq.l ↔ m = 3 := by
  have hone : 1 < 2 ^ eq.l := Nat.one_lt_two_pow h.l_pos.ne'
  rw [fourthZero, getD_rowMajor _ _ hj hm, List.getD_eq_getElem?_getD, List.getElem?_replicate,
    if_pos hj]
  by_cases heq : m = 3
  · rw [if_pos heq]
    exact iff_of_true rfl heq
  · rw [if_neg heq]
    refine iff_of_false ?_ heq
    simp [Nat.mod_eq_of_lt hone]

/-- So one word of a batch of four or more agrees. -/
theorem countP_fourthZero {eq : BatchEquality} (h : eq.Valid) (hpos : 0 < eq.numCmps)
    (hfour : 3 < eq.batchSize) :
    (List.range eq.batchSize).countP (fun m =>
      ((fourthZero eq).getD (0 * eq.batchSize + m) 0).toNat % 2 ^ eq.l =
        ((List.replicate eq.numCmps (0 : Word)).getD 0 0).toNat % 2 ^ eq.l) = 1 := by
  rw [← List.count_eq_one_of_mem List.nodup_range (List.mem_range.mpr hfour)]
  refine List.countP_congr fun m hm => ?_
  rw [decide_eq_true_eq, fourthZero_agrees_iff h hpos (List.mem_range.mp hm), beq_iff_eq]

section Condition

variable {eq : BatchEquality} (h : eq.Valid) (hbatch : 1 ≤ eq.batchSize ∧ eq.batchSize ≤ 8)
  (hr : eq.r ≤ 4) (h8 : 8 ∣ eq.numCmps) (wan : Bool) {packing : BitPacking}
  (hpacking : packing.Lawful)

include h hbatch hr h8 hpacking

omit h hr h8 hpacking in
/-- Three bits of an unmasked leaf share the agreement of the first three words. -/
theorem BatchEquality.sharedBit_lowLeaf (dataAlice dataBob : List Word) {i j m : ℕ}
    (hi : i < eq.numDigits) (hj : j < eq.numCmps) (hm : m < eq.batchSize) :
    sharedBit ((unmaskedBatch eq).masks.map boolByte)
        (eq.leafBob fun i j => eq.leafByte dataAlice dataBob (unmaskedBatch eq).masks i j &&& 7)
        ((m * eq.numDigits + i) * eq.numCmps + j) = true ↔
      m < 3 ∧ eq.digit dataAlice i (j * eq.batchSize + m) = eq.digit dataBob i j := by
  have hzero : ∀ p, (unmaskedBatch eq).masks.getD p false = false := by
    intro p
    rw [unmaskedBatch, List.getD_eq_getElem?_getD, List.getElem?_replicate]
    split <;> rfl
  rw [BatchEquality.sharedBit_leafBob _ _ hi hj hm, hzero, Bool.false_xor, getLsbD_and_seven,
    BatchEquality.getLsbD_leafByte _ _ _ hbatch.2 hi hj hm, BatchEquality.leafBit, hzero,
    Bool.xor_false, Bool.and_eq_true, decide_eq_true_eq, beq_iff_eq, BitVec.toNat_inj]

/-- Over transfers of three bits only the first three words of a batch are compared. -/
theorem BatchEquality.run_lowPack (hfits : eq.numDigits * eq.batchSize * eq.numCmps < 2 ^ 31)
    (dataAlice dataBob : List Word) :
    ∃ resAlice resBob, eq.run wan packing lowPack (unmaskedBatch eq) dataAlice dataBob =
        .ok (resAlice, resBob) ∧
      ∀ j < eq.numCmps, resAlice.getD j 0 ^^^ resBob.getD j 0 =
        BitVec.ofNat 8 ((List.range eq.batchSize).countP (fun m =>
          m < 3 ∧ (dataAlice.getD (j * eq.batchSize + m) 0).toNat % 2 ^ eq.l =
            (dataBob.getD j 0).toNat % 2 ^ eq.l) % 2) := by
  have hfull : eq.leafOts wan selectPack
      (eq.leafOtMessages wan (eq.digits .alice dataAlice)
        ((unmaskedBatch eq).masks.map boolByte)) (eq.digits .bob dataBob) =
      .ok (rowMajor eq.numDigits eq.numCmps
        (eq.leafByte dataAlice dataBob (unmaskedBatch eq).masks)) :=
    BatchEquality.leafOts_eq h le_rfl (selectPack_selects _ _) dataAlice dataBob _ (.inr hr)
  have hlow := (leafOts_lowPack eq.toEquality wan _ _).trans (congrArg (Except.map _) hfull)
  rw [Except.map, map_rowMajor] at hlow
  obtain ⟨resAlice, resBob, hrun, -, -, hparity⟩ := BatchEquality.run_of_bytes h.numDigits_pos hfits
    hbatch.1 h8 hpacking (unmaskedBatch_valid eq) hlow
  refine ⟨resAlice, resBob, hrun, ?_⟩
  intro j hj
  rw [hparity j hj]
  congr 2
  refine List.countP_congr fun m hm => ?_
  have hword := List.mem_range.mp hm
  have hshared := fun i (hi : i < eq.numDigits) =>
    BatchEquality.sharedBit_lowLeaf hbatch dataAlice dataBob hi hj hword
  rw [decide_eq_true_eq, decide_eq_true_eq,
    ← h.digits_agree_iff dataAlice dataBob (j * eq.batchSize + m) j]
  constructor
  · intro hall
    exact ⟨((hshared 0 h.numDigits_pos).mp (hall 0 h.numDigits_pos)).1,
      fun i hi => ((hshared i hi).mp (hall i hi)).2⟩
  · rintro ⟨hm3, hdigits⟩ i hi
    exact (hshared i hi).mpr ⟨hm3, hdigits i hi⟩

/-- The match of the fourth word is lost. -/
theorem BatchEquality.run_fourthZero (hfits : eq.numDigits * eq.batchSize * eq.numCmps < 2 ^ 31)
    (hpos : 0 < eq.numCmps) :
    ∃ resAlice resBob, eq.run wan packing lowPack (unmaskedBatch eq) (fourthZero eq)
        (List.replicate eq.numCmps 0) = .ok (resAlice, resBob) ∧
      resAlice.getD 0 0 ^^^ resBob.getD 0 0 = 0 := by
  obtain ⟨resAlice, resBob, hrun, hlow⟩ := BatchEquality.run_lowPack h hbatch hr h8 wan hpacking
    hfits (fourthZero eq) (List.replicate eq.numCmps 0)
  refine ⟨resAlice, resBob, hrun, ?_⟩
  have hnone : (List.range eq.batchSize).countP (fun m =>
      m < 3 ∧ ((fourthZero eq).getD (0 * eq.batchSize + m) 0).toNat % 2 ^ eq.l =
        ((List.replicate eq.numCmps (0 : Word)).getD 0 0).toNat % 2 ^ eq.l) = 0 := by
    refine List.countP_eq_zero.mpr fun m hm => ?_
    rw [decide_eq_true_eq, fourthZero_agrees_iff h hpos (List.mem_range.mp hm)]
    omega
  rw [hlow 0 hpos, hnone]
  rfl

omit hr in
/-- Without comparisons a run ends, whatever the transfers hand out. -/
theorem BatchEquality.run_of_no_comparisons (hr : wan = true ∨ eq.r ≤ 4) (hzero : eq.numCmps = 0)
    {ot : OtPack} (hot : ot.Selects (OfWidth 3) (2 ^ eq.beta)) {random : EqualityRandomness}
    (hrandom : random.BatchValid eq) (x y : List Word) :
    ∃ resAlice resBob, eq.run wan packing ot random x y = .ok (resAlice, resBob) ∧
      resAlice.length = eq.numCmps ∧ resBob.length = eq.numCmps := by
  have hfits : eq.numDigits * eq.batchSize * eq.numCmps < 2 ^ 31 := by
    rw [hzero, Nat.mul_zero]
    decide
  have hchoice : ∀ i j, (eq.digit y i j).toNat < 2 ^ eq.digitWidth i := h.toNat_digit_lt y
  have hleaf : eq.leafOts wan ot
      (eq.leafOtMessages wan (eq.digits .alice x) (random.masks.map boolByte))
      (rowMajor eq.numDigits eq.numCmps (eq.digit y)) = .ok (rowMajor eq.numDigits eq.numCmps
        fun i j => (eq.setLeafOtMessages (eq.digits .alice x) (eq.rowSize wan i)
          (random.masks.map boolByte) i j).getD (eq.digit y i j).toNat 0) := by
    rw [BatchEquality.leafOtMessages_eq]
    exact Equality.leafOts_rows hot h (fun _ _ j hj => absurd hj (by omega)) hchoice hr
  obtain ⟨resAlice, resBob, hrun, hlenAlice, hlenBob, -⟩ := BatchEquality.run_of_bytes
    h.numDigits_pos hfits hbatch.1 h8 hpacking hrandom hleaf
  exact ⟨resAlice, resBob, hrun, hlenAlice, hlenBob⟩

/-- In both builds a batched comparison ends, and the exclusive or of the outputs at `j`
is the parity of the number of words of batch `j` that agree with BOB's word modulo
`2 ^ l`, whatever transfers of three bits, masks and triples, exactly if nothing is
compared or the batches have at most three words, and the length of `leaf_eq` has a
place in an `int`. -/
theorem BatchEquality.res_shares_xor_iff :
    (∀ ot : OtPack, ot.Selects (OfWidth 3) (2 ^ eq.beta) →
      ∀ random : EqualityRandomness, random.BatchValid eq →
      ∀ x y : List Word, x.length = eq.batchSize * eq.numCmps → y.length = eq.numCmps →
      ∃ resAlice resBob, eq.run wan packing ot random x y = .ok (resAlice, resBob) ∧
        resAlice.length = eq.numCmps ∧ resBob.length = eq.numCmps ∧
        ∀ j < eq.numCmps, resAlice.getD j 0 ^^^ resBob.getD j 0 =
          BitVec.ofNat 8 ((List.range eq.batchSize).countP (fun m =>
            (x.getD (j * eq.batchSize + m) 0).toNat % 2 ^ eq.l =
              (y.getD j 0).toNat % 2 ^ eq.l) % 2)) ↔
      (eq.numCmps = 0 ∨ eq.batchSize ≤ 3) ∧
        eq.numDigits * eq.batchSize * eq.numCmps < 2 ^ 31 := by
  constructor
  · intro hparity
    obtain ⟨resAlice, resBob, hrun, -, -, hxor⟩ := hparity lowPack (lowPack_selects _)
      (unmaskedBatch eq) (unmaskedBatch_valid eq) (fourthZero eq) (List.replicate eq.numCmps 0)
      ((length_rowMajor ..).trans (Nat.mul_comm ..)) List.length_replicate
    have hfits : eq.numDigits * eq.batchSize * eq.numCmps < 2 ^ 31 := by
      by_contra hlost
      rw [BatchEquality.run_overflow hlost] at hrun
      cases hrun
    refine ⟨?_, hfits⟩
    by_contra hneither
    have hpos : 0 < eq.numCmps := by omega
    obtain ⟨resAlice', resBob', hrun', hlost⟩ := BatchEquality.run_fourthZero h hbatch hr h8 wan
      hpacking hfits hpos
    rw [hrun'] at hrun
    cases hrun
    rw [hxor 0 hpos, countP_fourthZero h hpos (by omega)] at hlost
    exact absurd hlost (by decide)
  · rintro ⟨hzero | hthree, hfits⟩ ot hot random hrandom x y - -
    · obtain ⟨resAlice, resBob, hrun, hlenAlice, hlenBob⟩ := BatchEquality.run_of_no_comparisons h
        hbatch h8 wan hpacking (.inr hr) hzero hot hrandom x y
      exact ⟨resAlice, resBob, hrun, hlenAlice, hlenBob, fun j hj => absurd hj (by omega)⟩
    · exact BatchEquality.run_parity h ⟨hbatch.1, hthree⟩ hfits (.inr hr) h8 hpacking hot hrandom
        x y

end Condition

/-- The words 0 to 23 against every third of them. -/
theorem BatchEquality.res_shares_xor_of_tenBitBatches :
    ∃ resAlice resBob, tenBitBatches.run false lsbPacking selectPack (sampleBatch tenBitBatches)
        ((List.range 24).map (BitVec.ofNat 64))
        ((List.range 8).map fun j => BitVec.ofNat 64 (3 * j)) = .ok (resAlice, resBob) ∧
      ∀ j < 8, resAlice.getD j 0 ^^^ resBob.getD j 0 = 1 := by
  have hvalid : tenBitBatches.Valid := ⟨by decide, by decide, by decide, by decide⟩
  obtain ⟨resAlice, resBob, hrun, -, -, hparity⟩ :=
    (BatchEquality.res_shares_xor_iff hvalid (by decide) (by decide) (by decide) false
      lsbPacking_lawful).mpr ⟨.inr (by decide), by decide⟩ selectPack (selectPack_selects _ _)
      (sampleBatch tenBitBatches) (sampleBatch_valid tenBitBatches)
      ((List.range 24).map (BitVec.ofNat 64))
      ((List.range 8).map fun j => BitVec.ofNat 64 (3 * j)) (by simp [tenBitBatches, tenBits])
      (by simp [tenBitBatches, tenBits])
  refine ⟨resAlice, resBob, hrun, ?_⟩
  intro j hj
  rw [hparity j hj]
  revert j
  decide

/-- Batches of four words of ten bits. -/
def tenBitFours : BatchEquality where
  toEquality := tenBits
  batchSize := 4

/-- The fourth word of a batch agrees, and over transfers of three bits no match is
counted. -/
theorem BatchEquality.fourth_word_lost_of_tenBitFours :
    lowPack.Selects (OfWidth 3) (2 ^ tenBitFours.beta) ∧
      ∃ resAlice resBob, tenBitFours.run false lsbPacking lowPack (unmaskedBatch tenBitFours)
          (rowMajor 8 4 fun _ m => if m = 3 then 0 else 1) (List.replicate 8 0) =
            .ok (resAlice, resBob) ∧
        resAlice.getD 0 0 ^^^ resBob.getD 0 0 = 0 ∧
        (List.range 4).countP (fun m =>
          ((rowMajor 8 4 fun _ m => if m = 3 then (0 : Word) else 1).getD (0 * 4 + m) 0).toNat %
            2 ^ 10 = ((List.replicate 8 (0 : Word)).getD 0 0).toNat % 2 ^ 10) = 1 := by
  have hvalid : tenBitFours.Valid := ⟨by decide, by decide, by decide, by decide⟩
  obtain ⟨resAlice, resBob, hrun, hlost⟩ := BatchEquality.run_fourthZero hvalid (by decide)
    (by decide) (by decide) false lsbPacking_lawful (by decide) (Nat.succ_pos 7)
  exact ⟨lowPack_selects _, resAlice, resBob, hrun, hlost, by decide⟩

end Sectric
