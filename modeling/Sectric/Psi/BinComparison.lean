import Sectric.Equality.BatchLeaf

/-!
# Comparing the bins

In the first comparison mode `run_circuit_psi` compares the bins in batches of three:
for every bin the client, who is ALICE, has three candidates and the server, who is BOB,
the content.  The number of comparisons is the number of bins plus its remainder modulo
8, and each party fills its vector up with a constant of its own.

The layers of products need a multiple of 8.  The remainder is added and not what is
missing to the next multiple, so `numCmps` is one only for a remainder of 0 or 4.
Besides, the leaves of all candidates have to be counted by an `int`.
-/

namespace Sectric

open Lib

namespace Psm

/-! ## The model -/

/-- `C_CONST`. -/
def cConst : Word := 8459320670953116686

/-- `S_CONST`. -/
def sConst : Word := 18286333650295995643

section Padding

variable (nbins : ℕ)

/-- `rmdr`. -/
def rmdr : ℕ := nbins % 8

/-- `num_cmps`. -/
def numCmps : ℕ := nbins + rmdr nbins

/-- `pad`. -/
def pad : Party → ℕ
  | .alice => 3 * rmdr nbins
  | .bob => rmdr nbins

/-- `value`. -/
def value : Party → Word
  | .alice => cConst
  | .bob => sConst

/-- `content_of_bins` of the client when it is compared: its candidates bin by bin, and
the padding from `3 * nbins` on. -/
def clientContents (candidates : ℕ → ℕ → Word) : List Word :=
  rowMajor nbins 3 candidates ++ List.replicate (pad nbins .alice) (value .alice)

/-- `content_of_bins` of the server: the contents, and the padding from `nbins` on. -/
def serverContents (contents : ℕ → Word) : List Word :=
  (List.range nbins).map contents ++ List.replicate (pad nbins .bob) (value .bob)

/-- `compare`. -/
def batchEquality (l b : ℕ) : BatchEquality where
  l := l
  beta := b
  numCmps := numCmps nbins
  batchSize := 3

end Padding

/-- The comparison of both parties: their `res_shares`. -/
def run (wan : Bool) (packing : BitPacking) (ot : OtPack) (random : EqualityRandomness)
    (l b nbins : ℕ) (candidates : ℕ → ℕ → Word) (contents : ℕ → Word) :
    Except String (List Byte × List Byte) :=
  (batchEquality nbins l b).run wan packing ot random (clientContents nbins candidates)
    (serverContents nbins contents)

/-- The number of candidates of a bin that agree with its content in `l` bits. -/
def agreeing (l : ℕ) (candidates : ℕ → Word) (content : Word) : ℕ :=
  (List.range 3).countP fun m => (candidates m).toNat % 2 ^ l = content.toNat % 2 ^ l

/-- Every bin is compared, whatever the bins hold. -/
structure BinsCompared (wan : Bool) (packing : BitPacking) (ot : OtPack)
    (random : EqualityRandomness) (l b nbins : ℕ) : Prop where
  aligned : 8 ∣ numCmps nbins
  covered : nbins ≤ numCmps nbins
  parity : ∀ (candidates : ℕ → ℕ → Word) (contents : ℕ → Word), ∃ resAlice resBob,
    run wan packing ot random l b nbins candidates contents = .ok (resAlice, resBob) ∧
    ∀ i < nbins, resAlice.getD i 0 ^^^ resBob.getD i 0 =
      BitVec.ofNat 8 (agreeing l (candidates i) (contents i) % 2)

section Contents

variable (nbins : ℕ)

theorem getD_clientContents (candidates : ℕ → ℕ → Word) {i m : ℕ} (hi : i < nbins) (hm : m < 3) :
    (clientContents nbins candidates).getD (i * 3 + m) 0 = candidates i m := by
  have hcell : i * 3 + m < (rowMajor nbins 3 candidates).length := by
    rw [length_rowMajor]
    exact cell_lt hi hm
  rw [clientContents, List.getD_append _ _ _ _ hcell, getD_rowMajor _ _ hi hm]

theorem getD_serverContents (contents : ℕ → Word) {i : ℕ} (hi : i < nbins) :
    (serverContents nbins contents).getD i 0 = contents i := by
  have hcell : i < ((List.range nbins).map contents).length := by simpa using hi
  rw [serverContents, List.getD_append _ _ _ _ hcell]
  simp [List.getD_eq_getElem?_getD, hi]

/-- Both parties fill up to the comparisons there are. -/
theorem length_contents (candidates : ℕ → ℕ → Word) (contents : ℕ → Word) :
    (clientContents nbins candidates).length = 3 * numCmps nbins ∧
      (serverContents nbins contents).length = numCmps nbins := by
  constructor
  · simp [clientContents, pad, numCmps]
    omega
  · simp [serverContents, pad, numCmps]

theorem aligned_iff : 8 ∣ numCmps nbins ↔ nbins % 8 = 0 ∨ nbins % 8 = 4 := by
  rw [numCmps, rmdr]
  omega

end Contents

/-- The bins are compared exactly if their number leaves 0 or 4 modulo 8, and the
number of leaves has a place in an `int`. -/
theorem binsCompared_iff (nbins : ℕ) {l b : ℕ} (hb : 0 < b ∧ b ≤ 8) (hl : 0 < l ∧ l ≤ 64)
    (hr : l % b ≤ 4) (wan : Bool) {packing : BitPacking} (hpacking : packing.Lawful) {ot : OtPack}
    (hot : ot.Selects (OfWidth 3) (2 ^ b)) {random : EqualityRandomness}
    (hrandom : random.BatchValid (batchEquality nbins l b)) :
    BinsCompared wan packing ot random l b nbins ↔
      (nbins % 8 = 0 ∨ nbins % 8 = 4) ∧
        (batchEquality nbins l b).numDigits * 3 * numCmps nbins < 2 ^ 31 := by
  rw [← aligned_iff]
  constructor
  · intro h
    refine ⟨h.aligned, ?_⟩
    by_contra hlost
    obtain ⟨resAlice, resBob, hrun, -⟩ := h.parity (fun _ _ => 0) fun _ => 0
    rw [run, BatchEquality.run_overflow hlost] at hrun
    cases hrun
  · rintro ⟨h8, hfits⟩
    have hcovered : nbins ≤ numCmps nbins := Nat.le_add_right ..
    refine ⟨h8, hcovered, ?_⟩
    intro candidates contents
    have hvalid : (batchEquality nbins l b).Valid := ⟨hb.1, hb.2, hl.1, hl.2⟩
    have hbatch : 1 ≤ (batchEquality nbins l b).batchSize ∧
        (batchEquality nbins l b).batchSize ≤ 3 := by simp [batchEquality]
    obtain ⟨resAlice, resBob, hrun, -, -, hparity⟩ :=
      BatchEquality.run_parity hvalid hbatch hfits (.inr hr) h8 hpacking hot hrandom
        (clientContents nbins candidates) (serverContents nbins contents)
    refine ⟨resAlice, resBob, hrun, ?_⟩
    intro i hi
    rw [hparity i (hi.trans_le hcovered), getD_serverContents nbins contents hi, agreeing]
    congr 2
    refine List.countP_congr fun m hm => ?_
    rw [← getD_clientContents nbins candidates hi (List.mem_range.mp hm)]
    rfl

theorem binsCompared_of_twelve :
    BinsCompared false lsbPacking selectPack (sampleBatch (batchEquality 12 62 5)) 62 5 12 :=
  (binsCompared_iff 12 (by decide) (by decide) (by decide) false lsbPacking_lawful
    (selectPack_selects _ _) (sampleBatch_valid _)).mpr ⟨.inr rfl, by decide⟩

/-- Three bins make six comparisons.  The products of the second word of a batch take
the place of those of the first, and a match of the first is lost. -/
theorem three_bins_not_compared :
    ¬ BinsCompared false lsbPacking selectPack (sampleBatch (batchEquality 3 2 1)) 2 1 3 ∧
      ∃ resAlice resBob, run false lsbPacking selectPack (sampleBatch (batchEquality 3 2 1)) 2 1 3
          (fun _ m => BitVec.ofNat 64 m) (fun _ => 0) = .ok (resAlice, resBob) ∧
        resAlice.getD 0 0 ^^^ resBob.getD 0 0 = 0 ∧ agreeing 2 (BitVec.ofNat 64) 0 = 1 := by
  constructor
  · intro h
    have h8 := h.aligned
    revert h8
    decide
  · exact ⟨_, _, rfl, by decide, by decide⟩

end Psm

end Sectric
