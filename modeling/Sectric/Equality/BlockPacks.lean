import Sectric.Equality.BlockEquality

/-!
# When blocks are compared correctly

The packs of a comparison are made for the radix of the context, and the two threads
compare digits of five bits.  For another radix there is a pack that serves no rows of
32 messages, over which no blocks are found equal.  With the bound on the sizes this
gives the exact condition (`performBlockEquality_correct_iff`).
-/

namespace Sectric

open Lib

/-! ## Packs for another radix -/

/-- The same randomness with masks that are all 0. -/
def unmaskedRandomness (size : ℕ) : BlockEqualityRandomness :=
  { sampleRandomness size with
    thread := fun tid =>
      { (sampleRandomness size).thread tid with
        masks := List.replicate (13 * chunkOf (2 * size) tid) false } }

theorem unmaskedRandomness_valid (size : ℕ) : (unmaskedRandomness size).Valid size where
  thread tid htid :=
    ⟨by simp [unmaskedRandomness, Equality.numDigits],
      ((sampleRandomness_valid size).thread tid htid).triples⟩
  triples := (sampleRandomness_valid size).triples

/-- A transfer that serves rows of `N` messages.  Of other rows the receiver gets
zeros. -/
def strictOt (N : ℕ) (messages : List (List Byte)) (choices : List Byte) : List Byte :=
  if ∀ row ∈ messages, row.length = N then selectOt messages choices
  else List.replicate choices.length 0

/-- A pack made for digits of `radix` bits. -/
def strictPack (radix : ℕ) : OtPack where
  kkotBeta := strictOt (2 ^ radix)
  kkot4 := selectOt
  kkot8 := selectOt
  kkot16 := selectOt
  iknpStraight := selectOt

theorem strictPack_lawful (radix : ℕ) : (strictPack radix).Lawful (2 ^ radix) where
  kkotBeta _ _ _ hrows _ := if_pos fun row hrow => (hrows row hrow).1
  kkot4 := (selectPack_lawful 4).kkot4
  kkot8 := (selectPack_lawful 4).kkot8
  kkot16 := (selectPack_lawful 4).kkot16
  iknpStraight := (selectPack_lawful 4).iknpStraight

theorem getD_replicate_zero (k c : ℕ) : (List.replicate k (0 : Byte)).getD c 0 = 0 := by
  rw [List.getD_eq_getElem?_getD, List.getElem?_replicate]
  split <;> rfl

theorem allBits_replicate_zero (k : ℕ) : AllBits (List.replicate k 0) :=
  fun c => .inl (getD_replicate_zero k c)

theorem selectOt_bits {messages : List (List Byte)} (h : ∀ row, row ∈ messages → AllBits row)
    (choices : List Byte) : AllBits (selectOt messages choices) := by
  refine allBits_of_mem ?_
  intro b hb
  rw [selectOt, ← List.map_uncurry_zip_eq_zipWith] at hb
  obtain ⟨⟨row, c⟩, hmem, rfl⟩ := List.mem_map.mp hb
  exact h row (List.of_mem_zip hmem).1 c.toNat

section Misfit

variable {wan : Bool} {packing : BitPacking}

/-- The object of a thread that compares `n` words. -/
def wordEquality (n : ℕ) : Equality where
  l := 64
  beta := 5
  numCmps := n

theorem wordEquality_numDigits (n : ℕ) : (wordEquality n).numDigits = 12 + 1 := by
  simp [wordEquality, Equality.numDigits]

theorem leafOtMessages_bits (wan : Bool) (eq : Equality) (data : List Word) (masks : List Bool) :
    ∀ row ∈ eq.leafOtMessages wan (eq.digits data) (masks.map boolByte), AllBits row := by
  rw [Equality.leafOtMessages_eq]
  intro row hrow
  obtain ⟨i, _, j, _, rfl⟩ := mem_rowMajor.mp hrow
  exact Equality.setLeafOtMessages_bits _ _ _

/-- The rows of a lower digit hold 32 messages. -/
theorem wordEquality_rowSize (n : ℕ) : (wordEquality n).rowSize wan 0 = 2 ^ 5 := by
  have htop : ¬ (0 = 12 ∧ (wordEquality n).r ≠ 0) := by simp
  rw [Equality.rowSize, Equality.digitWidth, wordEquality_numDigits, Nat.add_sub_cancel,
    if_neg htop]
  exact ite_self _

variable {radix : ℕ} (hradix : radix ≠ 5) {n : ℕ} (hn : 0 < n)

include hradix hn

/-- A pack for another radix gives zeros for the rows of the lower digits. -/
theorem kkotBeta_misfit {rows : ℕ} (hrows : 0 < rows) {message : ℕ → ℕ → List Byte}
    (hmessage : (message 0 0).length = 2 ^ 5) (choices : List Byte) :
    (strictPack radix).kkotBeta (rowMajor rows n message) choices =
      List.replicate choices.length 0 := by
  refine if_neg ?_
  intro hall
  have hlen := hall _ (mem_rowMajor.mpr ⟨0, hrows, 0, hn, rfl⟩)
  rw [hmessage] at hlen
  exact hradix (Nat.pow_right_injective le_rfl hlen).symm

/-- Over a pack for another radix BOB gets a zero for every lowest digit. -/
theorem leafOts_misfit (wan : Bool) (dataAlice dataBob : List Word) (masks : List Bool) :
    ∃ received, (wordEquality n).leafOts wan (strictPack radix)
        ((wordEquality n).leafOtMessages wan ((wordEquality n).digits dataAlice)
          (masks.map boolByte)) ((wordEquality n).digits dataBob) = .ok received ∧
      received.length = (12 + 1) * n ∧ AllBits received ∧ ∀ c < n, received.getD c 0 = 0 := by
  have hdigits : ((wordEquality n).digits dataBob).length = (12 + 1) * n := by
    rw [Equality.digits, length_rowMajor, wordEquality_numDigits]
    rfl
  have hbits := leafOtMessages_bits wan (wordEquality n) dataAlice masks
  rw [Equality.leafOtMessages_eq, wordEquality_numDigits] at hbits ⊢
  generalize (wordEquality n).digits dataBob = choices at hdigits
  have hnum : (wordEquality n).numCmps = n := rfl
  rw [hnum] at hbits ⊢
  generalize hmessage : (fun i j => Equality.setLeafOtMessages
    ((wordEquality n).digit dataAlice i j) ((wordEquality n).rowSize wan i)
    (boolByte (masks.getD (i * n + j) false))) = message at hbits ⊢
  have hrow : (message 0 0).length = 2 ^ 5 := by
    simp only [← hmessage, Equality.setLeafOtMessages, List.length_map, List.length_range,
      wordEquality_rowSize]
  cases wan with
  | true =>
      refine ⟨List.replicate choices.length 0, ?_, ?_, allBits_replicate_zero _, ?_⟩
      · rw [Equality.leafOts, if_pos rfl]
        exact congrArg _ (kkotBeta_misfit hradix hn (Nat.succ_pos 12) hrow choices)
      · rw [List.length_replicate, hdigits]
      · intro c hc
        exact getD_replicate_zero _ c
  | false =>
      have hr : (wordEquality n).r = 4 := by simp [wordEquality, Equality.r]
      have hcells : (wordEquality n).numCmps * ((wordEquality n).numDigits - 1) = 12 * n := by
        rw [wordEquality_numDigits, hnum, Nat.add_sub_cancel, Nat.mul_comm]
      have hhead := kkotBeta_misfit hradix hn (by decide : 0 < 12) hrow (choices.take (12 * n))
      have htake : (choices.take (12 * n)).length = 12 * n := by
        rw [List.length_take, hdigits]
        omega
      rw [htake] at hhead
      refine ⟨_, by simp [Equality.leafOts, hr]; rfl, ?_⟩
      rw [hcells, take_rowMajor, hhead]
      have htop : AllBits (selectOt ((rowMajor (12 + 1) n message).drop (12 * n))
          (choices.drop (12 * n))) :=
        selectOt_bits (fun row hmem => hbits row (List.mem_of_mem_drop hmem)) _
      refine ⟨?_, (allBits_replicate_zero _).append htop, ?_⟩
      · rw [List.length_append, List.length_replicate]
        change _ + (selectOt _ _).length = _
        rw [selectOt, List.length_zipWith, List.length_drop, List.length_drop, length_rowMajor,
          hdigits]
        omega
      · intro c hc
        rw [getD_append_left (by rw [List.length_replicate]; omega), getD_replicate_zero]

/-- Over a pack for another radix, with masks that are 0, no words are found equal. -/
theorem run_misfit {sizes : SizeType} (hpacking : packing.Lawful) (h8 : 8 ∣ n)
    (hfits : sizes.Holds (64 * n)) {random : EqualityRandomness}
    (hrandom : random.Valid (wordEquality n))
    (hmasks : random.masks = List.replicate (13 * n) false) (dataAlice dataBob : List Word) :
    ∃ zAlice zBob, (wordEquality n).run sizes wan packing (strictPack radix) random dataAlice
        dataBob = .ok (zAlice, zBob) ∧ Shares n (fun _ => False) zAlice zBob := by
  obtain ⟨received, hleaf, hlen, hbits, hzero⟩ :=
    leafOts_misfit hradix hn wan dataAlice dataBob random.masks
  have hnd := wordEquality_numDigits n
  obtain ⟨zAlice, zBob, hrun, hshares⟩ := Equality.run_of_leaves (by omega) hfits hpacking hrandom
    h8 hleaf (by rw [hnd]; exact hlen) hbits
  refine ⟨zAlice, zBob, hrun, hshares.congr ?_⟩
  intro c hc
  refine iff_of_false ?_ not_false
  intro hall
  -- the lowest digits of both parties are zero
  have hlow := hall 0 (by omega)
  rw [sharedBit, bitAt, bitAt, Nat.zero_mul, Nat.zero_add, hzero c hc, getD_map_boolByte, hmasks,
    List.getD_eq_getElem?_getD, List.getElem?_replicate] at hlow
  split at hlow <;> exact absurd hlow (by decide)

end Misfit

/-- Nothing is transferred where no words are compared. -/
theorem leafOts_empty {wan : Bool} {betaPow : ℕ} {ot : OtPack} (hot : ot.Lawful betaPow)
    (dataAlice dataBob : List Word) (masks : List Bool) :
    (wordEquality 0).leafOts wan ot
        ((wordEquality 0).leafOtMessages wan ((wordEquality 0).digits dataAlice)
          (masks.map boolByte)) ((wordEquality 0).digits dataBob) = .ok [] := by
  have hnil : ∀ {N : ℕ} {transfer : List (List Byte) → List Byte → List Byte},
      SelectsMessage N transfer → transfer [] [] = [] := by
    intro N transfer h
    exact h [] [] rfl (by simp) (by simp)
  have hcells : ∀ {α : Type} (f : ℕ → ℕ → α),
      rowMajor (wordEquality 0).numDigits (wordEquality 0).numCmps f = [] := by
    intro α f
    exact List.eq_nil_of_length_eq_zero ((length_rowMajor ..).trans (Nat.mul_zero _))
  have hr : (wordEquality 0).r = 4 := by simp [wordEquality, Equality.r]
  rw [Equality.leafOtMessages_eq, Equality.digits, hcells, hcells]
  cases wan with
  | true => simp [Equality.leafOts, hnil hot.kkotBeta]
  | false => simp [Equality.leafOts, hr, hnil hot.kkotBeta, hnil hot.kkot16]

/-- An object without words ends. -/
theorem run_empty {sizes : SizeType} {wan : Bool} {packing : BitPacking}
    (hpacking : packing.Lawful) (hfits : sizes.Holds (64 * 0)) {betaPow : ℕ} {ot : OtPack}
    (hot : ot.Lawful betaPow) {random : EqualityRandomness}
    (hrandom : random.Valid (wordEquality 0)) (dataAlice dataBob : List Word) :
    ∃ zAlice zBob, (wordEquality 0).run sizes wan packing ot random dataAlice dataBob =
      .ok (zAlice, zBob) ∧ Shares 0 (fun _ => True) zAlice zBob := by
  have hnd : 0 < (wordEquality 0).numDigits := by
    rw [wordEquality_numDigits]
    omega
  obtain ⟨zAlice, zBob, hrun, hshares⟩ := Equality.run_of_leaves hnd hfits hpacking hrandom
    (Nat.dvd_zero 8) (leafOts_empty hot dataAlice dataBob random.masks) rfl
    (allBits_replicate_zero 0)
  exact ⟨zAlice, zBob, hrun, hshares.congr fun c hc => absurd hc (Nat.not_lt_zero c)⟩

theorem unmaskedRandomness_masks {n : ℕ} (h8 : 8 ∣ n) (tid : ℕ) :
    ((unmaskedRandomness n).thread tid).masks = List.replicate (13 * n) false := by
  have hthread : ((unmaskedRandomness n).thread tid).masks =
      List.replicate (13 * chunkOf (2 * n) tid) false := rfl
  rw [hthread, chunkOf_blocks h8]

theorem BlockEqualityRandomness.Valid.words {random : BlockEqualityRandomness} {n : ℕ}
    (h : random.Valid n) (h8 : 8 ∣ n) {tid : ℕ} (htid : tid < 2) :
    (random.thread tid).Valid (wordEquality n) := by
  have hvalid := h.thread tid htid
  rwa [chunkOf_blocks h8] at hvalid

section Condition

variable {wan : Bool} {packing : BitPacking} (hpacking : packing.Lawful) {n : ℕ} (h8 : 8 ∣ n)

include h8

/-- The threads of a block comparison share a property that does not depend on the
data, if an object does. -/
theorem performBlockEquality_of_const {sizes : SizeType} (hpacking : packing.Lawful)
    (hfits : sizes.Holds (64 * n)) {otpack : ℕ → ℕ → OtPack} {radix : ℕ}
    {random : BlockEqualityRandomness} (hrandom : random.Valid n) {p : Prop}
    (hrun : ∀ tid < 2, ∀ dataAlice dataBob, ∃ zAlice zBob,
      (wordEquality n).run sizes wan packing (otpack radix tid) (random.thread tid) dataAlice
        dataBob = .ok (zAlice, zBob) ∧ Shares n (fun _ => p) zAlice zBob)
    {inputsAlice : List Block} (hlen : inputsAlice.length = n) (inputsBob : List Block) :
    ∃ zAlice zBob,
      performBlockEquality sizes wan packing otpack radix random inputsAlice inputsBob =
        .ok (zAlice, zBob) ∧ Shares n (fun _ => p) zAlice zBob := by
  subst hlen
  obtain ⟨zAlice, zBob, hended, hshares⟩ := performBlockEquality_of_words (P := fun _ => p)
    hpacking otpack radix inputsBob hrandom.triples h8
    (performEquality_of_threads (P := fun _ _ _ => p) (holds_blocks h8 hfits).1
      (fun _ _ _ _ => Iff.rfl) (fun tid htid xAlice xBob => by
        rw [chunkOf_blocks h8]
        exact equalityThread_of_run (P := fun _ _ _ => p) (fun _ _ _ => Iff.rfl) (hrun tid htid)
          tid xAlice xBob) (wordsOf inputsAlice) (wordsOf inputsBob))
  exact ⟨zAlice, zBob, hended, hshares.congr fun _ _ => and_self_iff⟩

include hpacking

/-- Over packs for another radix no blocks are found equal. -/
theorem performBlockEquality_misfit {sizes : SizeType} (hfits : sizes.Holds (64 * n)) {radix : ℕ}
    (hradix : radix ≠ 5) (hn : 0 < n) {inputsAlice : List Block} (hlen : inputsAlice.length = n)
    (inputsBob : List Block) :
    ∃ zAlice zBob,
      performBlockEquality sizes wan packing (fun _ _ => strictPack radix) radix
        (unmaskedRandomness n) inputsAlice inputsBob = .ok (zAlice, zBob) ∧
      Shares n (fun _ => False) zAlice zBob := by
  refine performBlockEquality_of_const h8 hpacking hfits (unmaskedRandomness_valid n) ?_ hlen
    inputsBob
  intro tid htid
  exact run_misfit hradix hn hpacking h8 hfits ((unmaskedRandomness_valid n).words h8 htid)
    (unmaskedRandomness_masks h8 tid)

/-- For every number `n` of blocks and every radix of the context: the two vectors
of `perform_block_equality` hold only 0 and 1, and their exclusive or at `i` is 1
exactly when the blocks at `i` are equal, whatever packs for that radix, masks and
triples, exactly if there are no blocks, or the radix is 5 and `n` is below
`2 ^ 25`. -/
theorem performBlockEquality_correct_iff (radix : ℕ) :
    (∀ otpack : ℕ → ℕ → OtPack, (∀ tid < 2, (otpack radix tid).Lawful (2 ^ radix)) →
      ∀ random : BlockEqualityRandomness, random.Valid n →
      ∀ inputsAlice inputsBob : List Block, inputsAlice.length = n → inputsBob.length = n →
      ∃ zAlice zBob,
        performBlockEquality .int wan packing otpack radix random inputsAlice inputsBob =
          .ok (zAlice, zBob) ∧
        zAlice.length = n ∧ zBob.length = n ∧
        ∀ i < n, IsBit (zAlice.getD i 0) ∧ IsBit (zBob.getD i 0) ∧
          (zAlice.getD i 0 ^^^ zBob.getD i 0 = 1 ↔
            inputsAlice.getD i 0 = inputsBob.getD i 0)) ↔
      n = 0 ∨ radix = 5 ∧ n < 2 ^ 25 := by
  have hzeros : (List.replicate n (0 : Block)).length = n := List.length_replicate
  constructor
  · intro hcorrect
    rcases Nat.eq_zero_or_pos n with hn | hn
    · exact .inl hn
    obtain ⟨zAlice, zBob, hrun, -, -, hequal⟩ := hcorrect (fun _ _ => strictPack radix)
      (fun _ _ => strictPack_lawful radix) (unmaskedRandomness n) (unmaskedRandomness_valid n) _ _
      hzeros hzeros
    by_cases hfits : SizeType.int.Holds (64 * n)
    · refine .inr ⟨?_, holds_blocks_iff.mp hfits⟩
      by_contra hradix
      obtain ⟨zAlice', zBob', hrun', hshares⟩ := performBlockEquality_misfit hpacking h8 hfits
        hradix hn hzeros (List.replicate n 0)
      rw [hrun'] at hrun
      cases hrun
      -- equal blocks, and none is found equal
      exact (hshares.xor_eq_one_iff hn).mp ((hequal 0 hn).2.2.mpr rfl)
    · rw [performBlockEquality_overflow h8 hfits _ _ _ hzeros] at hrun
      cases hrun
  · intro hcond otpack hot random hrandom inputsAlice inputsBob hlenA hlenB
    rcases hcond with rfl | ⟨rfl, hsmall⟩
    · have hfits : SizeType.int.Holds (64 * 0) := Nat.two_pow_pos 31
      obtain ⟨zAlice, zBob, hrun, hshares⟩ := performBlockEquality_of_const h8 hpacking hfits
        hrandom (fun tid htid => run_empty hpacking hfits (hot tid htid)
          (hrandom.words h8 htid)) hlenA inputsBob
      exact ⟨zAlice, zBob, hrun, hshares.length_left, hshares.length_right, fun i hi =>
        absurd hi (Nat.not_lt_zero i)⟩
    · subst hlenA
      obtain ⟨zAlice, zBob, hrun, hshares⟩ := performBlockEquality_shares hpacking otpack hot
        (holds_blocks_iff.mpr hsmall) hrandom hlenB h8
      exact ⟨zAlice, zBob, hrun, hshares.length_left, hshares.length_right, fun i hi =>
        ⟨hshares.bits_left i, hshares.bits_right i, hshares.xor_eq_one_iff hi⟩⟩

end Condition

/-! ## An instance -/

theorem performBlockEquality_correct_on_eightBlocks :
    ∃ zAlice zBob,
      performBlockEquality .int false lsbPacking (fun _ _ => selectPack) 5 (sampleRandomness 8)
        eightBlocks eightBlocks.reverse = .ok (zAlice, zBob) ∧
      zAlice.length = 8 ∧ zBob.length = 8 ∧
      ∀ i < 8, IsBit (zAlice.getD i 0) ∧ IsBit (zBob.getD i 0) ∧
        (zAlice.getD i 0 ^^^ zBob.getD i 0 = 1 ↔
          eightBlocks.getD i 0 = eightBlocks.reverse.getD i 0) :=
  (performBlockEquality_correct_iff lsbPacking_lawful (by decide) 5).mpr
    (.inr ⟨rfl, by decide⟩) (fun _ _ => selectPack) (fun _ _ => selectPack_lawful _)
    (sampleRandomness 8) (sampleRandomness_valid 8) eightBlocks eightBlocks.reverse rfl rfl

/-- The digits of 165191056 words are more than an `int` counts. -/
theorem performBlockEquality_overflows :
    8 ∣ 165191056 ∧ (∀ tid < 2, (selectPack).Lawful (2 ^ 5)) ∧
      (sampleRandomness 165191056).Valid 165191056 ∧
      ¬ ∃ zAlice zBob, performBlockEquality .int false lsbPacking (fun _ _ => selectPack) 5
        (sampleRandomness 165191056) (List.replicate 165191056 0) (List.replicate 165191056 0) =
          .ok (zAlice, zBob) := by
  refine ⟨by decide, fun _ _ => selectPack_lawful _, sampleRandomness_valid _, ?_⟩
  rintro ⟨zAlice, zBob, hrun⟩
  rw [performBlockEquality_overflow (n := 165191056) (by decide) (by decide) _ _ _
    List.length_replicate] at hrun
  cases hrun

end Sectric
