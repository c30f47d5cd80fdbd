import Sectric.Equality.Leaf

/-!
# Equality of blocks

The two threads compare the two chunks of the words, the second with the roles
exchanged; since a sharing is symmetric, the two chunks of results share the
agreement of the words.  The final product joins the low and the high word of
every block.
-/

namespace Sectric

open Lib

/-! ## Sharings of chunks -/

theorem getD_append_right {xs ys : List Byte} (p : ℕ) :
    (xs ++ ys).getD (xs.length + p) 0 = ys.getD p 0 := by
  rw [List.getD_eq_getElem?_getD, List.getElem?_append_right (Nat.le_add_right ..),
    Nat.add_sub_cancel_left, ← List.getD_eq_getElem?_getD]

theorem AllBits.append {xs ys : List Byte} (hx : AllBits xs) (hy : AllBits ys) :
    AllBits (xs ++ ys) := by
  intro p
  rcases Nat.lt_or_ge p xs.length with hp | hp
  · rw [getD_append_left hp]
    exact hx p
  · obtain ⟨q, rfl⟩ := Nat.exists_eq_add_of_le hp
    rw [getD_append_right]
    exact hy q

theorem Shares.append {m n : ℕ} {P : ℕ → Prop} {xs ys xs' ys' : List Byte}
    (h : Shares m P xs ys) (h' : Shares n (fun c => P (m + c)) xs' ys') :
    Shares (m + n) P (xs ++ xs') (ys ++ ys') where
  length_left := by rw [List.length_append, h.length_left, h'.length_left]
  length_right := by rw [List.length_append, h.length_right, h'.length_right]
  bits_left := h.bits_left.append h'.bits_left
  bits_right := h.bits_right.append h'.bits_right
  shared c hc := by
    rcases Nat.lt_or_ge c m with hlt | hge
    · rw [sharedBit, bitAt, bitAt, getD_append_left (by rw [h.length_left]; exact hlt),
        getD_append_left (by rw [h.length_right]; exact hlt)]
      exact h.shared c hlt
    · obtain ⟨q, rfl⟩ := Nat.exists_eq_add_of_le hge
      have hright : sharedBit (xs ++ xs') (ys ++ ys') (m + q) = sharedBit xs' ys' q := by
        rw [sharedBit, bitAt, bitAt]
        conv_lhs => rw [← h.length_left, getD_append_right, h.length_left, ← h.length_right,
          getD_append_right]
        rfl
      rw [hright]
      exact h'.shared q (by omega)

/-! ## Words -/

theorem getD_drop_word (xs : List Word) (k c : ℕ) : (xs.drop k).getD c 0 = xs.getD (k + c) 0 := by
  rw [List.getD_eq_getElem?_getD, List.getD_eq_getElem?_getD, List.getElem?_drop]

/-- The number of comparisons of each of the two threads. -/
def chunkOf (numCmps tid : ℕ) : ℕ :=
  if tid = 0 then numCmps / (8 * 2) * 8 else numCmps - numCmps / (8 * 2) * 8

theorem dvd_chunkOf {numCmps : ℕ} (h8 : 8 ∣ numCmps) (tid : ℕ) : 8 ∣ chunkOf numCmps tid := by
  rw [chunkOf]
  split
  · exact Nat.dvd_mul_left ..
  · exact Nat.dvd_sub h8 (Nat.dvd_mul_left ..)

section Words

variable {sizes : SizeType} {wan : Bool} {packing : BitPacking} {l b : ℕ}
  {P : List Word → List Word → ℕ → Prop}

/-- A thread shares a property of both parties' words that does not depend on the
order of the parties, if an object does. -/
theorem equalityThread_of_run {ot : OtPack} {random : EqualityRandomness} {lnumCmps : ℕ}
    (hcomm : ∀ x y c, P x y c ↔ P y x c)
    (hrun : ∀ xAlice xBob, ∃ zAlice zBob,
      Equality.run sizes wan packing ot { l := l, beta := b, numCmps := lnumCmps } random xAlice
        xBob = .ok (zAlice, zBob) ∧ Shares lnumCmps (P xAlice xBob) zAlice zBob)
    (tid : ℕ) (xAlice xBob : List Word) :
    ∃ zAlice zBob,
      equalityThread sizes wan packing ot tid random xAlice xBob lnumCmps l b =
        .ok (zAlice, zBob) ∧ Shares lnumCmps (P xAlice xBob) zAlice zBob := by
  rw [equalityThread]
  split
  · obtain ⟨zBob, zAlice, hended, hshares⟩ := hrun xBob xAlice
    refine ⟨zAlice, zBob, ?_, hshares.symm.congr fun c _ => hcomm xBob xAlice c⟩
    rw [hended]
    rfl
  · exact hrun xAlice xBob

/-- The two threads share a property of all words, if each shares it of its own. -/
theorem performEquality_of_threads {ot : ℕ → OtPack} {random : ℕ → EqualityRandomness}
    {numCmps : ℕ} (hfits : sizes.Holds numCmps)
    (hdrop : ∀ k x y c, P (x.drop k) (y.drop k) c ↔ P x y (k + c))
    (hthread : ∀ tid < 2, ∀ xAlice xBob, ∃ zAlice zBob,
      equalityThread sizes wan packing (ot tid) tid (random tid) xAlice xBob
        (chunkOf numCmps tid) l b = .ok (zAlice, zBob) ∧
      Shares (chunkOf numCmps tid) (P xAlice xBob) zAlice zBob) (xAlice xBob : List Word) :
    ∃ zAlice zBob,
      performEquality sizes wan packing ot random xAlice xBob l b numCmps = .ok (zAlice, zBob) ∧
      Shares numCmps (P xAlice xBob) zAlice zBob := by
  let chunk := numCmps / (8 * 2) * 8
  have hchunk : chunk ≤ numCmps := by
    show numCmps / (8 * 2) * 8 ≤ numCmps
    omega
  obtain ⟨zAlice₀, zBob₀, hfirst, hshares₀⟩ := hthread 0 (by decide) xAlice xBob
  obtain ⟨zAlice₁, zBob₁, hsecond, hshares₁⟩ := hthread 1 (by decide) (xAlice.drop chunk)
    (xBob.drop chunk)
  refine ⟨zAlice₀ ++ zAlice₁, zBob₀ ++ zBob₁, ?_, ?_⟩
  · rw [performEquality, if_pos hfits]
    simp only [Nat.one_mul]
    change equalityThread sizes wan packing (ot 0) 0 (random 0) xAlice xBob chunk l b = _ at hfirst
    change equalityThread sizes wan packing (ot 1) 1 (random 1) (xAlice.drop chunk)
      (xBob.drop chunk) (numCmps - chunk) l b = _ at hsecond
    simp only [chunk] at hfirst hsecond
    simp only [hfirst, hsecond]
    rfl
  · have hsum : chunkOf numCmps 0 + chunkOf numCmps 1 = numCmps := Nat.add_sub_cancel' hchunk
    rw [← hsum]
    exact hshares₀.append (hshares₁.congr fun c _ => hdrop chunk xAlice xBob c)

variable (hpacking : packing.Lawful)

include hpacking

theorem performEquality_shares {ot : ℕ → OtPack} {random : ℕ → EqualityRandomness} {numCmps : ℕ}
    (hfits : sizes.Holds numCmps) (hsizes : ∀ tid < 2, sizes.Holds (l * chunkOf numCmps tid))
    (hvalid : ∀ n, Equality.Valid { l := l, beta := b, numCmps := n })
    (hr : wan = true ∨ l % b ≤ 4) (hot : ∀ tid < 2, (ot tid).Lawful (2 ^ b))
    (hrandom : ∀ tid < 2,
      (random tid).Valid { l := l, beta := b, numCmps := chunkOf numCmps tid })
    (h8 : 8 ∣ numCmps) (xAlice xBob : List Word) :
    ∃ zAlice zBob,
      performEquality sizes wan packing ot random xAlice xBob l b numCmps = .ok (zAlice, zBob) ∧
      Shares numCmps (fun c => (xAlice.getD c 0).toNat % 2 ^ l = (xBob.getD c 0).toNat % 2 ^ l)
        zAlice zBob := by
  let agree (x y : List Word) (c : ℕ) : Prop :=
    (x.getD c 0).toNat % 2 ^ l = (y.getD c 0).toNat % 2 ^ l
  have hdrop : ∀ k x y c, agree (x.drop k) (y.drop k) c ↔ agree x y (k + c) := by
    intro k x y c
    simp only [agree, getD_drop_word]
  refine performEquality_of_threads (P := agree) hfits hdrop ?_ xAlice xBob
  intro tid htid
  refine equalityThread_of_run (P := agree) (fun x y c => eq_comm) ?_ tid
  exact Equality.run_shares (hvalid _) (hsizes tid htid) hr hpacking (hot tid htid)
    (hrandom tid htid) (dvd_chunkOf h8 tid)

end Words

/-! ## The final product -/

theorem getD_wordsOf : ∀ {inputs : List Block} {i : ℕ}, i < inputs.length →
    (wordsOf inputs).getD (2 * i) 0 = (inputs.getD i 0).low ∧
      (wordsOf inputs).getD (2 * i + 1) 0 = (inputs.getD i 0).high
  | [], i, hi => by simp at hi
  | b :: inputs, 0, _ => ⟨rfl, rfl⟩
  | b :: inputs, i + 1, hi => by
      have ih := getD_wordsOf (i := i) (by simpa using hi)
      have hcons : wordsOf (b :: inputs) = b.low :: b.high :: wordsOf inputs := rfl
      rw [hcons, show 2 * (i + 1) = 2 * i + 1 + 1 by omega]
      simpa using ih

section FinalProduct

variable {packing : BitPacking} (hpacking : packing.Lawful) {size : ℕ} (h8 : 8 ∣ size)

include h8

theorem finalRounds_eq : loopValues (fun i => decide (i < size)) (· + 8) size 0 =
    (List.range (size / 8)).map fun q => 0 + q * 8 :=
  loopValues_cmps h8

theorem mem_finalRounds {i : ℕ} :
    i ∈ loopValues (fun i => decide (i < size)) (· + 8) size 0 ↔ 8 ∣ i ∧ i < size := by
  rw [finalRounds_eq h8]
  simp only [List.mem_map, List.mem_range]
  constructor
  · rintro ⟨q, hq, rfl⟩
    omega
  · rintro ⟨hdvd, hlt⟩
    exact ⟨i / 8, by omega, by omega⟩

theorem finalRounds_nodup : (loopValues (fun i => decide (i < size)) (· + 8) size 0).Nodup := by
  rw [finalRounds_eq h8]
  refine List.Nodup.map ?_ List.nodup_range
  intro q q' h
  simp only at h
  omega

/-- A byte of the masked inputs: a triple's byte plus eight packed shares. -/
theorem getD_finalMask (packing : BitPacking) (bytes shares : List Byte) {i : ℕ} (hdvd : 8 ∣ i)
    (hi : i < size) :
    (modifyAll (· / 8) (fun i b => b ^^^ packing.boolToUint8 (cellsAt shares i))
        (loopValues (fun i => decide (i < size)) (· + 8) size 0)
        ((List.range (size / 8)).map fun i => bytes.getD i 0)).getD (i / 8) 0 =
      bytes.getD (i / 8) 0 ^^^ packing.boolToUint8 (cellsAt shares i) := by
  have hkeys : ((loopValues (fun i => decide (i < size)) (· + 8) size 0).map (· / 8)).Nodup := by
    refine List.Nodup.map_on ?_ (finalRounds_nodup h8)
    intro i hi j hj h
    have hi8 := ((mem_finalRounds h8).mp hi).1
    have hj8 := ((mem_finalRounds h8).mp hj).1
    omega
  rw [List.getD_eq_getElem?_getD,
    getElem?_modifyAll (· / 8) _ _ _ hkeys i ((mem_finalRounds h8).mpr ⟨hdvd, hi⟩),
    List.getElem?_map, List.getElem?_range (by omega)]
  rfl

omit h8 in
theorem length_finalMask (packing : BitPacking) (bytes shares : List Byte) (rounds : List ℕ) :
    (modifyAll (· / 8) (fun i b => b ^^^ packing.boolToUint8 (cellsAt shares i)) rounds
      ((List.range (size / 8)).map fun i => bytes.getD i 0)).length = size / 8 := by
  rw [length_modifyAll, List.length_map, List.length_range]

theorem roundZ_xor (packing : BitPacking) {tripleAlice tripleBob : Triple}
    (hvalid : ValidTriples tripleAlice tripleBob (size / 8)) (resAlice resBob : List Byte) {i : ℕ}
    (hdvd : 8 ∣ i) (hi : i < size) :
    let alice := FinalWires.start packing tripleAlice size resAlice
    let bob := FinalWires.start packing tripleBob size resBob
    alice.roundZ .alice tripleAlice size bob i ^^^ bob.roundZ .bob tripleBob size alice i =
      (packing.boolToUint8 (cellsAt alice.shares0 i) ^^^
        packing.boolToUint8 (cellsAt bob.shares0 i)) &&&
      (packing.boolToUint8 (cellsAt alice.shares1 i) ^^^
        packing.boolToUint8 (cellsAt bob.shares1 i)) := by
  intro alice bob
  have hopen : ∀ other own : List Byte, other.length = size / 8 →
      (xorBytes (receive (List.replicate (size / 8) 0) other (size / 8)) own (size / 8)).getD
          (i / 8) 0 = other.getD (i / 8) 0 ^^^ own.getD (i / 8) 0 := by
    intro other own hother
    exact getD_open (by rw [List.length_replicate]) (by omega) (by omega)
  have heAlice := getD_finalMask h8 packing tripleAlice.ai alice.shares0 hdvd hi
  have hfAlice := getD_finalMask h8 packing tripleAlice.bi alice.shares1 hdvd hi
  have heBob := getD_finalMask h8 packing tripleBob.ai bob.shares0 hdvd hi
  have hfBob := getD_finalMask h8 packing tripleBob.bi bob.shares1 hdvd hi
  have h₁ := hopen bob.ei alice.ei (length_finalMask ..)
  have h₂ := hopen bob.fi alice.fi (length_finalMask ..)
  have h₃ := hopen alice.ei bob.ei (length_finalMask ..)
  have h₄ := hopen alice.fi bob.fi (length_finalMask ..)
  rw [FinalWires.roundZ, FinalWires.roundZ, tempZ_eq_productShare, tempZ_eq_productShare, h₁, h₂,
    h₃, h₄, BitVec.xor_comm (bob.ei.getD _ 0), BitVec.xor_comm (bob.fi.getD _ 0)]
  exact productShare_xor (hvalid.at _) (congrArg₂ _ heAlice heBob) (congrArg₂ _ hfAlice hfBob)

include hpacking

theorem getD_finish (party : Party) (triple : Triple) (w other : FinalWires) {i : ℕ}
    (hi : i < size) :
    (w.finish packing party triple size other).getD i 0 =
      boolByte ((w.roundZ party triple size other (i / 8 * 8)).getLsbD (i % 8)) := by
  have hround : i / 8 * 8 ∈ loopValues (fun i => decide (i < size)) (· + 8) size 0 :=
    (mem_finalRounds h8).mpr ⟨Nat.dvd_mul_left .., by omega⟩
  have hk : i % 8 < 8 := Nat.mod_lt _ (by decide)
  have hcell := getD_foldl_setCellsAt (fun i : ℕ => i)
    (fun i => packing.uint8ToBool (w.roundZ party triple size other i))
    (List.replicate size 0) (finalRounds_nodup h8)
    (fun i hi => ((mem_finalRounds h8).mp hi).1) (fun _ _ _ _ h => h) hround hk
    (by rw [List.length_replicate]; omega)
  rw [Nat.div_add_mod', hpacking.getD_uint8ToBool _ hk] at hcell
  exact hcell

theorem finish_bits (party : Party) (triple : Triple) (w other : FinalWires) :
    (w.finish packing party triple size other).length = size ∧
      AllBits (w.finish packing party triple size other) := by
  have hlen : (w.finish packing party triple size other).length = size := by
    rw [FinalWires.finish, length_foldl_setCellsAt (fun i : ℕ => i), List.length_replicate]
  refine ⟨hlen, ?_⟩
  intro p
  rcases Nat.lt_or_ge p size with hp | hp
  · rw [getD_finish hpacking h8 party triple w other hp]
    exact isBit_boolByte _
  · rw [List.getD_eq_getElem?_getD, List.getElem?_eq_none (by omega)]
    exact .inl rfl

/-- The final product of two sharings: of the low and of the high words. -/
theorem finish_shares {tripleAlice tripleBob : Triple}
    (hvalid : ValidTriples tripleAlice tripleBob (size / 8)) {resAlice resBob : List Byte}
    {P : ℕ → Prop} (hres : Shares (2 * size) P resAlice resBob) :
    let alice := FinalWires.start packing tripleAlice size resAlice
    let bob := FinalWires.start packing tripleBob size resBob
    Shares size (fun i => P (2 * i) ∧ P (2 * i + 1))
      (alice.finish packing .alice tripleAlice size bob)
      (bob.finish packing .bob tripleBob size alice) := by
  intro alice bob
  obtain ⟨hla, hba⟩ := finish_bits hpacking h8 .alice tripleAlice alice bob
  obtain ⟨hlb, hbb⟩ := finish_bits hpacking h8 .bob tripleBob bob alice
  refine ⟨hla, hlb, hba, hbb, ?_⟩
  intro i hi
  have hk : i % 8 < 8 := Nat.mod_lt _ (by decide)
  have hround : i / 8 * 8 + 8 ≤ size := by omega
  have hz := congrArg (BitVec.getLsbD · (i % 8)) (roundZ_xor h8 packing hvalid
    resAlice resBob (Nat.dvd_mul_left 8 (i / 8)) (by omega : i / 8 * 8 < size))
  simp only [BitVec.getLsbD_xor, BitVec.getLsbD_and] at hz
  -- a share of the low words is at the even cells, one of the high words at the odd ones
  have hshare : ∀ (res : List Byte) (pick : ℕ → ℕ),
      (packing.boolToUint8 (cellsAt ((List.range size).map fun i => res.getD (pick i) 0)
        (i / 8 * 8))).getLsbD (i % 8) = bitAt res (pick i) := by
    intro res pick
    have hfit : i / 8 * 8 + 8 ≤ ((List.range size).map fun i => res.getD (pick i) 0).length := by
      rw [List.length_map, List.length_range]
      exact hround
    rw [hpacking.getLsbD_cellsAt hfit hk, Nat.div_add_mod', bitAt, getD_map_range _ _ hi]
    rfl
  have hlowAlice : (packing.boolToUint8 (cellsAt alice.shares0 (i / 8 * 8))).getLsbD (i % 8) =
      bitAt resAlice (2 * i) := hshare resAlice (2 * ·)
  have hlowBob : (packing.boolToUint8 (cellsAt bob.shares0 (i / 8 * 8))).getLsbD (i % 8) =
      bitAt resBob (2 * i) := hshare resBob (2 * ·)
  have hhighAlice : (packing.boolToUint8 (cellsAt alice.shares1 (i / 8 * 8))).getLsbD (i % 8) =
      bitAt resAlice (2 * i + 1) := hshare resAlice (2 * · + 1)
  have hhighBob : (packing.boolToUint8 (cellsAt bob.shares1 (i / 8 * 8))).getLsbD (i % 8) =
      bitAt resBob (2 * i + 1) := hshare resBob (2 * · + 1)
  rw [sharedBit, bitAt, bitAt, getD_finish hpacking h8 .alice tripleAlice alice bob hi,
    getD_finish hpacking h8 .bob tripleBob bob alice hi, boolByte_bne_zero, boolByte_bne_zero, hz,
    hlowAlice, hlowBob, hhighAlice, hhighBob, Bool.and_eq_true, ← hres.shared (2 * i) (by omega),
    ← hres.shared (2 * i + 1) (by omega)]
  rfl

end FinalProduct

/-! ## Blocks -/

/-- The randomness fits inputs of `size` blocks. -/
structure BlockEqualityRandomness.Valid (random : BlockEqualityRandomness) (size : ℕ) : Prop where
  thread : ∀ tid < 2,
    (random.thread tid).Valid { l := 64, beta := 5, numCmps := chunkOf (2 * size) tid }
  triples : ValidTriples random.tripleAlice random.tripleBob (size / 8)

/-- Two blocks are compared word by word. -/
theorem performBlockEquality_of_words {sizes : SizeType} {wan : Bool} {packing : BitPacking}
    (hpacking : packing.Lawful) (otpack : ℕ → ℕ → OtPack) (radix : ℕ)
    {random : BlockEqualityRandomness} {inputsAlice : List Block} (inputsBob : List Block)
    (htriples : ValidTriples random.tripleAlice random.tripleBob (inputsAlice.length / 8))
    (h8 : 8 ∣ inputsAlice.length) {P : ℕ → Prop}
    (hwords : ∃ resAlice resBob,
      performEquality sizes wan packing (otpack radix) random.thread (wordsOf inputsAlice)
        (wordsOf inputsBob) 64 5 (2 * inputsAlice.length) = .ok (resAlice, resBob) ∧
      Shares (2 * inputsAlice.length) P resAlice resBob) :
    ∃ zAlice zBob,
      performBlockEquality sizes wan packing otpack radix random inputsAlice inputsBob =
        .ok (zAlice, zBob) ∧
      Shares inputsAlice.length (fun i => P (2 * i) ∧ P (2 * i + 1)) zAlice zBob := by
  obtain ⟨resAlice, resBob, hrun, hres⟩ := hwords
  refine ⟨_, _, ?_, finish_shares hpacking h8 htriples hres⟩
  rw [performBlockEquality, hrun]
  rfl

/-- The two threads of a block comparison are of one size. -/
theorem chunkOf_blocks {size : ℕ} (h8 : 8 ∣ size) (tid : ℕ) : chunkOf (2 * size) tid = size := by
  obtain ⟨k, rfl⟩ := h8
  rw [chunkOf]
  split <;> omega

/-- The sizes of a block comparison are held where `l * num_cmps` of its threads is. -/
theorem holds_blocks {sizes : SizeType} {size : ℕ} (h8 : 8 ∣ size)
    (hfits : sizes.Holds (64 * size)) :
    sizes.Holds (2 * size) ∧ ∀ tid < 2, sizes.Holds (64 * chunkOf (2 * size) tid) := by
  refine ⟨hfits.of_le (by omega), ?_⟩
  intro tid _
  rw [chunkOf_blocks h8]
  exact hfits

theorem holds_blocks_iff {size : ℕ} : SizeType.int.Holds (64 * size) ↔ size < 2 ^ 25 := by
  change 64 * size < 2 ^ 31 ↔ _
  omega

/-- `perform_block_equality` on packs for digits of five bits ends, and shares for
every block whether it equals the other party's. -/
theorem performBlockEquality_shares {sizes : SizeType} {wan : Bool} {packing : BitPacking}
    (hpacking : packing.Lawful) (otpack : ℕ → ℕ → OtPack)
    (hot : ∀ tid < 2, (otpack 5 tid).Lawful (2 ^ 5))
    {random : BlockEqualityRandomness} {inputsAlice inputsBob : List Block}
    (hfits : sizes.Holds (64 * inputsAlice.length))
    (hrandom : random.Valid inputsAlice.length) (hlen : inputsBob.length = inputsAlice.length)
    (h8 : 8 ∣ inputsAlice.length) :
    ∃ zAlice zBob,
      performBlockEquality sizes wan packing otpack 5 random inputsAlice inputsBob =
        .ok (zAlice, zBob) ∧
      Shares inputsAlice.length (fun i => inputsAlice.getD i 0 = inputsBob.getD i 0)
        zAlice zBob := by
  have hconfig : ∀ n, Equality.Valid { l := 64, beta := 5, numCmps := n } := by
    intro n
    exact ⟨by simp, by simp, by simp, by simp⟩
  obtain ⟨hwords, hthreads⟩ := holds_blocks h8 hfits
  obtain ⟨zAlice, zBob, hrun, hshares⟩ := performBlockEquality_of_words hpacking otpack 5 inputsBob
    hrandom.triples h8 (performEquality_shares hpacking hwords hthreads hconfig (.inr (by decide))
      hot hrandom.thread (Dvd.dvd.mul_left h8 2) (wordsOf inputsAlice) (wordsOf inputsBob))
  refine ⟨zAlice, zBob, hrun, hshares.congr ?_⟩
  intro i hi
  obtain ⟨hlowA, hhighA⟩ := getD_wordsOf hi
  obtain ⟨hlowB, hhighB⟩ := getD_wordsOf (hlen ▸ hi)
  rw [hlowA, hhighA, hlowB, hhighB, Nat.mod_eq_of_lt (BitVec.isLt _),
    Nat.mod_eq_of_lt (BitVec.isLt _), Nat.mod_eq_of_lt (BitVec.isLt _),
    Nat.mod_eq_of_lt (BitVec.isLt _), BitVec.toNat_inj, BitVec.toNat_inj, Block.ext_iff_words,
    and_comm]

/-- From `2 ^ 25` blocks on, `l * num_cmps` of a thread is not held in an `int`. -/
theorem performBlockEquality_overflow {sizes : SizeType} {wan : Bool} {packing : BitPacking} {n : ℕ}
    (h8 : 8 ∣ n) (hlost : ¬ sizes.Holds (64 * n)) (otpack : ℕ → ℕ → OtPack) (radix : ℕ)
    (random : BlockEqualityRandomness) {inputsAlice : List Block} (hlen : inputsAlice.length = n)
    (inputsBob : List Block) :
    performBlockEquality sizes wan packing otpack radix random inputsAlice inputsBob =
      overflow := by
  subst hlen
  have hthread : ∀ xAlice xBob, equalityThread sizes wan packing (otpack radix 0) 0
      (random.thread 0) xAlice xBob (2 * inputsAlice.length / (8 * 2) * 8) 64 5 = overflow := by
    intro xAlice xBob
    refine Equality.run_overflow ?_ wan packing _ _ xAlice xBob
    have hchunk : 2 * inputsAlice.length / (8 * 2) * 8 = inputsAlice.length :=
      chunkOf_blocks h8 0
    rw [hchunk]
    exact hlost
  have hwords : performEquality sizes wan packing (otpack radix) random.thread
      (wordsOf inputsAlice) (wordsOf inputsBob) 64 5 (2 * inputsAlice.length) = overflow := by
    simp only [performEquality, hthread]
    split <;> rfl
  rw [performBlockEquality, hwords]
  rfl

/-! ## Instances -/

/-- Randomness for `size` blocks. -/
def sampleRandomness (size : ℕ) : BlockEqualityRandomness where
  thread tid :=
    { masks := List.replicate (13 * chunkOf (2 * size) tid) true
      triplesAlice := (onesTriples (12 * chunkOf (2 * size) tid / 8)).1
      triplesBob := (onesTriples (12 * chunkOf (2 * size) tid / 8)).2 }
  tripleAlice := (onesTriples (size / 8)).1
  tripleBob := (onesTriples (size / 8)).2

theorem sampleRandomness_valid (size : ℕ) : (sampleRandomness size).Valid size where
  thread tid _ := by
    have htriples : ∀ n, Equality.numTriples { l := 64, beta := 5, numCmps := n } = 12 := by
      simp [Equality.numTriples, Equality.numDigits]
    refine ⟨by simp [sampleRandomness, Equality.numDigits], ?_⟩
    rw [htriples]
    exact onesTriples_valid _
  triples := onesTriples_valid _

def eightBlocks : List Block := [1, 2, 3, 4, 5, 6, 7, 8]

end Sectric
