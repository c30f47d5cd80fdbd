import Sectric.Equality.BatchLeaf
import Sectric.Equality.Interleaving

/-!
# The batched comparison in any order of steps

`perform_batch_equality` runs the transfers of the leaves and the generation of triples
in two threads, each with a connection of its own.  On the second connection the parties
have each other's roles.  It waits for both, and then goes through the tree of products
on the first connection.

Whatever the order of the steps, the comparison comes to its end, and the two parties
share the parity of the matches of every batch (`performBatchEquality_endsIn`).
-/

namespace Sectric

open Lib

/-! ## Connections and threads -/

/-- The connections of a party: `sock`, `chl`, and those of `sci::NetIO` and `NetIO`. -/
inductive Connection where
  | sock
  | chl
  | netIo (channel : Channel)
deriving DecidableEq

/-- What a thread leaves in memory: a row of bytes or an exception, or triples. -/
inductive ThreadResult where
  | bytes (row : Except String (List Byte))
  | triples (made : Triple)

def ThreadResult.toBytes : ThreadResult → Except String (List Byte)
  | .bytes row => row
  | .triples _ => .error "no bytes"

def ThreadResult.toTriples : ThreadResult → Triple
  | .bytes _ => ⟨[], [], []⟩
  | .triples made => made

/-- A party with the connections of `main`, which forks into two threads. -/
abbrev CircuitProgram (α : Type) := Program Connection (Fin 2) Byte ThreadResult α

/-! ## The model -/

namespace BatchEquality

/-- `computeLeafOTs`, after `setLeafMessages`: the party's `leaf_eq`. -/
def leafThread (wan : Bool) (otpack : OtPackThreads) (eq : BatchEquality) (party : Party)
    (masks : List Bool) (data : List Word) : Thread Byte (Except String (List Byte)) :=
  match party with
  | .alice => do
      let leafEq := masks.map boolByte
      let sent ← eq.leafSend wan otpack (eq.leafOtMessages wan (eq.digits .alice data) leafEq)
      return sent.map fun _ => leafEq
  | .bob => do
      let received ← eq.leafRecv wan otpack (eq.digits .bob data)
      let unset := List.replicate ((eq.batchSize - 1) * (eq.numDigits * eq.numCmps)) 0
      return received.map fun received => eq.extract (received ++ unset)

/-- `generate_triples`: ALICE is BOB there. -/
def tripleThread (threads : EqualityThreads) (eq : BatchEquality) (party : Party) :
    Thread Byte Triple :=
  threads.generateTriples 1 party.other (eq.numTriples * eq.batchSize * eq.numCmps)

end BatchEquality

/-- One round of the outer loop, run by one party. -/
def PartyTraversal.batchLevel (packing : BitPacking) (party : Party) (triples : Triple)
    (numDigits batchSize numCmps : ℕ) (t : PartyTraversal) (i : ℕ) :
    Thread Byte PartyTraversal := do
  let w := t.wires.batchMaskPass packing triples numDigits batchSize numCmps i t.tripleCount
  let counter := (levelGates numDigits i).length
  let tripleCount := t.tripleCount + counter * batchSize * numCmps
  let commSize := counter * batchSize * numCmps / 8
  let (e, f) ← exchangeOpenings party w.ei w.fi commSize
  let opened := w.openPass commSize { w with ei := e, fi := f }
  return {
    wires := opened.batchRecombinePass packing triples numDigits batchSize numCmps i party
      t.oldTripleCount
    tripleCount := tripleCount
    oldTripleCount := tripleCount }

/-- `traverse_and_compute_ANDs`. -/
def batchTraverseThread (packing : BitPacking) (party : Party) (triples : Triple)
    (numDigits batchSize numCmps : ℕ) (leafEq : List Byte) : Thread Byte (List Byte) := do
  let bytes := (numDigits - 1) * batchSize * numCmps / 8
  let start : PartyTraversal :=
    { wires := Wires.start bytes leafEq
      tripleCount := 0
      oldTripleCount := 0 }
  let t ← (loopValues (fun i => decide (i < numDigits)) (· * 2) numDigits 1).foldlM
    (PartyTraversal.batchLevel packing party triples numDigits batchSize numCmps) start
  return t.wires.resShares numDigits batchSize numCmps

/-- `cmp_threads`. -/
def BatchEquality.cmpThreads (wan : Bool) (threads : EqualityThreads) (eq : BatchEquality)
    (party : Party) (masks : List Bool) (data : List Word) (i : Fin 2) :
    Thread Byte ThreadResult :=
  if i.val = 0 then do
    let leafEq ← eq.leafThread wan (threads.otpackArr 0) party masks data
    return .bytes leafEq
  else do
    let triples ← eq.tripleThread threads party
    return .triples triples

/-- `perform_batch_equality`.  The sizes are held in `int`. -/
def performBatchEqualityProgram (wan : Bool) (packing : BitPacking) (threads : EqualityThreads)
    (eq : BatchEquality) (party : Party) (masks : List Bool) (data : List Word) :
    CircuitProgram (Except String (List Byte)) :=
  if SizeType.int.Holds (eq.numDigits * eq.batchSize * eq.numCmps) then do
    let results ← Program.inParallel (eq.cmpThreads wan threads party masks data)
    Program.onOk (results ⟨0, Nat.zero_lt_two⟩).toBytes fun leafEq => do
      let resShares ← Program.onLine (.netIo (.ioArr 0))
        (batchTraverseThread packing party (results ⟨1, Nat.one_lt_two⟩).toTriples eq.numDigits
          eq.batchSize eq.numCmps leafEq)
      return .ok resShares
  else return overflow

/-! ## The parties in step -/

section Traversal

variable {packing : BitPacking} {triplesAlice triplesBob : Triple}
  {numDigits batchSize numCmps : ℕ}

theorem length_batchMaskPass (w : Wires) (triples : Triple) (i tripleCount : ℕ) :
    (w.batchMaskPass packing triples numDigits batchSize numCmps i tripleCount).ei.length =
        w.ei.length ∧
      (w.batchMaskPass packing triples numDigits batchSize numCmps i tripleCount).fi.length =
        w.fi.length :=
  ⟨length_writeAll .., length_writeAll ..⟩

theorem Traversal.Buffers.batchLevel {bytes : ℕ} {t : Traversal} (h : t.Buffers bytes) (i : ℕ) :
    (t.batchLevel packing triplesAlice triplesBob numDigits batchSize numCmps i).Buffers bytes where
  ei_alice := (length_batchMaskPass t.alice triplesAlice i t.tripleCount).1.trans h.ei_alice
  fi_alice := (length_batchMaskPass t.alice triplesAlice i t.tripleCount).2.trans h.fi_alice
  ei_bob := (length_batchMaskPass t.bob triplesBob i t.tripleCount).1.trans h.ei_bob
  fi_bob := (length_batchMaskPass t.bob triplesBob i t.tripleCount).2.trans h.fi_bob

/-- A level of both parties. -/
theorem Traversal.Buffers.batchLevel_meets (hnd : 0 < numDigits) {t : Traversal}
    (ht : t.Buffers ((numDigits - 1) * batchSize * numCmps / 8)) {i : ℕ} (hi : 0 < i) :
    (t.ofAlice.batchLevel packing .alice triplesAlice numDigits batchSize numCmps i).Meets
      (t.ofBob.batchLevel packing .bob triplesBob numDigits batchSize numCmps i)
      (t.batchLevel packing triplesAlice triplesBob numDigits batchSize numCmps i).ofAlice
      (t.batchLevel packing triplesAlice triplesBob numDigits batchSize numCmps i).ofBob := by
  have hroom : (levelGates numDigits i).length * batchSize * numCmps / 8 ≤
      (numDigits - 1) * batchSize * numCmps / 8 := by
    rw [length_levelGates hi, Nat.mul_assoc, Nat.mul_assoc]
    exact level_room rfl hnd hi
  obtain ⟨heiAlice, hfiAlice⟩ := length_batchMaskPass t.alice triplesAlice i t.tripleCount
  obtain ⟨heiBob, hfiBob⟩ := length_batchMaskPass t.bob triplesBob i t.tripleCount
  have hexchange := exchangeOpenings_meets (hroom.trans_eq (heiAlice.trans ht.ei_alice).symm)
    (hroom.trans_eq (hfiAlice.trans ht.fi_alice).symm)
    (hroom.trans_eq (heiBob.trans ht.ei_bob).symm) (hroom.trans_eq (hfiBob.trans ht.fi_bob).symm)
  refine hexchange.bind ?_
  simp only [Wires.openPass, receive_take]
  exact .done _ _

variable (packing triplesAlice triplesBob batchSize numCmps) in
theorem batchTraverseThread_meets (hnd : 0 < numDigits) (leafAlice leafBob : List Byte) :
    (batchTraverseThread packing .alice triplesAlice numDigits batchSize numCmps leafAlice).Meets
      (batchTraverseThread packing .bob triplesBob numDigits batchSize numCmps leafBob)
      (batchTraverseAndComputeANDs packing triplesAlice triplesBob numDigits batchSize numCmps
        leafAlice leafBob).1
      (batchTraverseAndComputeANDs packing triplesAlice triplesBob numDigits batchSize numCmps
        leafAlice leafBob).2 := by
  have hpos : ∀ i ∈ loopValues (fun i => decide (i < numDigits)) (· * 2) numDigits 1, 0 < i :=
    loopValues_double_pos Nat.one_pos
  let start : Traversal :=
    { alice := Wires.start ((numDigits - 1) * batchSize * numCmps / 8) leafAlice
      bob := Wires.start ((numDigits - 1) * batchSize * numCmps / 8) leafBob
      tripleCount := 0
      oldTripleCount := 0 }
  have hstart : start.Buffers ((numDigits - 1) * batchSize * numCmps / 8) :=
    ⟨List.length_replicate .., List.length_replicate .., List.length_replicate ..,
      List.length_replicate ..⟩
  have hlevels := Thread.Meets.foldlM Traversal.ofAlice Traversal.ofBob
    (Traversal.batchLevel packing triplesAlice triplesBob numDigits batchSize numCmps)
    (Traversal.Buffers ((numDigits - 1) * batchSize * numCmps / 8)) _ hstart
    (fun i hi t ht => ⟨ht.batchLevel i, ht.batchLevel_meets hnd (hpos i hi)⟩)
  exact hlevels.bind (.done _ _)

end Traversal

/-! ### Leaves and triples -/

namespace BatchEquality

theorem length_digits (eq : BatchEquality) (data : List Word) :
    (eq.digits .bob data).length = eq.numDigits * eq.numCmps := by
  rw [digits, length_rowMajor]
  rfl

theorem length_leafOtMessages (eq : BatchEquality) (wan : Bool) (digits leafEq : List Byte) :
    (eq.leafOtMessages wan digits leafEq).length = eq.numDigits * eq.numCmps := by
  rw [leafOtMessages, length_rowMajor]

theorem leafThread_meets (wan : Bool) {threads : OtPackThreads} {ot : OtPack}
    (hot : threads.Delivers ot) {eq : BatchEquality} (hnd : 0 < eq.numDigits)
    (masks masksBob : List Bool) (dataAlice dataBob : List Word) :
    (eq.leafThread wan threads .alice masks dataAlice).Meets
      (eq.leafThread wan threads .bob masksBob dataBob)
      ((eq.computeLeafOTs wan ot dataAlice dataBob masks).map Prod.fst)
      ((eq.computeLeafOTs wan ot dataAlice dataBob masks).map Prod.snd) := by
  have hmeets := eq.leafOts_meets wan hot hnd
    (eq.length_leafOtMessages wan (eq.digits .alice dataAlice) (masks.map boolByte))
    (eq.length_digits dataBob)
  simp only [computeLeafOTs]
  generalize eq.leafOts wan ot (eq.leafOtMessages wan (eq.digits .alice dataAlice)
    (masks.map boolByte)) (eq.digits .bob dataBob) = received at hmeets
  have halice := (hmeets.symm.convert fun sent => sent.map fun _ => masks.map boolByte).symm
  have hleaf := halice.convert fun received => received.map fun received => eq.extract
    (received ++ List.replicate ((eq.batchSize - 1) * (eq.numDigits * eq.numCmps)) 0)
  cases received with
  | error e => exact hleaf
  | ok received => exact hleaf

/-- The libraries deliver what a batched comparison needs. -/
structure Delivers (eq : BatchEquality) (threads : EqualityThreads) (ot : OtPack)
    (random : EqualityRandomness) : Prop where
  otpack : (threads.otpackArr 0).Delivers ot
  triples : (eq.tripleThread threads .alice).Meets (eq.tripleThread threads .bob)
    random.triplesAlice random.triplesBob

/-- What the two threads come to, from the leaves of a party and its triples. -/
def threadResults (leafEq : Except String (List Byte)) (triples : Triple) (i : Fin 2) :
    ThreadResult :=
  if i.val = 0 then .bytes leafEq else .triples triples

theorem cmpThreads_meets (wan : Bool) {threads : EqualityThreads} {ot : OtPack}
    {random : EqualityRandomness} {eq : BatchEquality} (hnd : 0 < eq.numDigits)
    (hthreads : eq.Delivers threads ot random) (masksBob : List Bool)
    (dataAlice dataBob : List Word) (i : Fin 2) :
    (eq.cmpThreads wan threads .alice random.masks dataAlice i).Meets
      (eq.cmpThreads wan threads .bob masksBob dataBob i)
      (threadResults ((eq.computeLeafOTs wan ot dataAlice dataBob random.masks).map Prod.fst)
        random.triplesAlice i)
      (threadResults ((eq.computeLeafOTs wan ot dataAlice dataBob random.masks).map Prod.snd)
        random.triplesBob i) := by
  have hleaf := eq.leafThread_meets wan hthreads.otpack hnd random.masks masksBob dataAlice dataBob
  rw [cmpThreads, cmpThreads, threadResults, threadResults]
  by_cases hi : i.val = 0
  · rw [if_pos hi, if_pos hi, if_pos hi, if_pos hi]
    exact hleaf.bind (.done _ _)
  · rw [if_neg hi, if_neg hi, if_neg hi, if_neg hi]
    exact hthreads.triples.bind (.done _ _)

end BatchEquality

/-! ### The comparison -/

theorem performBatchEqualityProgram_meets (wan : Bool) (packing : BitPacking)
    {threads : EqualityThreads} {ot : OtPack} {random : EqualityRandomness} {eq : BatchEquality}
    (hnd : 0 < eq.numDigits) (hthreads : eq.Delivers threads ot random) (masksBob : List Bool)
    (dataAlice dataBob : List Word) :
    (performBatchEqualityProgram wan packing threads eq .alice random.masks dataAlice).Meets
      (performBatchEqualityProgram wan packing threads eq .bob masksBob dataBob)
      ((eq.run wan packing ot random dataAlice dataBob).map Prod.fst)
      ((eq.run wan packing ot random dataAlice dataBob).map Prod.snd) := by
  have hfork := Program.Meets.inParallel Connection
    (eq.cmpThreads_meets wan hnd hthreads masksBob dataAlice dataBob)
  simp only [performBatchEqualityProgram, BatchEquality.run]
  split
  case isFalse => exact .done _ _
  refine hfork.bind ?_
  cases eq.computeLeafOTs wan ot dataAlice dataBob random.masks with
  | error e => exact .done _ _
  | ok leaf =>
      have htree := batchTraverseThread_meets packing random.triplesAlice random.triplesBob
        eq.batchSize eq.numCmps hnd leaf.1 leaf.2
      refine (Program.Meets.onLine (Connection.netIo (.ioArr 0)) htree).bind ?_
      exact .done _ _

/-! ## The comparison in any order of steps -/

/-- The connection of a thread. -/
def threadConnection (tid : Fin 2) : Connection := .netIo (threadChannel tid)

theorem threadConnection_injective : Function.Injective threadConnection := by
  intro i j h
  exact threadChannel_injective (Connection.netIo.inj h)

/-- However the steps of the two parties and of their threads are ordered, and however
few bytes the connections hold, `perform_batch_equality` on batches of at most three,
with sizes held in `int`, comes to its end, and the two rows of shares add up to the
parity of the matches of every batch. -/
theorem performBatchEquality_endsIn {eq : BatchEquality} (h : eq.Valid)
    (hbatch : 1 ≤ eq.batchSize ∧ eq.batchSize ≤ 3)
    (hfits : eq.numDigits * eq.batchSize * eq.numCmps < 2 ^ 31) {wan : Bool}
    (hr : wan = true ∨ eq.r ≤ 4) (h8 : 8 ∣ eq.numCmps) {packing : BitPacking}
    (hpacking : packing.Lawful) {ot : OtPack}
    (hot : ot.Selects (OfWidth 3) (2 ^ eq.beta)) {random : EqualityRandomness}
    (hrandom : random.BatchValid eq) {threads : EqualityThreads}
    (hthreads : eq.Delivers threads ot random) (masksBob : List Bool)
    (dataAlice dataBob : List Word) {room : Role × Connection → ℕ} (hroom : ∀ k, 0 < room k) :
    ∃ resAlice resBob n,
      EndsIn (Program.Step threadConnection Role.other room) n
        (Net.between .receiver
          (performBatchEqualityProgram wan packing threads eq .alice random.masks dataAlice)
          (performBatchEqualityProgram wan packing threads eq .bob masksBob dataBob))
        (Net.between .receiver (.done (.ok resAlice)) (.done (.ok resBob))) ∧
      ∀ j < eq.numCmps, resAlice.getD j 0 ^^^ resBob.getD j 0 =
        BitVec.ofNat 8 ((List.range eq.batchSize).countP (fun m =>
          (dataAlice.getD (j * eq.batchSize + m) 0).toNat % 2 ^ eq.l =
            (dataBob.getD j 0).toNat % 2 ^ eq.l) % 2) := by
  obtain ⟨resAlice, resBob, hrun, -, -, hparity⟩ : ∃ resAlice resBob,
      eq.run wan packing ot random dataAlice dataBob = .ok (resAlice, resBob) ∧ _ :=
    BatchEquality.run_parity h hbatch hfits hr h8 hpacking hot hrandom dataAlice dataBob
  have hmeets := performBatchEqualityProgram_meets wan packing h.numDigits_pos hthreads masksBob
    dataAlice dataBob
  rw [hrun] at hmeets
  obtain ⟨n, hends⟩ := hmeets.endsIn facing_roles hroom threadConnection_injective
  exact ⟨resAlice, resBob, n, hends, hparity⟩

/-- Triples that need no messages. -/
def batchThreads : EqualityThreads where
  otpackArr _ := selectPackThreads
  generateTriples _ party n :=
    .done (match party with
      | .alice => (onesTriples (n / 8)).2
      | .bob => (onesTriples (n / 8)).1)

theorem batchThreads_delivers (eq : BatchEquality) :
    eq.Delivers batchThreads selectPack (sampleBatch eq) where
  otpack := selectPackThreads_delivers
  triples := .done _ _

/-- The words 0 to 23 against every third of them, on connections that hold one byte. -/
theorem performBatchEquality_endsIn_on_tenBitBatches :
    ∃ resAlice resBob n,
      EndsIn (Program.Step threadConnection Role.other fun _ => 1) n
        (Net.between .receiver
          (performBatchEqualityProgram false lsbPacking batchThreads tenBitBatches .alice
            (sampleBatch tenBitBatches).masks ((List.range 24).map (BitVec.ofNat 64)))
          (performBatchEqualityProgram false lsbPacking batchThreads tenBitBatches .bob []
            ((List.range 8).map fun j => BitVec.ofNat 64 (3 * j))))
        (Net.between .receiver (.done (.ok resAlice)) (.done (.ok resBob))) ∧
      ∀ j < 8, resAlice.getD j 0 ^^^ resBob.getD j 0 = 1 := by
  have hvalid : tenBitBatches.Valid := ⟨by decide, by decide, by decide, by decide⟩
  obtain ⟨resAlice, resBob, n, hends, hparity⟩ :=
    performBatchEquality_endsIn hvalid (by decide) (by decide) (.inr (by decide)) (by decide)
      lsbPacking_lawful (selectPack_selects _ _) (sampleBatch_valid tenBitBatches)
      (batchThreads_delivers tenBitBatches) [] ((List.range 24).map (BitVec.ofNat 64))
      ((List.range 8).map fun j => BitVec.ofNat 64 (3 * j)) fun _ => Nat.one_pos
  refine ⟨resAlice, resBob, n, hends, ?_⟩
  intro j hj
  rw [hparity j hj]
  revert j
  decide

end Sectric
