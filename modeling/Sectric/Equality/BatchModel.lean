import Sectric.Equality.Model

/-!
# Batched equality

`BatchEquality` compares each of BOB's `num_cmps` words with `batch_size` words of
ALICE.  For every digit BOB does one transfer, of a byte with a bit for each word of
the batch; he takes the bytes apart in place.  The tree of products then runs over
all words of all batches, and the parties add up the results of a batch.

ALICE's words lie batch by batch.  The leaves lie word by word: first those of the
first word of every batch, for all digits, then those of the second.

The transfers are given 3 as the number of bits of a message, the size of the batches
the program compares, whatever `batch_size` is.  So what is assumed of them concerns
messages of three bits only.
-/

namespace Sectric

open Lib

/-- The members of `BatchEquality` that `configure` starts from.  Those it computes
are computed as in `Equality`. -/
structure BatchEquality extends Equality where
  batchSize : ℕ

namespace BatchEquality

variable (eq : BatchEquality)

/-! ## Leaves -/

/-- `radixArrSize`. -/
def radixArrSize : Party → ℕ
  | .alice => eq.batchSize * eq.numCmps
  | .bob => eq.numCmps

/-- `digits`. -/
def digits (party : Party) (data : List Word) : List Byte :=
  rowMajor eq.numDigits (eq.radixArrSize party) (eq.digit data)

/-- Message `k` of `set_leaf_ot_messages` for digit `i` of comparison `j`. -/
def leafMessage (digits maskBytes : List Byte) (i j k : ℕ) : Byte :=
  (List.range eq.batchSize).foldl (fun message m =>
    message ||| ((boolByte ((digits.getD (i * eq.radixArrSize .alice + j * eq.batchSize + m)
      0).toNat == k) ^^^
        maskBytes.getD (m * eq.numDigits * eq.numCmps + i * eq.numCmps + j) 0) <<< m)) 0

/-- `set_leaf_ot_messages`: the `N` messages it sets. -/
def setLeafOtMessages (digits : List Byte) (N : ℕ) (maskBytes : List Byte) (i j : ℕ) :
    List Byte :=
  (List.range N).map (eq.leafMessage digits maskBytes i j)

/-- `leaf_ot_messages`. -/
def leafOtMessages (wan : Bool) (digits leafEq : List Byte) : List (List Byte) :=
  rowMajor eq.numDigits eq.numCmps fun i j =>
    if i = eq.numDigits - 1 ∧ 0 < eq.r then
      if wan then eq.setLeafOtMessages digits eq.betaPow leafEq i j
      else eq.setLeafOtMessages digits (2 ^ eq.r) leafEq i j
    else eq.setLeafOtMessages digits eq.betaPow leafEq i j

/-- The loop that takes the received bytes apart.  The byte of a leaf lies where the
bit of the first word goes, which is written last. -/
def extract (leafEq : List Byte) : List Byte :=
  let leaves := eq.numDigits * eq.numCmps
  (List.range leaves).foldl (fun leafEq i =>
    (List.range eq.batchSize).reverse.foldl (fun leafEq j =>
      leafEq.set (j * leaves + i) ((leafEq.getD i 0 >>> j) &&& 1)) leafEq) leafEq

/-- `setLeafMessages` and `computeLeafOTs` of both parties: their `leaf_eq`. -/
def computeLeafOTs (wan : Bool) (ot : OtPack) (dataAlice dataBob : List Word)
    (masks : List Bool) : Except String (List Byte × List Byte) := do
  let leafEq := masks.map boolByte
  let messages := eq.leafOtMessages wan (eq.digits .alice dataAlice) leafEq
  let received ← eq.leafOts wan ot messages (eq.digits .bob dataBob)
  let unset := List.replicate ((eq.batchSize - 1) * (eq.numDigits * eq.numCmps)) 0
  return (leafEq, eq.extract (received ++ unset))

end BatchEquality

/-! ## The tree of products -/

/-- Eight products of one gate, for word `k` of the batches of the comparisons from
`m` on. -/
structure BatchSlot where
  j : ℕ
  counter : ℕ
  k : ℕ
  m : ℕ

/-- The rounds of the three loops of a level, in order. -/
def batchSlots (numDigits batchSize numCmps i : ℕ) : List BatchSlot :=
  (levelGates numDigits i).flatMap fun gate =>
    (List.range batchSize).flatMap fun k =>
      (loopValues (fun m => decide (m < numCmps)) (· + 8) numCmps 0).map fun m =>
        { j := gate.1, counter := gate.2, k := k, m := m }

namespace BatchSlot

variable (numDigits batchSize numCmps : ℕ) (s : BatchSlot)

/-- `(counter * batch_size * num_cmps + k * num_cmps + m) / 8`. -/
def byte : ℕ := (s.counter * batchSize * numCmps + s.k * numCmps + s.m) / 8

/-- `(offset + counter * batch_size * num_cmps + k * num_cmps + m) / 8`. -/
def tripleByte (offset : ℕ) : ℕ :=
  (offset + s.counter * batchSize * numCmps + s.k * numCmps + s.m) / 8

/-- `j * num_cmps + k * num_digits * num_cmps + m`, for digit `j`. -/
def cell (j : ℕ) : ℕ := j * numCmps + s.k * numDigits * numCmps + s.m

end BatchSlot

section Passes

variable (packing : BitPacking) (triples : Triple) (numDigits batchSize numCmps i : ℕ) (w : Wires)

/-- The masking loops of a level. -/
def Wires.batchMaskPass (tripleCount : ℕ) : Wires :=
  let slots := batchSlots numDigits batchSize numCmps i
  { w with
    ei := writeAll (BatchSlot.byte batchSize numCmps) (fun s =>
      triples.ai.getD (s.tripleByte batchSize numCmps tripleCount) 0 ^^^
        packing.boolToUint8 (cellsAt w.leafEq (s.cell numDigits numCmps s.j))) slots w.ei
    fi := writeAll (BatchSlot.byte batchSize numCmps) (fun s =>
      triples.bi.getD (s.tripleByte batchSize numCmps tripleCount) 0 ^^^
        packing.boolToUint8 (cellsAt w.leafEq (s.cell numDigits numCmps (s.j + i)))) slots w.fi }

/-- `temp_z` of a slot. -/
def Wires.batchSlotZ (party : Party) (oldTripleCount : ℕ) (s : BatchSlot) : Byte :=
  tempZ party (w.e.getD (s.byte batchSize numCmps) 0) (w.f.getD (s.byte batchSize numCmps) 0)
    (triples.ai.getD (s.tripleByte batchSize numCmps oldTripleCount) 0)
    (triples.bi.getD (s.tripleByte batchSize numCmps oldTripleCount) 0)
    (triples.ci.getD (s.tripleByte batchSize numCmps oldTripleCount) 0)

/-- The recombination loops of a level. -/
def Wires.batchRecombinePass (party : Party) (oldTripleCount : ℕ) : Wires :=
  { w with
    leafEq := (batchSlots numDigits batchSize numCmps i).foldl (fun leafEq s =>
      setCellsAt leafEq (s.cell numDigits numCmps s.j)
        (packing.uint8ToBool (w.batchSlotZ triples batchSize numCmps party oldTripleCount s)))
      w.leafEq }

end Passes

/-- One round of the outer loop, run by both parties. -/
def Traversal.batchLevel (packing : BitPacking) (triplesAlice triplesBob : Triple)
    (numDigits batchSize numCmps : ℕ) (t : Traversal) (i : ℕ) : Traversal :=
  let alice := t.alice.batchMaskPass packing triplesAlice numDigits batchSize numCmps i
    t.tripleCount
  let bob := t.bob.batchMaskPass packing triplesBob numDigits batchSize numCmps i t.tripleCount
  let counter := (levelGates numDigits i).length
  let tripleCount := t.tripleCount + counter * batchSize * numCmps
  let commSize := counter * batchSize * numCmps / 8
  let openedAlice := alice.openPass commSize bob
  let openedBob := bob.openPass commSize alice
  { alice := openedAlice.batchRecombinePass packing triplesAlice numDigits batchSize numCmps i
      .alice t.oldTripleCount
    bob := openedBob.batchRecombinePass packing triplesBob numDigits batchSize numCmps i .bob
      t.oldTripleCount
    tripleCount := tripleCount
    oldTripleCount := tripleCount }

/-- The last loop: `res_shares`, the sums of the results of the batches. -/
def Wires.resShares (numDigits batchSize numCmps : ℕ) (w : Wires) : List Byte :=
  (List.range numCmps).map fun i =>
    (List.range batchSize).foldl (fun share j =>
      share ^^^ w.leafEq.getD (j * numDigits * numCmps + i) 0) 0

/-- `traverse_and_compute_ANDs` run by both parties. -/
def batchTraverseAndComputeANDs (packing : BitPacking) (triplesAlice triplesBob : Triple)
    (numDigits batchSize numCmps : ℕ) (leafAlice leafBob : List Byte) : List Byte × List Byte :=
  let bytes := (numDigits - 1) * batchSize * numCmps / 8
  let start : Traversal :=
    { alice := Wires.start bytes leafAlice
      bob := Wires.start bytes leafBob
      tripleCount := 0
      oldTripleCount := 0 }
  let t := (loopValues (fun i => decide (i < numDigits)) (· * 2) numDigits 1).foldl
    (Traversal.batchLevel packing triplesAlice triplesBob numDigits batchSize numCmps) start
  (t.alice.resShares numDigits batchSize numCmps, t.bob.resShares numDigits batchSize numCmps)

/-- `perform_batch_equality` of both parties.  The length of `leaf_eq`,
`num_digits * batch_size * num_cmps`, is the largest of the sizes and indices. -/
def BatchEquality.run (wan : Bool) (packing : BitPacking) (ot : OtPack) (eq : BatchEquality)
    (random : EqualityRandomness) (dataAlice dataBob : List Word) :
    Except String (List Byte × List Byte) :=
  if SizeType.int.Holds (eq.numDigits * eq.batchSize * eq.numCmps) then do
    let (leafAlice, leafBob) ← eq.computeLeafOTs wan ot dataAlice dataBob random.masks
    return batchTraverseAndComputeANDs packing random.triplesAlice random.triplesBob eq.numDigits
      eq.batchSize eq.numCmps leafAlice leafBob
  else overflow

end Sectric
