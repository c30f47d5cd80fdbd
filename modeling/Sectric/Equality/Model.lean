import Sectric.Block
import Sectric.Lib.Loop

/-!
# Equality of shared words

`Equality` compares `num_cmps` words of two parties.  A word is cut into
digits.  For every digit ALICE draws a mask bit and offers, in a 1-out-of-N
transfer, the mask flipped at her own digit; BOB selects with his.  The two then
share, for every digit, whether the digits agree.  A tree of shared products
turns the digit bits of a word into one bit, `num_cmps` words at a time and
eight bits to a byte.

The transfers, the triples and the packing of eight bits are libraries the
program calls, and parameters here.  What one party computes is a function of
its own arrays and of what it receives; the definitions on both parties pair
the sends of one with the receives of the other.
-/

namespace Sectric

open Lib

/-- The type the sizes of a test are held in.  The program has `int`, where a
product from `2 ^ 31` on is undefined.  What does not depend on the width is said
without a bound. -/
inductive SizeType where
  | int
  | unbounded

/-- The values with a place in the type. -/
def SizeType.Holds : SizeType → ℕ → Prop
  | .int, n => n < 2 ^ 31
  | .unbounded, _ => True

instance SizeType.decidableHolds : (sizes : SizeType) → DecidablePred sizes.Holds
  | .int, n => inferInstanceAs (Decidable (n < 2 ^ 31))
  | .unbounded, _ => inferInstanceAs (Decidable True)

theorem SizeType.unbounded_holds (n : ℕ) : SizeType.unbounded.Holds n := trivial

/-- A value below a held one is held. -/
theorem SizeType.Holds.of_le {sizes : SizeType} {m n : ℕ} (h : sizes.Holds n) (hle : m ≤ n) :
    sizes.Holds m := by
  cases sizes with
  | int => exact Nat.lt_of_le_of_lt hle h
  | unbounded => trivial

/-- `sci::ALICE` and `sci::BOB`. -/
inductive Party where
  | alice
  | bob
  deriving DecidableEq

/-- A `bool` in a byte. -/
def boolByte (b : Bool) : Byte := if b then 1 else 0

/-- `sci::bool_to_uint8(p, 8)` and `sci::uint8_to_bool(p, z, 8)`. -/
structure BitPacking where
  boolToUint8 : List Byte → Byte
  uint8ToBool : Byte → List Byte

/-- `sci::OTPack`: what the receiver gets from the sender's message rows and
its own choices. -/
structure OtPack where
  kkotBeta : List (List Byte) → List Byte → List Byte
  kkot4 : List (List Byte) → List Byte → List Byte
  kkot8 : List (List Byte) → List Byte → List Byte
  kkot16 : List (List Byte) → List Byte → List Byte
  iknpStraight : List (List Byte) → List Byte → List Byte

/-- One party's half of packed triples, eight to a byte. -/
structure Triple where
  ai : List Byte
  bi : List Byte
  ci : List Byte

/-! ## Configuration and digits -/

/-- The members of `Equality` that `configure` starts from. -/
structure Equality where
  l : ℕ
  beta : ℕ
  numCmps : ℕ

namespace Equality

variable (eq : Equality)

/-- `ceil((double)l / beta)`. -/
def numDigits : ℕ := (eq.l + eq.beta - 1) / eq.beta

/-- The width of the top digit where it is not `beta`, else 0. -/
def r : ℕ := eq.l % eq.beta

def numTriples : ℕ := eq.numDigits - 1

def maskBeta : Byte := if eq.beta = 8 then BitVec.allOnes 8 else BitVec.ofNat 8 (2 ^ eq.beta - 1)

def maskR : Byte := BitVec.ofNat 8 (2 ^ eq.r - 1)

def betaPow : ℕ := 2 ^ eq.beta

/-- Digit `i` of word `j`. -/
def digit (data : List Word) (i j : ℕ) : Byte :=
  let shifted : Byte := (data.getD j 0 >>> (i * eq.beta)).setWidth 8
  if i = eq.numDigits - 1 ∧ eq.r ≠ 0 then shifted &&& eq.maskR else shifted &&& eq.maskBeta

/-- `digits`, in the order it is filled: cell `i * num_cmps + j`. -/
def digits (data : List Word) : List Byte :=
  rowMajor eq.numDigits eq.numCmps (eq.digit data)

/-! ## Leaves -/

/-- `set_leaf_ot_messages`: the `N` messages it sets. -/
def setLeafOtMessages (digit : Byte) (N : ℕ) (maskByte : Byte) : List Byte :=
  (List.range N).map fun k => boolByte (digit.toNat == k) ^^^ maskByte

/-- `leaf_ot_messages`.  `wan` tells the `WAN_EXEC` build. -/
def leafOtMessages (wan : Bool) (digits leafEq : List Byte) : List (List Byte) :=
  rowMajor eq.numDigits eq.numCmps fun i j =>
    let p := i * eq.numCmps + j
    if i = eq.numDigits - 1 ∧ 0 < eq.r then
      if wan then setLeafOtMessages (digits.getD p 0) eq.betaPow (leafEq.getD p 0)
      else setLeafOtMessages (digits.getD p 0) (2 ^ eq.r) (leafEq.getD p 0)
    else setLeafOtMessages (digits.getD p 0) eq.betaPow (leafEq.getD p 0)

/-- The leaf transfers: what BOB's `leaf_eq` holds after them. -/
def leafOts (wan : Bool) (ot : OtPack) (messages : List (List Byte)) (choices : List Byte) :
    Except String (List Byte) :=
  let full := eq.numCmps * (eq.numDigits - 1)
  let head := ot.kkotBeta (messages.take full) (choices.take full)
  let topMessages := messages.drop full
  let topChoices := choices.drop full
  if wan then .ok (ot.kkotBeta messages choices)
  else if eq.r = 1 then .ok (head ++ ot.iknpStraight topMessages topChoices)
  else if eq.r ≠ 0 then
    if eq.r = 2 then .ok (head ++ ot.kkot4 topMessages topChoices)
    else if eq.r = 3 then .ok (head ++ ot.kkot8 topMessages topChoices)
    else if eq.r = 4 then .ok (head ++ ot.kkot16 topMessages topChoices)
    else .error "Not yet implemented!"
  else .ok (ot.kkotBeta messages choices)

/-- `computeLeafOTs` run by both parties: the `leaf_eq` of ALICE, which is her
random mask bits, and the one of BOB. -/
def computeLeafOTs (wan : Bool) (ot : OtPack) (dataAlice dataBob : List Word)
    (masks : List Bool) : Except String (List Byte × List Byte) := do
  let leafEq := masks.map boolByte
  let messages := eq.leafOtMessages wan (eq.digits dataAlice) leafEq
  let received ← eq.leafOts wan ot messages (eq.digits dataBob)
  return (leafEq, received)

end Equality

/-! ## The tree of products -/

/-- A batch of eight products of one gate: gate `counter` of the level combines
the digits `j` and `j + i`, for the comparisons from `m` on. -/
@[ext]
structure Slot where
  j : ℕ
  counter : ℕ
  m : ℕ

/-- `for (int j = 0; j < num_digits and j + i < num_digits; j += 2 * i)`, with
the value of `counter` in each round. -/
def levelGates (numDigits i : ℕ) : List (ℕ × ℕ) :=
  (loopValues (fun j => decide (j < numDigits ∧ j + i < numDigits)) (· + 2 * i) numDigits 0).zipIdx

/-- The rounds of both loops of a level, in order. -/
def levelSlots (numDigits numCmps i : ℕ) : List Slot :=
  (levelGates numDigits i).flatMap fun gate =>
    (loopValues (fun m => decide (m < numCmps)) (· + 8) numCmps 0).map fun m =>
      { j := gate.1, counter := gate.2, m := m }

/-- `(counter * num_cmps + m) / 8`. -/
def Slot.byte (numCmps : ℕ) (s : Slot) : ℕ := (s.counter * numCmps + s.m) / 8

/-- `(offset + counter * num_cmps + m) / 8`. -/
def Slot.tripleByte (numCmps offset : ℕ) (s : Slot) : ℕ :=
  (offset + s.counter * numCmps + s.m) / 8

/-- The eight cells from `p` on. -/
def cellsAt (xs : List Byte) (p : ℕ) : List Byte := (xs.drop p).take 8

/-- The eight cells from `p` on become `bytes`. -/
def setCellsAt (xs : List Byte) (p : ℕ) (bytes : List Byte) : List Byte :=
  writeAll (p + ·) (fun k => bytes.getD k 0) (List.range 8) xs

/-- The arrays of one party. -/
structure Wires where
  leafEq : List Byte
  ei : List Byte
  fi : List Byte
  e : List Byte
  f : List Byte

/-- The arrays before the first level. -/
def Wires.start (bytes : ℕ) (leafEq : List Byte) : Wires where
  leafEq := leafEq
  ei := List.replicate bytes 0
  fi := List.replicate bytes 0
  e := List.replicate bytes 0
  f := List.replicate bytes 0

/-- The masking loops of a level: the two inputs of every gate, masked by the
first two parts of its triples. -/
def Wires.maskPass (packing : BitPacking) (triples : Triple) (numDigits numCmps i tripleCount : ℕ)
    (w : Wires) : Wires :=
  let slots := levelSlots numDigits numCmps i
  { w with
    ei := writeAll (Slot.byte numCmps) (fun s =>
      triples.ai.getD (s.tripleByte numCmps tripleCount) 0 ^^^
        packing.boolToUint8 (cellsAt w.leafEq (s.j * numCmps + s.m))) slots w.ei
    fi := writeAll (Slot.byte numCmps) (fun s =>
      triples.bi.getD (s.tripleByte numCmps tripleCount) 0 ^^^
        packing.boolToUint8 (cellsAt w.leafEq ((s.j + i) * numCmps + s.m))) slots w.fi }

/-- `io->recv_data(buffer, size)` of what the other party sent from `data`. -/
def receive (buffer data : List Byte) (size : ℕ) : List Byte := data.take size ++ buffer.drop size

/-- `for (i < size) x[i] ^= y[i]`. -/
def xorBytes (x y : List Byte) (size : ℕ) : List Byte :=
  modifyAll id (fun p b => b ^^^ y.getD p 0) (List.range size) x

/-- The exchange of a level: receive the other party's masked inputs and add
the own ones. -/
def Wires.openPass (commSize : ℕ) (w other : Wires) : Wires :=
  { w with
    e := xorBytes (receive w.e other.ei commSize) w.ei commSize
    f := xorBytes (receive w.f other.fi commSize) w.fi commSize }

/-- `temp_z` of a slot, from the bytes it reads. -/
def tempZ (party : Party) (e f a b c : Byte) : Byte :=
  let z := match party with
    | .alice => e &&& f
    | .bob => 0
  let z := z ^^^ (f &&& a)
  let z := z ^^^ (e &&& b)
  z ^^^ c

/-- `temp_z` of a slot. -/
def Wires.slotZ (party : Party) (triples : Triple) (numCmps oldTripleCount : ℕ) (w : Wires)
    (s : Slot) : Byte :=
  tempZ party (w.e.getD (s.byte numCmps) 0) (w.f.getD (s.byte numCmps) 0)
    (triples.ai.getD (s.tripleByte numCmps oldTripleCount) 0)
    (triples.bi.getD (s.tripleByte numCmps oldTripleCount) 0)
    (triples.ci.getD (s.tripleByte numCmps oldTripleCount) 0)

/-- The recombination loops of a level. -/
def Wires.recombinePass (packing : BitPacking) (party : Party) (triples : Triple)
    (numDigits numCmps i oldTripleCount : ℕ) (w : Wires) : Wires :=
  { w with
    leafEq := (levelSlots numDigits numCmps i).foldl (fun leafEq s =>
      setCellsAt leafEq (s.j * numCmps + s.m)
        (packing.uint8ToBool (w.slotZ party triples numCmps oldTripleCount s))) w.leafEq }

/-- Both parties between two levels, and the two counters, which agree. -/
structure Traversal where
  alice : Wires
  bob : Wires
  tripleCount : ℕ
  oldTripleCount : ℕ

/-- One round of the outer loop, run by both parties. -/
def Traversal.level (packing : BitPacking) (triplesAlice triplesBob : Triple)
    (numDigits numCmps : ℕ) (t : Traversal) (i : ℕ) : Traversal :=
  let alice := t.alice.maskPass packing triplesAlice numDigits numCmps i t.tripleCount
  let bob := t.bob.maskPass packing triplesBob numDigits numCmps i t.tripleCount
  let counter := (levelGates numDigits i).length
  let tripleCount := t.tripleCount + counter * numCmps
  let commSize := counter * numCmps / 8
  let openedAlice := alice.openPass commSize bob
  let openedBob := bob.openPass commSize alice
  { alice := openedAlice.recombinePass packing .alice triplesAlice numDigits numCmps i
      t.oldTripleCount
    bob := openedBob.recombinePass packing .bob triplesBob numDigits numCmps i t.oldTripleCount
    tripleCount := tripleCount
    oldTripleCount := tripleCount }

/-- `traverse_and_compute_ANDs` run by both parties, on their `leaf_eq` arrays:
their outputs `z`. -/
def traverseAndComputeANDs (packing : BitPacking) (triplesAlice triplesBob : Triple)
    (numDigits numCmps : ℕ) (leafAlice leafBob : List Byte) : List Byte × List Byte :=
  let bytes := (numDigits - 1) * numCmps / 8
  let start : Traversal :=
    { alice := Wires.start bytes leafAlice
      bob := Wires.start bytes leafBob
      tripleCount := 0
      oldTripleCount := 0 }
  let t := (loopValues (fun i => decide (i < numDigits)) (· * 2) numDigits 1).foldl
    (Traversal.level packing triplesAlice triplesBob numDigits numCmps) start
  (t.alice.leafEq.take numCmps, t.bob.leafEq.take numCmps)

/-! ## Threads and chunks -/

/-- The randomness of one `Equality` object pair: ALICE's masks and the two
halves of the triples `generate_triples` yields. -/
structure EqualityRandomness where
  masks : List Bool
  triplesAlice : Triple
  triplesBob : Triple

/-- What a size the type does not hold leads to: a value that is not defined, an
allocation of a negative length. -/
def overflow {α : Type} : Except String α := .error "signed integer overflow"

/-- An `Equality` object of each party, run to the end.  `configure` sets
`total_triples_count = l * num_cmps`, which no length and no index of the object
exceeds. -/
def Equality.run (sizes : SizeType) (wan : Bool) (packing : BitPacking) (ot : OtPack)
    (eq : Equality) (random : EqualityRandomness) (dataAlice dataBob : List Word) :
    Except String (List Byte × List Byte) :=
  if sizes.Holds (eq.l * eq.numCmps) then do
    let (leafAlice, leafBob) ← eq.computeLeafOTs wan ot dataAlice dataBob random.masks
    return traverseAndComputeANDs packing random.triplesAlice random.triplesBob eq.numDigits
      eq.numCmps leafAlice leafBob
  else overflow

/-- `equality_thread` of both parties.  In a thread with odd `tid` the objects
have the roles `3 - party`. -/
def equalityThread (sizes : SizeType) (wan : Bool) (packing : BitPacking) (ot : OtPack) (tid : ℕ)
    (random : EqualityRandomness) (xAlice xBob : List Word) (lnumCmps l b : ℕ) :
    Except String (List Byte × List Byte) :=
  let eq : Equality := { l := l, beta := b, numCmps := lnumCmps }
  if tid % 2 = 1 then do
    let (zBob, zAlice) ← eq.run sizes wan packing ot random xBob xAlice
    return (zAlice, zBob)
  else eq.run sizes wan packing ot random xAlice xBob

/-- `perform_equality` of both parties: two threads on the two chunks of the
data, each writing its chunk of the output. -/
def performEquality (sizes : SizeType) (wan : Bool) (packing : BitPacking) (ot : ℕ → OtPack)
    (random : ℕ → EqualityRandomness) (xAlice xBob : List Word) (l b numCmps : ℕ) :
    Except String (List Byte × List Byte) :=
  if sizes.Holds numCmps then do
    let chunkSize := numCmps / (8 * 2) * 8
    let offset := 1 * chunkSize
    let first ← equalityThread sizes wan packing (ot 0) 0 (random 0) xAlice xBob chunkSize l b
    let second ← equalityThread sizes wan packing (ot 1) 1 (random 1) (xAlice.drop offset)
      (xBob.drop offset) (numCmps - offset) l b
    return (first.1 ++ second.1, first.2 ++ second.2)
  else overflow

/-! ## Blocks -/

/-- `(uint64_t *)inputs.data()`: two words a block, the low one first. -/
def wordsOf (inputs : List Block) : List Word := inputs.flatMap fun b => [b.low, b.high]

/-- One party in the final product of `perform_block_equality`. -/
structure FinalWires where
  shares0 : List Byte
  shares1 : List Byte
  ei : List Byte
  fi : List Byte

/-- The split of `res_shares` into the shares of the low and of the high words,
and the masked inputs. -/
def FinalWires.start (packing : BitPacking) (triple : Triple) (size : ℕ)
    (resShares : List Byte) : FinalWires :=
  let shares0 := (List.range size).map fun i => resShares.getD (2 * i) 0
  let shares1 := (List.range size).map fun i => resShares.getD (2 * i + 1) 0
  let rounds := loopValues (fun i => decide (i < size)) (· + 8) size 0
  { shares0 := shares0
    shares1 := shares1
    ei := modifyAll (· / 8) (fun i b => b ^^^ packing.boolToUint8 (cellsAt shares0 i)) rounds
      ((List.range (size / 8)).map fun i => triple.ai.getD i 0)
    fi := modifyAll (· / 8) (fun i b => b ^^^ packing.boolToUint8 (cellsAt shares1 i)) rounds
      ((List.range (size / 8)).map fun i => triple.bi.getD i 0) }

/-- The exchange, and `tmp` in round `i`. -/
def FinalWires.roundZ (party : Party) (triple : Triple) (size : ℕ) (w other : FinalWires)
    (i : ℕ) : Byte :=
  let commSize := size / 8
  let e := xorBytes (receive (List.replicate commSize 0) other.ei commSize) w.ei commSize
  let f := xorBytes (receive (List.replicate commSize 0) other.fi commSize) w.fi commSize
  tempZ party (e.getD (i / 8) 0) (f.getD (i / 8) 0) (triple.ai.getD (i / 8) 0)
    (triple.bi.getD (i / 8) 0) (triple.ci.getD (i / 8) 0)

/-- The recombination: `ans_shares`. -/
def FinalWires.finish (packing : BitPacking) (party : Party) (triple : Triple) (size : ℕ)
    (w other : FinalWires) : List Byte :=
  (loopValues (fun i => decide (i < size)) (· + 8) size 0).foldl (fun ansShares i =>
    setCellsAt ansShares i (packing.uint8ToBool (w.roundZ party triple size other i)))
    (List.replicate size 0)

/-- All the randomness of `perform_block_equality`: that of the two threads and
the triples of the final product. -/
structure BlockEqualityRandomness where
  thread : ℕ → EqualityRandomness
  tripleAlice : Triple
  tripleBob : Triple

/-- `perform_block_equality` of both parties, on inputs of one length.  The words
are compared in digits of five bits, over packs `otpack radix tid` made for the
`radix` of the context.  `otpackArr` has two elements; the third pack, which the
source writes behind them, is that of `triple_gen`. -/
def performBlockEquality (sizes : SizeType) (wan : Bool) (packing : BitPacking)
    (otpack : ℕ → ℕ → OtPack) (radix : ℕ) (random : BlockEqualityRandomness)
    (inputsAlice inputsBob : List Block) : Except String (List Byte × List Byte) := do
  let size := inputsAlice.length
  let (resAlice, resBob) ← performEquality sizes wan packing (otpack radix) random.thread
    (wordsOf inputsAlice) (wordsOf inputsBob) 64 5 (2 * size)
  let alice := FinalWires.start packing random.tripleAlice size resAlice
  let bob := FinalWires.start packing random.tripleBob size resBob
  return (alice.finish packing .alice random.tripleAlice size bob,
    bob.finish packing .bob random.tripleBob size alice)

end Sectric
