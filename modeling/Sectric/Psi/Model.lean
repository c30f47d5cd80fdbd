import Sectric.Equality.Model
import Sectric.Hashing.Cuckoo
import Sectric.Hashing.Simple
import Sectric.Lib.Double
import Sectric.Oprf.VoleOprf

/-!
# The cardinality of a private intersection

The receiver puts the folds of its blocks into a cuckoo table, the sender its
own into a simple table.  For every key of the receiver the sender's key-value
store yields the mask of the bin, if the sender has that key.  An equality test
on the bins turns this into shared bits, and an oblivious transfer into a sum:
the two parties' sums differ by the number of bins that match.

`psiCa` runs both parties.  What one party computes depends on its own data and
on what it received before.  The sub-protocols are parameters: `Subprotocols`
says what each of them hands to the two parties.
-/

namespace Sectric

open Lib

/-! ## Sizes -/

/-- `MAX_DEGREE`, `NUM_VERTEX` and `context.nfuns`. -/
structure PsiConfig where
  maxDegree : ℕ
  numVertex : ℕ
  nfuns : ℕ

namespace PsiConfig

variable (cfg : PsiConfig)

/-- `MAX_DEGREE*MAX_DEGREE`, a product of 64-bit numbers. -/
def square : ℕ := cfg.maxDegree * cfg.maxDegree % 2 ^ 64

/-- `MAX_DEGREE * NUM_VERTEX`. -/
def realNum2 : ℕ := cfg.maxDegree * cfg.numVertex % 2 ^ 64

/-- `MAX_DEGREE*MAX_DEGREE * 1.27`, truncated.  The double nearest to 1.27 is
5719571526760530 / 2 ^ 52. -/
def binNum : ℕ := roundTo53Bits (roundTo53Bits cfg.square * 5719571526760530) / 2 ^ 52

def nbins : ℕ := cfg.binNum + if cfg.binNum % 8 = 0 then 0 else 8 - cfg.binNum % 8

/-- `std::ceil(std::log2(MAX_DEGREE*MAX_DEGREE))`. -/
def num1 : ℕ := Nat.clog 2 cfg.square

/-- `std::ceil(std::log2(real_num2))`. -/
def num2 : ℕ := Nat.clog 2 cfg.realNum2

/-- `MAX_DEGREE * NUM_VERTEX * 3`. -/
def okvsItems : ℕ := cfg.maxDegree * cfg.numVertex * 3 % 2 ^ 64

/-- `1 << (num2 - 6)`, where the difference is one of 64-bit numbers. -/
def okvsBinSize : ℕ := One.int.shift ((cfg.num2 + (2 ^ 64 - 6)) % 2 ^ 64)

end PsiConfig

/-! ## What the parties run on -/

/-- The generator: `PRG::SetSeed(fixed_seed, id)`, which every party can
compute, and block `i` of `PRG::GenRandomBlocks(seed, n)`. -/
structure Prg (Seed : Type) where
  fixedSeed : ℕ → Seed
  block : Seed → ℕ → Block

/-- `PRG::GenRandomBlocks(seed, n)`. -/
def Prg.genRandomBlocks {Seed : Type} (prg : Prg Seed) (seed : Seed) (n : ℕ) : List Block :=
  (List.range n).map (prg.block seed)

@[simp] theorem Prg.length_genRandomBlocks {Seed : Type} (prg : Prg Seed) (seed : Seed) (n : ℕ) :
    (prg.genRandomBlocks seed n).length = n := by
  simp [Prg.genRandomBlocks]

/-- What the sub-protocols hand out.  `baxos n b` is `Baxos<gf_128>(n, b, 3)`.
`oprf keys keys'` are the outputs of `Client1` on the receiver's keys and of
`Evaluate1` on the sender's.  `blockEquality` takes the inputs of the receiver
and the sender, and `iknpOt` the receiver's two message lists and the sender's
choices. -/
structure Subprotocols (Seed : Type) where
  baxos : ℕ → ℕ → Baxos Seed
  oprf : List Block → List Block → List Block × List Block
  blockEquality : List Block → List Block → Except String (List Byte × List Byte)
  iknpOt : List Block → List Block → List Byte → List Block

/-- What the parties draw themselves: the receiver's padding and masks, and the
seed of the sender's store. -/
structure PsiRandomness (Seed : Type) where
  padding : ℕ → Word
  otR : ℕ → Block
  okvsSeed : Seed

/-! ## The receiver's table -/

/-- The 64-bit elements of the receiver: the folds of its set, and as many
random ones as the unsigned difference of the sizes says. -/
def receiverVec (cfg : PsiConfig) (padding : ℕ → Word) (set : List Block) : List Word :=
  set.map Block.fold ++
    (List.range ((cfg.square + (2 ^ 64 - set.length % 2 ^ 64)) % 2 ^ 64)).map padding

/-- `map[key]` after `map[vec[i]] = values[i]` for each `i`. -/
def mapLookup (vec values : List Word) (key : Word) : Word :=
  ((vec.zip values).reverse.lookup key).getD 0

/-- The receiver's cuckoo table. -/
def receiverTable (cfg : PsiConfig) (h : HashFamily) (vec : List Word) :
    Except String CuckooTable :=
  (((CuckooTable.ofNumOfBins cfg.nbins 0).setNumOfHashFunctions cfg.nfuns).insert vec).mapElements h

/-- The message on a stash that is not empty. -/
def stashErrors (t : CuckooTable) : List String :=
  if 0 < t.getStashSize then ["[Error] Stash of size " ++ toString t.getStashSize ++ " occured\n"]
  else []

/-! ## The sender's store -/

/-- The folds of the sender's set. -/
def senderVec (cfg : PsiConfig) (set : List Block) : List Word :=
  (List.range cfg.realNum2).map fun i => (set.getD i 0).fold

/-- The sender's rows of key blocks. -/
def senderRows (cfg : PsiConfig) (h : HashFamily) (nbins : ℕ) (set : List Block) :
    Except String (List (List Block)) := do
  let (rows, _) ← (((SimpleTable.ofNumOfBins nbins 0).setNumOfHashFunctions cfg.nfuns).insert
    (senderVec cfg set)).asRaw2DVectorNoID h
  return rows

/-- The loop over the rows that adds the mask of the bin to every value.  The
position `tmp` in the flat vector runs on from row to row. -/
def maskValues (randomValues : List Block) (rows : List (List Block)) (oprfResult : List Block) :
    List Block :=
  (rows.zipIdx.foldl (fun s row =>
    (List.range row.1.length).foldl (fun s _ =>
      (s.1 + 1, s.2.modify s.1 fun b => randomValues.getD row.2 0 ^^^ b)) s) (0, oprfResult)).2

/-! ## The receiver's bins -/

/-- `decode_result`, with the loop `decode_result[i] ^= result[i]`. -/
def decodeResult {Seed : Type} (okvs : Baxos Seed) (keys table result : List Block) : List Block :=
  modifyAll id (fun i b => b ^^^ result.getD i 0) (List.range keys.length)
    (okvs.decode keys (List.replicate keys.length 0) table)

/-- `eq_blocks`: the decoded value of every active bin, zero elsewhere. -/
def eqBlocks (nbins : ℕ) (idxs : List ℕ) (decoded : List Block) : List Block :=
  writeAll (fun i => idxs.getD i 0) (fun i => decoded.getD i 0) (List.range idxs.length)
    (List.replicate nbins 0)

/-! ## The sum by transfer -/

/-- The number of padding rows of the transfer. -/
def otPadding (nbins : ℕ) : ℕ := 128 - nbins % 128

/-- `ot[bit][i]`. -/
def otCell (ot : List Block × List Block) (bit : Byte) (i : ℕ) : Block :=
  (if bit = 0 then ot.1 else ot.2).getD i 0

/-- `ot[bit].emplace_back(x)`. -/
def otPush (ot : List Block × List Block) (bit : Byte) (x : Block) : List Block × List Block :=
  if bit = 0 then (ot.1 ++ [x], ot.2) else (ot.1, ot.2 ++ [x])

/-- The loop that builds the two message lists, with its second variable `j`.
A read of `idxs` past its end is no match. -/
def otMessages (nbins : ℕ) (weight : Word → Word) (idxs : List ℕ) (ck : List Block)
    (ans : List Byte) (otR : ℕ → Block) : ℕ × (List Block × List Block) :=
  (List.range nbins).foldl (fun s i =>
    let ot := otPush s.2 (ans.getD i 0) (otR i)
    if idxs[s.1]? = some i then
      let block0 := makeBlock 0 (weight (ck.getD s.1 0).low)
      (s.1 + 1, otPush ot (1 - ans.getD i 0) (addWithCarry (otR i) block0))
    else (s.1, otPush ot (1 - ans.getD i 0) (addWithCarry (otR i) 0))) (0, [], [])

/-- `for (i < n) sum = add_with_carry(sum, x i)`. -/
def sumBlocks (n : ℕ) (x : ℕ → Block) : Block :=
  (List.range n).foldl (fun sum i => addWithCarry sum (x i)) 0

/-! ## The run -/

/-- What the parties hold before the equality test.  `decoded` is what the
receiver sees of the sender's data. -/
structure PsiBins where
  vec : List Word
  table : CuckooTable
  idxs : List ℕ
  ck : List Block
  keys : List Block
  randomValues : List Block
  values : List Block
  okvs : List Block
  decoded : List Block
  eqInputs : List Block

/-- The exchange up to the equality test, from the read-out of the cuckoo table
and the rows of the simple table: the OPRF, the sender's store and the
receiver's bins. -/
def psiBins {Seed : Type} (nbins : ℕ) (baxos : Baxos Seed) (prg : Prg Seed)
    (sub : Subprotocols Seed) (random : PsiRandomness Seed) (vec : List Word) (table : CuckooTable)
    (idxs : List ℕ) (ck : List Block) (rows : List (List Block)) : PsiBins :=
  let randomValues := prg.genRandomBlocks (prg.fixedSeed 0) nbins
  let keys := rows.flatten
  let result := (sub.oprf ck keys).1
  let oprfResult := (sub.oprf ck keys).2
  let values := maskValues randomValues rows oprfResult
  let okvs := baxos.solve keys values (some random.okvsSeed)
  let decoded := decodeResult baxos ck okvs result
  { vec := vec
    table := table
    idxs := idxs
    ck := ck
    keys := keys
    randomValues := randomValues
    values := values
    okvs := okvs
    decoded := decoded
    eqInputs := eqBlocks nbins idxs decoded }

/-- What the parties hold at the end of a run. -/
structure PsiRun extends PsiBins where
  errors : List String
  ansReceiver : List Byte
  ansSender : List Byte
  ot : List Block × List Block
  choices : List Byte
  received : List Block
  psiCaTmp : Block
  blockAns : Block

/-- The rest of the exchange, from the answers of the equality test. -/
def PsiBins.finish {Seed : Type} (nbins : ℕ) (sub : Subprotocols Seed)
    (random : PsiRandomness Seed) (bins : PsiBins) (ansReceiver ansSender : List Byte) : PsiRun :=
  let values := List.replicate bins.vec.length (1 : Word)
  let messages := (otMessages nbins (mapLookup bins.vec values) bins.idxs bins.ck ansReceiver
    random.otR).2
  let padRows := List.replicate (otPadding nbins) (0 : Block)
  let ot := (messages.1 ++ padRows, messages.2 ++ padRows)
  let choices := ansSender ++ List.replicate (otPadding nbins) 0
  let received := sub.iknpOt ot.1 ot.2 choices
  let psiCaTmp := sumBlocks nbins fun i => received.getD i 0
  let psiCaAns := sumBlocks nbins fun i => otCell ot (ansReceiver.getD i 0) i
  { bins with
    errors := stashErrors bins.table
    ansReceiver := ansReceiver
    ansSender := ansSender
    ot := ot
    choices := choices
    received := received
    psiCaTmp := psiCaTmp
    blockAns := subWithBorrow psiCaTmp psiCaAns }

/-- The number the receiver prints. -/
def PsiRun.result (run : PsiRun) : ℕ := run.blockAns.low.toNat / 2

/-- `psi_ca_receiver` with `psi_ca_sender`. -/
def psiCa {Seed : Type} (cfg : PsiConfig) (h : HashFamily) (prg : Prg Seed)
    (sub : Subprotocols Seed) (random : PsiRandomness Seed) (receiverSet senderSet : List Block) :
    Except String PsiRun := do
  let vec := receiverVec cfg random.padding receiverSet
  let table ← receiverTable cfg h vec
  let (idxs, ck) ← table.asRawVectorNoID
  let rows ← senderRows cfg h cfg.nbins senderSet
  let baxos := sub.baxos cfg.okvsItems cfg.okvsBinSize
  let bins := psiBins cfg.nbins baxos prg sub random vec table idxs ck rows
  let (ansReceiver, ansSender) ← sub.blockEquality bins.eqInputs bins.randomValues
  return bins.finish cfg.nbins sub random ansReceiver ansSender

end Sectric
