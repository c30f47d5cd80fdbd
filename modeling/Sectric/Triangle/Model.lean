import Sectric.Net.Server
import Sectric.Psi.Model

/-!
# Neighbours and the target

A vertex has a file with the ids of its neighbours.  `neighbor` is run for every
neighbour of the target: it fills a store with the vertex's neighbour blocks as
keys and the blocks of the vertex's own generator as values, and sends the
store.  `neighborRequest` is run for the target: it takes the stores in, decodes
every one at all of the target's neighbours, and lays the results out row by
row.  The other party enumerates the generator blocks of all vertices.

`MAX_DEGREE` and `NUM_VERTEX` are those of `PsiConfig`.
-/

namespace Sectric

open Lib

variable {Seed : Type}

/-- `u64s_to_blocks`, which `read_to_block` ends in. -/
def u64sToBlocks (numbers : List Word) : List Block := numbers.map (makeBlock 0)

/-- `concatenate_vectors`. -/
def concatenateVectors (vec1 vec2 : List Block) : List Block := vec1 ++ vec2

/-- `flatten`. -/
def flatten (vec2D : List (List Block)) : List Block :=
  vec2D.foldl (fun vec1D row => vec1D ++ row) []

/-- `Baxos<gf_128>(MAX_DEGREE, 1ull << 10, 3)`. -/
def degreeBaxos (cfg : PsiConfig) (baxos : ℕ → ℕ → Baxos Seed) : Baxos Seed :=
  baxos cfg.maxDegree (2 ^ 10)

/-! ## A neighbour -/

/-- The neighbours with random blocks up to the degree bound.  The difference
`num_add` is one of 64-bit numbers, so its maximum with zero is itself. -/
def padNeighbors (cfg : PsiConfig) (prg : Prg Seed) (randomSeed : Seed) (neighbors : List Block) :
    List Block :=
  let numAdd := max 0 ((cfg.maxDegree + (2 ^ 64 - neighbors.length % 2 ^ 64)) % 2 ^ 64)
  if 0 < numAdd then concatenateVectors neighbors (prg.genRandomBlocks randomSeed numAdd)
  else neighbors

/-- `out` in `neighbor`, from the numbers in the file of vertex `idx`. -/
def neighborTable (cfg : PsiConfig) (baxos : ℕ → ℕ → Baxos Seed) (prg : Prg Seed)
    (randomSeed : Seed) (idx : Word) (file : List Word) : List Block :=
  let neighbors := padNeighbors cfg prg randomSeed (u64sToBlocks file)
  let seed := prg.fixedSeed idx.toNat
  let v := prg.genRandomBlocks seed cfg.maxDegree
  (degreeBaxos cfg baxos).solve neighbors v (some seed)

/-- `neighbor`: the bytes it sends. -/
def neighbor (cfg : PsiConfig) (baxos : ℕ → ℕ → Baxos Seed) (prg : Prg Seed) (randomSeed : Seed)
    (idx : Word) (file : List Word) : List Byte :=
  sendMessage idx (neighborTable cfg baxos prg randomSeed idx file)

/-! ## The target -/

/-- `baxos.decode(keys, output, table, threads)` into an output that must have
room for all keys. -/
def Baxos.decodeInto (okvs : Baxos Seed) (keys output table : List Block) :
    Except String (List Block) :=
  if output.length < keys.length then .error "write past the end of the output"
  else .ok (okvs.decode keys output table)

/-- `neighbor_request`, with `seeds i` the fresh seed of row `i`, what the server
finds in its memory and the connections it is offered.  There is no result while the
server waits. -/
def neighborRequest (cfg : PsiConfig) (baxos : ℕ → ℕ → Baxos Seed) (prg : Prg Seed)
    (seeds : ℕ → Seed) (stale : ℕ → BitVec 32) (neighbors : List Block) (pending : List Conn) :
    Option (Except String (List Block)) :=
  let okvs := degreeBaxos cfg baxos
  let size := okvs.outputSize
  match startServer neighbors.length size stale pending with
  | .waits => none
  | .throws => some (.error "the buffer is longer than any vector")
  | .undefined => some (.error "past the range of bytesReceived or of receivedData")
  | .done clientData _ => some do
      let neighborOkvs := neighbors.map fun b => (clientData.lookup b.low).getD []
      let neighborOfNeighbor ← (List.range neighbors.length).mapM fun i =>
        okvs.decodeInto neighbors (prg.genRandomBlocks (seeds i) cfg.maxDegree)
          (neighborOkvs.getD i [])
      return flatten neighborOfNeighbor

/-- The loop of `test_request` over all vertices: the blocks of every vertex's
generator. -/
def vertexBlocks (cfg : PsiConfig) (prg : Prg Seed) : List Block :=
  (List.range cfg.numVertex).flatMap fun i =>
    prg.genRandomBlocks (prg.fixedSeed i) cfg.maxDegree

/-- `_max`, which stands for an option that is not given. -/
def noValue : Word := BitVec.allOnes 64

/-- `test_request`.  Role 1 is the party that asks for a target.  A process for a
neighbour sends what `neighbor` says and has no set.  Without a target and a
neighbour the function ends without a result. -/
def testRequest (cfg : PsiConfig) (baxos : ℕ → ℕ → Baxos Seed) (prg : Prg Seed) (seeds : ℕ → Seed)
    (stale : ℕ → BitVec 32) (role testTarget neighborIdx : Word) (neighbors : List Block)
    (pending : List Conn) : Option (Except String (List Block)) :=
  if testTarget ≠ noValue ∧ role = 1 then
    neighborRequest cfg baxos prg seeds stale neighbors pending
  else if neighborIdx ≠ noValue then some (.ok [])
  else if testTarget ≠ noValue then some (.ok (vertexBlocks cfg prg))
  else none

end Sectric
