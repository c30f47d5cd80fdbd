import Sectric.Bytes
import Sectric.Lib.Loop

/-!
# The OPRF from VOLE and OKVS

The client solves the key-value store for all-zero values, masks the solution
`P` with its VOLE vector `A` and sends it; its outputs are the decodings of its
other VOLE vector `C`.  The server turns its VOLE vector `B` into the key
`B + Δ * (P + A)` and evaluates it by decoding.  Since `C = B + Δ * A`, the key
is `C + Δ * P`, and `P` decodes to zero on the client's keys.

The field `GF(2 ^ 128)`, the store and the VOLE are libraries the program
calls.  They are parameters here, with the laws the program relies on.
-/

namespace Sectric

open Lib

/-! ## The libraries -/

/-- `Baxos<gf_128>`, as far as it is used.  `outputSize` is
`bin_num * total_size`, and `solve` fills a vector of that length. -/
structure Baxos (Seed : Type) where
  outputSize : ℕ
  seed : Seed
  solveUnder : Seed → List Block → List Block → Option Seed → List Block
  decodeUnder : Seed → List Block → Block → Block
  length_solveUnder : ∀ s keys values prng, (solveUnder s keys values prng).length = outputSize

namespace Baxos

variable {Seed : Type} (okvs : Baxos Seed)

/-- `okvs.seed = seed`. -/
def reseed (seed : Seed) : Baxos Seed := { okvs with seed := seed }

/-- `okvs.solve(keys, values, P, prng, threads)`. -/
def solve (keys values : List Block) (prng : Option Seed) : List Block :=
  okvs.solveUnder okvs.seed keys values prng

/-- The value at one key. -/
def decodeKey (table : List Block) (key : Block) : Block := okvs.decodeUnder okvs.seed table key

/-- `okvs.decode(keys, output, table, threads)`: cell `i` of the output gets
the value at key `i`, and cells past the keys keep their content. -/
def decode (keys output table : List Block) : List Block :=
  output.mapIdx fun i old => (keys[i]?.map (okvs.decodeKey table)).getD old

@[simp] theorem length_solve (keys values : List Block) (prng : Option Seed) :
    (okvs.solve keys values prng).length = okvs.outputSize :=
  okvs.length_solveUnder ..

@[simp] theorem length_decode (keys output table : List Block) :
    (okvs.decode keys output table).length = output.length := by
  simp [decode]

theorem getElem?_decode {keys output table : List Block} {i : ℕ} {key : Block}
    (hroom : keys.length ≤ output.length) (hkey : keys[i]? = some key) :
    (okvs.decode keys output table)[i]? = some (okvs.decodeKey table key) := by
  obtain ⟨hi, _⟩ := List.getElem?_eq_some_iff.mp hkey
  have hcell : i < output.length := by omega
  rw [decode, List.getElem?_mapIdx, List.getElem?_eq_getElem hcell, hkey]
  rfl

end Baxos

/-- Multiplication distributes over the sum of `GF(2 ^ 128)` on both sides. -/
structure Bilinear (mul : Block → Block → Block) : Prop where
  xor_left : ∀ a b c, mul (a ^^^ b) c = mul a c ^^^ mul b c
  xor_right : ∀ a b c, mul a (b ^^^ c) = mul a b ^^^ mul a c

theorem Bilinear.zero_right {mul : Block → Block → Block} (h : Bilinear mul) (a : Block) :
    mul a 0 = 0 := by
  have hdouble := h.xor_right a 0 0
  rw [BitVec.xor_self] at hdouble
  simpa using hdouble

/-- Decoding is linear in the table: it commutes with sums and with scaling. -/
structure LinearDecode {Seed : Type} (mul : Block → Block → Block) (okvs : Baxos Seed) : Prop where
  xor : ∀ P Q key, P.length = okvs.outputSize → Q.length = okvs.outputSize →
    okvs.decodeKey (List.zipWith (· ^^^ ·) P Q) key = okvs.decodeKey P key ^^^ okvs.decodeKey Q key
  scale : ∀ d P key, P.length = okvs.outputSize →
    okvs.decodeKey (P.map (mul d)) key = mul d (okvs.decodeKey P key)

/-- What a VOLE of length `size` hands out: `A` and `C` to the client, `B` to
the server, with `C = B + Δ * A`. -/
structure VoleCorrelated (mul : Block → Block → Block) (size : ℕ) (Δ : Block)
    (A B C : List Block) : Prop where
  length_A : A.length = size
  length_B : B.length = size
  correlation : C = List.zipWith (fun b a => b ^^^ mul Δ a) B A

/-! ## The key as bytes -/

/-- `BlockToByte`.  The offset `i*16` is an `int`.  Where it has no place in the
type the copy is not defined; the bytes stay as the vector was made. -/
def blockToByte (vec : List Block) : List Byte :=
  (List.range vec.length).flatMap fun i =>
    if i * 16 < 2 ^ 31 then (vec.getD i 0).toBytes else List.replicate 16 0

/-- `ByteToBlock`, with the same offset. -/
def byteToBlock (matrixx : List Byte) : List Block :=
  (List.range (matrixx.length / 16)).map fun i =>
    if i * 16 < 2 ^ 31 then Block.ofBytes ((matrixx.drop (i * 16)).take 16) else 0

/-- The blocks with an offset in `int`, zero behind them. -/
def addressable (vec : List Block) : List Block :=
  vec.mapIdx fun i b => if i * 16 < 2 ^ 31 then b else 0

theorem addressable_of_le {vec : List Block} (h : vec.length ≤ 2 ^ 27) : addressable vec = vec := by
  apply List.ext_getElem
  · exact List.length_mapIdx
  · intro i _ hi
    have hlt : i * 16 < 2 ^ 31 := by omega
    simp only [addressable, List.getElem_mapIdx, if_pos hlt]

theorem blockToByte_eq (vec : List Block) : blockToByte vec = blocksToBytes (addressable vec) := by
  have hzero : (0 : Block).toBytes = List.replicate 16 0 := by decide
  have hcells : addressable vec =
      (List.range vec.length).map fun i => if i * 16 < 2 ^ 31 then vec.getD i 0 else 0 := by
    apply List.ext_getElem
    · simp [addressable]
    · intro i hi _
      rw [addressable, List.length_mapIdx] at hi
      simp [addressable, List.getD_eq_getElem?_getD, hi]
  rw [hcells, blocksToBytes, List.flatMap_map, blockToByte]
  congr 1
  funext i
  rw [apply_ite Block.toBytes, hzero]

theorem byteToBlock_eq (matrixx : List Byte) :
    byteToBlock matrixx = addressable (bytesToBlocks matrixx) := by
  apply List.ext_getElem
  · simp [byteToBlock, addressable, bytesToBlocks]
  · intro i _ _
    simp [byteToBlock, addressable, bytesToBlocks]

/-- Of the key the conversions keep the blocks with an offset in `int`. -/
theorem byteToBlock_blockToByte (vec : List Block) :
    byteToBlock (blockToByte vec) = addressable vec := by
  rw [byteToBlock_eq, blockToByte_eq, bytesToBlocks_blocksToBytes]
  apply List.ext_getElem
  · simp [addressable]
  · intro i _ _
    simp only [addressable, List.getElem_mapIdx]
    split <;> rfl

/-! ## The two parties -/

/-- `VOLEOPRF::PP`, as far as the two parties use it. -/
structure PP (Seed : Type) where
  inputNum : ℕ
  okvs : Baxos Seed
  Delta : Block

/-- `okvs_output_size`. -/
def PP.okvsOutputSize {Seed : Type} (pp : PP Seed) : ℕ := pp.okvs.outputSize

/-- The literals `1` and `1ull`. -/
inductive One where
  | int
  | ull

/-- The bits of the literal's type. -/
def One.width : One → ℕ
  | .int => 32
  | .ull => 64

/-- The literal shifted to the left, as a `uint64_t`.  By the width or more a shift
is not defined; the hardware takes the low bits of the amount.  A negative `int`
is extended by its sign. -/
def One.shift : One → ℕ → ℕ
  | .int, amount => ((BitVec.ofNat 32 (2 ^ (amount % 32))).signExtend 64).toNat
  | .ull, amount => 2 ^ (amount % 64)

/-- `VOLEOPRF::Setup`.  `baxos n b` is `Baxos<gf_128>(n, b, 3)`.  The difference
in the second size is one of 64-bit numbers. -/
def setup {Seed : Type} (baxos : ℕ → ℕ → Baxos Seed) (logInputNum : ℕ) : PP Seed where
  inputNum := One.ull.shift logInputNum
  okvs := baxos (One.ull.shift logInputNum)
    (One.ull.shift (max 8 ((logInputNum + (2 ^ 64 - 7)) % 2 ^ 64)))
  Delta := 0

/-- The client's two loops: `P[i] ^= A[i]`, eight cells a round and then the
rest one by one. -/
def maskWith (A P : List Block) (size : ℕ) : List Block :=
  let change : ℕ → Block → Block := fun i p => p ^^^ A.getD i 0
  let (i, P) := forLoop (fun i => decide (i + 8 ≤ size)) (· + 8)
    (fun P i => modifyAll (i + ·) (fun k => change (i + k)) (List.range 8) P) size 0 P
  (forLoop (fun i => decide (i < size)) (· + 1) (fun P i => P.modify i (change i)) size i P).2

/-- What `Client1` sends, and what it returns. -/
structure ClientRun where
  seedR : Block
  masked : List Block
  output : List Block

/-- `VOLEOPRF::Client1`.  `A` and `C` are the VOLE's two outputs, and `setSeed`
is `PRG::SetSeed(&seed_r, 0)`. -/
def client1 {Seed : Type} (setSeed : Block → Seed) (pp : PP Seed) (vecX : List Block)
    (itemNum : ℕ) (seedR : Block) (A C : List Block) : ClientRun :=
  let okvs := pp.okvs.reseed (setSeed seedR)
  let size := pp.okvsOutputSize
  let vecZero := List.replicate itemNum (0 : Block)
  let P := okvs.solve vecX vecZero none
  { seedR := seedR
    masked := maskWith A P size
    output := okvs.decode vecX (List.replicate itemNum 0) C }

/-- `K`, `K_pointer - K.data()` and `P_pointer - A.data()`. -/
structure KeyLoop where
  K : List Block
  kPointer : ℕ
  pPointer : ℕ

/-- One round: `width` cells at the pointers, which then move on. -/
def KeyLoop.round (mul : Block → Block → Block) (Δ : Block) (P : List Block) (width : ℕ)
    (s : KeyLoop) : KeyLoop where
  K := modifyAll (s.kPointer + ·) (fun k key => key ^^^ mul Δ (P.getD (s.pPointer + k) 0))
    (List.range width) s.K
  kPointer := s.kPointer + width
  pPointer := s.pPointer + width

/-- The server's two loops: `K_pointer[k] ^= gf128_mul(Delta, P_pointer[k])`. -/
def keyWith (mul : Block → Block → Block) (Δ : Block) (P K : List Block) (size : ℕ) :
    List Block :=
  let (i, s) := forLoop (fun i => decide (i + 8 ≤ size)) (· + 8)
    (fun (s : KeyLoop) _ => s.round mul Δ P 8) size 0 { K := K, kPointer := 0, pPointer := 0 }
  (forLoop (fun i => decide (i < size)) (· + 1) (fun (s : KeyLoop) _ => s.round mul Δ P 1)
    size i s).2.K

/-- `VOLEOPRF::Server1`: the parameters with their new seed and `Delta`, and
the key.  `K` is the VOLE's output, `seedR` and `P` are received. -/
def server1 {Seed : Type} (setSeed : Block → Seed) (mul : Block → Block → Block) (pp : PP Seed)
    (Δ : Block) (K : List Block) (seedR : Block) (P : List Block) : PP Seed × List Byte :=
  let size := pp.okvsOutputSize
  ({ pp with Delta := Δ, okvs := pp.okvs.reseed (setSeed seedR) },
    blockToByte (keyWith mul Δ P K size))

/-- `VOLEOPRF::Evaluate1`. -/
def evaluate1 {Seed : Type} (pp : PP Seed) (oprfKey : List Byte) (vecY : List Block)
    (itemNum : ℕ) : List Block :=
  pp.okvs.decode vecY (List.replicate itemNum 0) (byteToBlock oprfKey)

theorem decode_eq_map {Seed : Type} (okvs : Baxos Seed) (keys table : List Block) :
    okvs.decode keys (List.replicate keys.length 0) table = keys.map (okvs.decodeKey table) := by
  apply List.ext_getElem?
  intro p
  rcases Nat.lt_or_ge p keys.length with hp | hp
  · rw [okvs.getElem?_decode (by rw [List.length_replicate]) (List.getElem?_eq_getElem hp),
      List.getElem?_map, List.getElem?_eq_getElem hp]
    rfl
  · rw [List.getElem?_eq_none (by rwa [Baxos.length_decode, List.length_replicate]),
      List.getElem?_eq_none (by rwa [List.length_map])]

/-- `Evaluate1` on all its keys. -/
theorem evaluate1_eq_map {Seed : Type} (pp : PP Seed) (oprfKey : List Byte) (vecY : List Block) :
    evaluate1 pp oprfKey vecY vecY.length =
      vecY.map (pp.okvs.decodeKey (byteToBlock oprfKey)) :=
  decode_eq_map ..

/-! ## The loops visit every cell once -/

theorem mapIdx_getD_eq_zipWith {f : Block → Block → Block} {xs ys : List Block}
    (hlen : xs.length = ys.length) :
    xs.mapIdx (fun i x => f x (ys.getD i 0)) = List.zipWith f xs ys := by
  apply List.ext_getElem
  · simp [hlen]
  · intro i hi _
    rw [List.length_mapIdx] at hi
    rw [List.getElem_mapIdx, List.getElem_zipWith, List.getD_eq_getElem?_getD,
      List.getElem?_eq_getElem (hlen ▸ hi), Option.getD_some]

theorem maskWith_eq {A P : List Block} {size : ℕ} (hA : A.length = size) (hP : P.length = size) :
    maskWith A P size = List.zipWith (· ^^^ ·) P A := by
  rw [maskWith]
  simp only [forLoop_eq]
  rw [foldl_modifyAll_shift (fun i p => p ^^^ A.getD i 0)]
  change modifyAll id _ _ (modifyAll id _ _ P) = _
  rw [← modifyAll_append, unrolled_eq_range (by decide), ← hP, modifyAll_range]
  exact mapIdx_getD_eq_zipWith (hP.trans hA.symm)

/-- The pointers stay in step with the variable, so a loop of rounds updates
the cells its rounds cover. -/
theorem forLoop_round (mul : Block → Block → Block) (Δ : Block) (P : List Block) (width : ℕ)
    (cond : ℕ → Bool) :
    ∀ fuel i K, forLoop cond (· + width) (fun s _ => KeyLoop.round mul Δ P width s) fuel i
        { K := K, kPointer := i, pPointer := i } =
      (loopEnd cond (· + width) fuel i,
        { K := modifyAll id (fun i key => key ^^^ mul Δ (P.getD i 0))
            ((loopValues cond (· + width) fuel i).flatMap
              fun i => (List.range width).map (i + ·)) K
          kPointer := loopEnd cond (· + width) fuel i
          pPointer := loopEnd cond (· + width) fuel i })
  | 0, _, _ => rfl
  | fuel + 1, i, K => by
      rw [forLoop, loopEnd, loopValues]
      split
      · rw [KeyLoop.round, forLoop_round mul Δ P width cond fuel, List.flatMap_cons,
          modifyAll_append]
        congr 3
        rw [modifyAll, modifyAll, List.foldl_map]
        rfl
      · rfl

theorem keyWith_eq {mul : Block → Block → Block} {Δ : Block} {P K : List Block} {size : ℕ}
    (hP : P.length = size) (hK : K.length = size) :
    keyWith mul Δ P K size = List.zipWith (fun k p => k ^^^ mul Δ p) K P := by
  have hone : ∀ is : List ℕ, (is.flatMap fun i => (List.range 1).map (i + ·)) = is := by
    intro is
    simp
  rw [keyWith]
  simp only [forLoop_round]
  rw [← modifyAll_append, hone, unrolled_eq_range (by decide), ← hK, modifyAll_range]
  exact mapIdx_getD_eq_zipWith (f := fun k p => k ^^^ mul Δ p) (hK.trans hP.symm)

/-! ## Agreement -/

/-- The server's key is the client's vector `C` plus `Δ * P`. -/
theorem VoleCorrelated.key {mul : Block → Block → Block} {size : ℕ} {Δ : Block}
    {A B C P : List Block} (hmul : Bilinear mul) (h : VoleCorrelated mul size Δ A B C)
    (hP : P.length = size) :
    List.zipWith (fun k p => k ^^^ mul Δ p) B (List.zipWith (· ^^^ ·) P A) =
      List.zipWith (· ^^^ ·) C (P.map (mul Δ)) := by
  have hA := h.length_A
  have hB := h.length_B
  rw [h.correlation]
  apply List.ext_getElem
  · simp only [List.length_zipWith, List.length_map]
    omega
  · intro i _ _
    simp only [List.getElem_zipWith, List.getElem_map, hmul.xor_right]
    exact (congrArg _ (BitVec.xor_comm ..)).trans (BitVec.xor_assoc ..).symm

section Agreement

variable {Seed : Type} (setSeed : Block → Seed) (mul : Block → Block → Block) (pp : PP Seed)
  (vecX : List Block) (itemNumX : ℕ) (seedR Δ : Block) (A B C P : List Block)
  (hmul : Bilinear mul) (hvole : VoleCorrelated mul pp.okvsOutputSize Δ A B C)
  (hlinear : LinearDecode mul (pp.okvs.reseed (setSeed seedR)))
  (hP : P = (pp.okvs.reseed (setSeed seedR)).solve vecX (List.replicate itemNumX 0) none)

include hvole hP

/-- The key the server derives from the client's message. -/
theorem server1_key :
    byteToBlock (server1 setSeed mul pp Δ B seedR
        (client1 setSeed pp vecX itemNumX seedR A C).masked).2 =
      addressable (List.zipWith (fun b p => b ^^^ mul Δ p) B (List.zipWith (· ^^^ ·) P A)) := by
  have hlenP : P.length = pp.okvsOutputSize := by
    rw [hP]
    exact Baxos.length_solve ..
  have hmasked : (client1 setSeed pp vecX itemNumX seedR A C).masked =
      List.zipWith (· ^^^ ·) P A := by
    rw [hP] at hlenP ⊢
    exact maskWith_eq hvole.length_A hlenP
  have hlenMasked : (client1 setSeed pp vecX itemNumX seedR A C).masked.length =
      pp.okvsOutputSize := by
    rw [hmasked, List.length_zipWith, hvole.length_A, hlenP, Nat.min_self]
  rw [← hmasked]
  change byteToBlock (blockToByte (keyWith mul Δ _ B pp.okvsOutputSize)) = _
  rw [byteToBlock_blockToByte, keyWith_eq hlenMasked hvole.length_B]

/-- Every block of the key has its offset in `int` if the key has no more than
`2 ^ 27` of them. -/
theorem server1_key_of_le (hsize : pp.okvsOutputSize ≤ 2 ^ 27) :
    byteToBlock (server1 setSeed mul pp Δ B seedR
        (client1 setSeed pp vecX itemNumX seedR A C).masked).2 =
      List.zipWith (fun b p => b ^^^ mul Δ p) B (List.zipWith (· ^^^ ·) P A) := by
  rw [server1_key setSeed mul pp vecX itemNumX seedR Δ A B C P hvole hP, addressable_of_le]
  refine (List.length_zipWith.trans_le (min_le_left _ _)).trans ?_
  rwa [hvole.length_B]

include hmul hlinear

/-- Under the server's key a key of the client decodes as under `C`: the part
`Δ * P` vanishes there. -/
theorem decodeKey_server1_key {x : Block}
    (hzero : (pp.okvs.reseed (setSeed seedR)).decodeKey P x = 0) :
    (pp.okvs.reseed (setSeed seedR)).decodeKey
        (List.zipWith (fun b p => b ^^^ mul Δ p) B (List.zipWith (· ^^^ ·) P A)) x =
      (pp.okvs.reseed (setSeed seedR)).decodeKey C x := by
  have hlenP : P.length = pp.okvsOutputSize := by
    rw [hP]
    exact Baxos.length_solve ..
  have hlenC : C.length = pp.okvsOutputSize := by
    rw [hvole.correlation, List.length_zipWith, hvole.length_A, hvole.length_B, Nat.min_self]
  rw [hvole.key hmul hlenP, hlinear.xor _ _ _ hlenC (by rwa [List.length_map]),
    hlinear.scale _ _ _ hlenP, hzero, hmul.zero_right]
  exact BitVec.xor_zero

/-- The client's value at a key of its list is the server's value there under
the key the server derived from the client's message: both are
`decode(C, x) = decode(B ^ Δ * (P ^ A), x)`. -/
theorem client1_output_eq_evaluate1 (vecY : List Block) (itemNumY : ℕ)
    (hsize : pp.okvsOutputSize ≤ 2 ^ 27)
    (hsolve : ∀ x, x ∈ vecX → (pp.okvs.reseed (setSeed seedR)).decodeKey P x = 0)
    (hroomX : vecX.length ≤ itemNumX) (hroomY : vecY.length ≤ itemNumY)
    {x : Block} {i j : ℕ} (hi : vecX[i]? = some x) (hj : vecY[j]? = some x) :
    let client := client1 setSeed pp vecX itemNumX seedR A C
    let server := server1 setSeed mul pp Δ B client.seedR client.masked
    let okvs := pp.okvs.reseed (setSeed seedR)
    client.output[i]? = some (okvs.decodeKey C x) ∧
      (evaluate1 server.1 server.2 vecY itemNumY)[j]? = client.output[i]? ∧
      okvs.decodeKey C x = okvs.decodeKey
        (List.zipWith (fun b p => b ^^^ mul Δ p) B (List.zipWith (· ^^^ ·) P A)) x := by
  intro client server okvs
  have hclient : client.output[i]? = some (okvs.decodeKey C x) :=
    okvs.getElem?_decode (by simpa using hroomX) hi
  have hkey : byteToBlock server.2 =
      List.zipWith (fun b p => b ^^^ mul Δ p) B (List.zipWith (· ^^^ ·) P A) :=
    server1_key_of_le setSeed mul pp vecX itemNumX seedR Δ A B C P hvole hP hsize
  have hdecode : okvs.decodeKey (List.zipWith (fun b p => b ^^^ mul Δ p) B
      (List.zipWith (· ^^^ ·) P A)) x = okvs.decodeKey C x :=
    decodeKey_server1_key setSeed mul pp vecX itemNumX seedR Δ A B C P hmul hvole hlinear hP
      (hsolve x (List.mem_of_getElem? hi))
  have hserver : (evaluate1 server.1 server.2 vecY itemNumY)[j]? =
      some (okvs.decodeKey (byteToBlock server.2) x) :=
    okvs.getElem?_decode (by simpa using hroomY) hj
  exact ⟨hclient, by rw [hserver, hclient, hkey, hdecode], hdecode.symm⟩

end Agreement

/-- On stores of `n` blocks the outputs of the two parties agree at every key that
both have, whatever the libraries, the lists and what is drawn. -/
def OprfAgreement (n : ℕ) : Prop :=
  ∀ (Seed : Type) (setSeed : Block → Seed) (mul : Block → Block → Block) (pp : PP Seed)
    (vecX : List Block) (itemNumX : ℕ) (seedR Δ : Block) (A B C P : List Block),
    pp.okvsOutputSize = n → Bilinear mul → VoleCorrelated mul n Δ A B C →
    LinearDecode mul (pp.okvs.reseed (setSeed seedR)) →
    P = (pp.okvs.reseed (setSeed seedR)).solve vecX (List.replicate itemNumX 0) none →
    (∀ x, x ∈ vecX → (pp.okvs.reseed (setSeed seedR)).decodeKey P x = 0) →
    vecX.length ≤ itemNumX →
    ∀ (vecY : List Block) (itemNumY : ℕ), vecY.length ≤ itemNumY →
    ∀ (x : Block) (i j : ℕ), vecX[i]? = some x → vecY[j]? = some x →
      let client := client1 setSeed pp vecX itemNumX seedR A C
      let server := server1 setSeed mul pp Δ B client.seedR client.masked
      let okvs := pp.okvs.reseed (setSeed seedR)
      client.output[i]? = some (okvs.decodeKey C x) ∧
        (evaluate1 server.1 server.2 vecY itemNumY)[j]? = client.output[i]? ∧
        okvs.decodeKey C x = okvs.decodeKey
          (List.zipWith (fun b p => b ^^^ mul Δ p) B (List.zipWith (· ^^^ ·) P A)) x

/-! ## An instance -/

/-- Multiplication by `x` modulo `x ^ 128 + x ^ 7 + x ^ 2 + x + 1`. -/
def mulX (b : Block) : Block := b <<< 1 ^^^ if b.msb then 0x87#128 else 0#128

/-- Carry-less multiplication modulo that polynomial, by Horner's rule over the
bits of `a`. -/
def carrylessMul (a b : Block) : Block :=
  (List.range 128).foldr (fun i acc => mulX acc ^^^ if a.getLsbD i then b else 0#128) 0#128

theorem xor_exchange (a b c d : Block) : a ^^^ b ^^^ (c ^^^ d) = a ^^^ c ^^^ (b ^^^ d) := by
  rw [BitVec.xor_assoc, BitVec.xor_assoc, ← BitVec.xor_assoc b, BitVec.xor_comm b c,
    BitVec.xor_assoc]

theorem mulX_xor (a b : Block) : mulX (a ^^^ b) = mulX a ^^^ mulX b := by
  rw [mulX, mulX, mulX, BitVec.shiftLeft_xor_distrib, BitVec.msb_xor, xor_exchange]
  congr 1
  cases a.msb <;> cases b.msb <;> simp

/-- Horner's rule on sums of coefficients. -/
theorem foldr_mulX_xor (f g : ℕ → Block) (bits : List ℕ) :
    bits.foldr (fun i acc => mulX acc ^^^ (f i ^^^ g i)) 0#128 =
      bits.foldr (fun i acc => mulX acc ^^^ f i) 0#128 ^^^
        bits.foldr (fun i acc => mulX acc ^^^ g i) 0#128 := by
  induction bits with
  | nil => simp
  | cons i bits ih =>
      simp only [List.foldr_cons]
      rw [ih, mulX_xor, xor_exchange]

theorem carrylessMul_bilinear : Bilinear carrylessMul where
  xor_left a b c := by
    rw [carrylessMul, carrylessMul, carrylessMul, ← foldr_mulX_xor]
    congr 1
    funext i acc
    rw [BitVec.getLsbD_xor]
    cases a.getLsbD i <;> cases b.getLsbD i <;> simp
  xor_right a b c := by
    rw [carrylessMul, carrylessMul, carrylessMul, ← foldr_mulX_xor]
    congr 1
    funext i acc
    cases a.getLsbD i <;> simp

/-- A store with nine cells that decodes a key as the sum of the first cell and
the one its value and the seed select. -/
def nineCells : Baxos Block where
  outputSize := 9
  seed := 0
  solveUnder _ _ _ _ := List.replicate 9 0
  decodeUnder seed table key :=
    table.getD 0 0 ^^^ table.getD ((key ^^^ seed).toNat % 9) 0
  length_solveUnder _ _ _ _ := rfl

theorem getD_zipWith_xor {P Q : List Block} {i : ℕ} (hP : i < P.length) (hQ : i < Q.length) :
    (List.zipWith (· ^^^ ·) P Q).getD i 0 = P.getD i 0 ^^^ Q.getD i 0 := by
  simp [List.getD_eq_getElem?_getD, hP, hQ]

theorem nineCells_linear (seed : Block) : LinearDecode carrylessMul (nineCells.reseed seed) where
  xor P Q key hP hQ := by
    have hlt : (key ^^^ seed).toNat % 9 < 9 := Nat.mod_lt _ (by decide)
    change P.length = 9 at hP
    change Q.length = 9 at hQ
    simp only [Baxos.decodeKey, Baxos.reseed, nineCells]
    rw [getD_zipWith_xor (by omega) (by omega), getD_zipWith_xor (by omega) (by omega),
      xor_exchange]
  scale d P key hP := by
    have hlt : (key ^^^ seed).toNat % 9 < 9 := Nat.mod_lt _ (by decide)
    change P.length = 9 at hP
    have hget : ∀ i, i < 9 → (P.map (carrylessMul d)).getD i 0 = carrylessMul d (P.getD i 0) := by
      intro i hi
      simp [List.getD_eq_getElem?_getD, hP, hi]
    simp only [Baxos.decodeKey, Baxos.reseed, nineCells]
    rw [hget _ (by omega), hget _ hlt, ← carrylessMul_bilinear.xor_right]

theorem nineCells_zero (seed key : Block) :
    (nineCells.reseed seed).decodeKey (List.replicate 9 0) key = 0 := by
  have hget : ∀ i, (List.replicate 9 (0 : Block)).getD i 0 = 0 := by
    intro i
    rw [List.getD_eq_getElem?_getD, List.getElem?_replicate]
    split <;> rfl
  simp only [Baxos.decodeKey, Baxos.reseed, nineCells]
  rw [hget, hget]
  rfl

/-- The parameters with the nine-cell store. -/
def ninePP : PP Block where
  inputNum := 2
  okvs := nineCells
  Delta := 0

/-- A VOLE of length nine: one unrolled round and one remaining cell. -/
def nineA : List Block := [3, 1, 4, 1, 5, 9, 2, 6, 5]

@[inherit_doc nineA]
def nineB : List Block := [2, 7, 1, 8, 2, 8, 1, 8, 2]

@[inherit_doc nineA]
def nineC : List Block := List.zipWith (fun b a => b ^^^ carrylessMul 11 a) nineB nineA

/-! ## Stores that decode to their last block -/

/-- A store of `n` blocks that decodes every key to the last of them. -/
def lastCell (n : ℕ) : Baxos Block where
  outputSize := n
  seed := 0
  solveUnder _ _ _ _ := List.replicate n 0
  decodeUnder _ table _ := table.getD (n - 1) 0
  length_solveUnder _ _ _ _ := List.length_replicate

theorem decodeKey_lastCell (n : ℕ) (seed : Block) (table : List Block) (key : Block) :
    ((lastCell n).reseed seed).decodeKey table key = table.getD (n - 1) 0 := rfl

theorem lastCell_linear {n : ℕ} (hn : 0 < n) (seed : Block) :
    LinearDecode carrylessMul ((lastCell n).reseed seed) where
  xor P Q key hP hQ := by
    change P.length = n at hP
    change Q.length = n at hQ
    exact getD_zipWith_xor (by omega) (by omega)
  scale d P key hP := by
    change P.length = n at hP
    have hlt : n - 1 < P.length := by omega
    simp [decodeKey_lastCell, List.getD_eq_getElem?_getD, hlt]

/-- The parameters with such a store. -/
def lastPP (n : ℕ) : PP Block where
  inputNum := 1
  okvs := lastCell n
  Delta := 0

/-- A VOLE under `Delta = 0`. -/
theorem voleCorrelated_replicate (n : ℕ) :
    VoleCorrelated carrylessMul n 0 (List.replicate n 0) (List.replicate n 1)
      (List.replicate n 1) where
  length_A := List.length_replicate
  length_B := List.length_replicate
  correlation := by
    rw [List.zipWith_replicate', carrylessMul_bilinear.zero_right]
    exact congrArg (List.replicate n) BitVec.xor_zero.symm

theorem getD_addressable_of_lt {vec : List Block} {i : ℕ} (hi : 2 ^ 27 ≤ i) :
    (addressable vec).getD i 0 = 0 := by
  have hlt : ¬ i * 16 < 2 ^ 31 := by omega
  rw [List.getD_eq_getElem?_getD, addressable, List.getElem?_mapIdx]
  rcases vec[i]? with _ | b
  · rfl
  · exact if_neg hlt

/-- What the two parties get at the key 0, the client with its vector `C` and the
server under a key that has lost its last block. -/
theorem outputs_lastCell {n : ℕ} (hn : 2 ^ 27 < n) :
    let client := client1 id (lastPP n) [0] 1 0 (List.replicate n 0) (List.replicate n 1)
    let server := server1 id carrylessMul (lastPP n) 0 (List.replicate n 1) client.seedR
      client.masked
    client.output[0]? = some 1 ∧ (evaluate1 server.1 server.2 [0] 1)[0]? = some 0 := by
  intro client server
  have hkey : byteToBlock server.2 = _ := server1_key id carrylessMul (lastPP n) [0] 1 0 0
    (List.replicate n 0) (List.replicate n 1) (List.replicate n 1) _ (voleCorrelated_replicate n)
    rfl
  have hone : (List.replicate n (1 : Block)).getD (n - 1) 0 = 1 := by
    have hlt : n - 1 < n := by omega
    simp [List.getD_eq_getElem?_getD, hlt]
  have hlost : (byteToBlock server.2).getD (n - 1) 0 = 0 := by
    rw [hkey]
    exact getD_addressable_of_lt (by omega)
  have hclient : client.output[0]? = some ((List.replicate n (1 : Block)).getD (n - 1) 0) :=
    ((lastCell n).reseed 0).getElem?_decode le_rfl rfl
  have hserver : (evaluate1 server.1 server.2 [0] 1)[0]? =
      some ((byteToBlock server.2).getD (n - 1) 0) :=
    ((lastCell n).reseed 0).getElem?_decode le_rfl rfl
  exact ⟨by rw [hclient, hone], by rw [hserver, hlost]⟩

/-- The last block of a longer key is lost. -/
theorem not_oprfAgreement {n : ℕ} (hn : 2 ^ 27 < n) : ¬ OprfAgreement n := by
  intro hagree
  have hzero : (List.replicate n (0 : Block)).getD (n - 1) 0 = 0 := by
    rw [List.getD_eq_getElem?_getD, List.getElem?_replicate]
    split <;> rfl
  obtain ⟨-, hserver, -⟩ := hagree Block id carrylessMul (lastPP n) [0] 1 0 0
    (List.replicate n 0) (List.replicate n 1) (List.replicate n 1) (List.replicate n 0) rfl
    carrylessMul_bilinear (voleCorrelated_replicate n) (lastCell_linear (by omega) 0) rfl
    (fun _ _ => hzero) le_rfl [0] 1 le_rfl 0 0 0 rfl rfl
  have houtputs := outputs_lastCell hn
  have hne : (0 : Block) ≠ 1 := by decide
  exact hne (Option.some.inj (houtputs.2.symm.trans (hserver.trans houtputs.1)))

/-- The two parties agree on stores of up to `2 ^ 27` blocks, and on these only. -/
theorem client1_agrees_with_evaluate1_iff (n : ℕ) : OprfAgreement n ↔ n ≤ 2 ^ 27 := by
  constructor
  · intro hagree
    by_contra hn
    exact not_oprfAgreement (Nat.lt_of_not_le hn) hagree
  · rintro hn Seed setSeed mul pp vecX itemNumX seedR Δ A B C P rfl hmul hvole hlinear hP hsolve
      hroomX vecY itemNumY hroomY x i j hi hj
    exact client1_output_eq_evaluate1 setSeed mul pp vecX itemNumX seedR Δ A B C P hmul hvole
      hlinear hP vecY itemNumY hn hsolve hroomX hroomY hi hj

/-- With one block more than the offsets reach the client gets 1 at the key 0, and
the server 0. -/
theorem client1_differs_from_evaluate1 :
    let client := client1 id (lastPP (2 ^ 27 + 1)) [0] 1 0 (List.replicate (2 ^ 27 + 1) 0)
      (List.replicate (2 ^ 27 + 1) 1)
    let server := server1 id carrylessMul (lastPP (2 ^ 27 + 1)) 0 (List.replicate (2 ^ 27 + 1) 1)
      client.seedR client.masked
    client.output[0]? = some 1 ∧ (evaluate1 server.1 server.2 [0] 1)[0]? = some 0 ∧
      ¬ OprfAgreement (2 ^ 27 + 1) :=
  have hn := Nat.lt_succ_self (2 ^ 27)
  ⟨(outputs_lastCell hn).1, (outputs_lastCell hn).2, not_oprfAgreement hn⟩

theorem client1_agrees_on_nineCells :
    let client := client1 id ninePP [5, 12] 2 6 nineA nineC
    let server := server1 id carrylessMul ninePP 11 nineB client.seedR client.masked
    (evaluate1 server.1 server.2 [7, 12, 5] 3)[1]? = client.output[1]? := by
  have hvole : VoleCorrelated carrylessMul ninePP.okvsOutputSize 11 nineA nineB nineC :=
    ⟨rfl, rfl, rfl⟩
  exact ((client1_agrees_with_evaluate1_iff 9).mpr (by decide) Block id carrylessMul ninePP
    [5, 12] 2 6 11 nineA nineB nineC _ rfl carrylessMul_bilinear hvole (nineCells_linear 6) rfl
    (fun x _ => nineCells_zero 6 x) (by decide) [7, 12, 5] 3 (by decide) 12 1 1 rfl rfl).2.1

end Sectric
