import Sectric.Psi.Stash

/-!
# A session on the program's own sub-protocols

The OPRF of the run is `Client1` against `Server1` and `Evaluate1`, and the
equality test is `perform_block_equality`.  What is left are the libraries: the
generator, the key-value store, the field, the VOLE, the triples and the
transfers.
-/

namespace Sectric

variable {Seed : Type}

/-- The libraries of a session.  `baxos n b` is `Baxos<gf_128>(n, b, 3)`,
`setSeed` is `PRG::SetSeed(&block, 0)`, and `wan` tells the `WAN_EXEC` build.
`radix` is that of the context, and `otpack radix tid` the pack made for it. -/
structure Libraries (Seed : Type) where
  baxos : ℕ → ℕ → Baxos Seed
  setSeed : Block → Seed
  gf128Mul : Block → Block → Block
  wan : Bool
  packing : BitPacking
  radix : ℕ
  otpack : ℕ → ℕ → OtPack
  iknpOt : List Block → List Block → List Byte → List Block

/-- What the parties and the libraries draw in a session: besides the randomness
of the exchange the client's seed, the server's `Delta`, the outputs of the VOLE,
and the masks and triples of an equality test of a given size. -/
structure SessionRandomness (Seed : Type) extends PsiRandomness Seed where
  seedR : Block
  Delta : Block
  A : List Block
  B : List Block
  C : List Block
  equality : ℕ → BlockEqualityRandomness

section Session

variable (cfg : PsiConfig) (lib : Libraries Seed) (random : SessionRandomness Seed)

/-- `VOLEOPRF::Setup(num1 + 1)`. -/
def Libraries.pp : PP Seed := setup lib.baxos (cfg.num1 + 1)

/-- `Client1` on the receiver's keys. -/
def Libraries.client (ck : List Block) : ClientRun :=
  client1 lib.setSeed (lib.pp cfg) ck (lib.pp cfg).inputNum random.seedR random.A random.C

/-- `Server1` on what the client sends. -/
def Libraries.server (client : ClientRun) : PP Seed × List Byte :=
  server1 lib.setSeed lib.gf128Mul (lib.pp cfg) random.Delta random.B client.seedR client.masked

/-- The sub-protocols of a session, with sizes of the given type. -/
def Libraries.subprotocols (sizes : SizeType) : Subprotocols Seed where
  baxos := lib.baxos
  oprf ck keys :=
    let client := lib.client cfg random ck
    let server := lib.server cfg random client
    (client.output, evaluate1 server.1 server.2 keys keys.length)
  blockEquality inputs inputs' :=
    performBlockEquality sizes lib.wan lib.packing lib.otpack lib.radix
      (random.equality inputs.length) inputs inputs'
  iknpOt := lib.iknpOt

/-- The function both parties evaluate in the OPRF. -/
def Libraries.oprfValue (ck : List Block) (key : Block) : Block :=
  let server := lib.server cfg random (lib.client cfg random ck)
  server.1.okvs.decodeKey (byteToBlock server.2) key

/-! ## Laws -/

variable {cfg lib random}

/-- The equality test of a session with radix 5 shares equality. -/
theorem Libraries.sharesEquality (hpacking : lib.packing.Lawful) (hradix : lib.radix = 5)
    (hot : ∀ tid < 2, (lib.otpack 5 tid).Lawful (2 ^ 5))
    (hequality : ∀ size, (random.equality size).Valid size) {n : ℕ} (h8 : 8 ∣ n)
    (hn : n < 2 ^ 25) : SharesEquality n (lib.subprotocols cfg random .int).blockEquality := by
  rintro inputs inputs' rfl hlen
  obtain ⟨zs, ws, hanswers, hshares⟩ := performBlockEquality_shares hpacking lib.otpack hot
    (holds_blocks_iff.mpr hn) (hequality inputs.length) hlen h8
  rw [← hradix] at hanswers
  exact ⟨zs, ws, hanswers, hshares⟩

theorem getD_decode_replicate (okvs : Baxos Seed) {keys table : List Block} {n p : ℕ}
    {key : Block} (hlen : keys.length ≤ n) (hkey : keys[p]? = some key) :
    (okvs.decode keys (List.replicate n 0) table).getD p 0 = okvs.decodeKey table key := by
  rw [List.getD_eq_getElem?_getD,
    okvs.getElem?_decode (by rwa [List.length_replicate]) hkey]
  rfl

section Oprf

variable {ck : List Block} (hmul : Bilinear lib.gf128Mul)
  (hvole : VoleCorrelated lib.gf128Mul (lib.pp cfg).okvsOutputSize random.Delta random.A random.B
    random.C)
  (hlinear : LinearDecode lib.gf128Mul ((lib.pp cfg).okvs.reseed (lib.setSeed random.seedR)))
  (hkey : (lib.pp cfg).okvsOutputSize ≤ 2 ^ 27)

include hmul hvole hlinear hkey

/-- Where the client's store decodes to zero the server's key gives what the
client gets from its VOLE output, if decoding is linear. -/
theorem Libraries.oprfValue_eq {key : Block}
    (hsolve : ((lib.pp cfg).okvs.reseed (lib.setSeed random.seedR)).decodeKey
      (((lib.pp cfg).okvs.reseed (lib.setSeed random.seedR)).solve ck
        (List.replicate (lib.pp cfg).inputNum 0) none) key = 0) :
    lib.oprfValue cfg random ck key =
      ((lib.pp cfg).okvs.reseed (lib.setSeed random.seedR)).decodeKey random.C key := by
  refine Eq.trans ?_ (decodeKey_server1_key lib.setSeed lib.gf128Mul (lib.pp cfg) ck
    (lib.pp cfg).inputNum random.seedR random.Delta random.A random.B random.C _ hmul hvole hlinear
    rfl hsolve)
  rw [← server1_key_of_le lib.setSeed lib.gf128Mul (lib.pp cfg) ck (lib.pp cfg).inputNum
    random.seedR random.Delta random.A random.B random.C _ hvole rfl hkey]
  rfl

/-- The OPRF of a session agrees on the keys of the client. -/
theorem Libraries.oprfAgrees (keys : List Block)
    (hsolve : ∀ x, x ∈ ck → ((lib.pp cfg).okvs.reseed (lib.setSeed random.seedR)).decodeKey
      (((lib.pp cfg).okvs.reseed (lib.setSeed random.seedR)).solve ck
        (List.replicate (lib.pp cfg).inputNum 0) none) x = 0)
    (hroom : ck.length ≤ (lib.pp cfg).inputNum) :
    OprfAgrees (lib.subprotocols cfg random .int).oprf (lib.oprfValue cfg random ck) ck keys where
  client p key hat := by
    have hcell : (lib.client cfg random ck).output.getD p 0 =
        ((lib.pp cfg).okvs.reseed (lib.setSeed random.seedR)).decodeKey random.C key :=
      getD_decode_replicate _ hroom hat
    exact hcell.trans (Libraries.oprfValue_eq hmul hvole hlinear hkey
      (hsolve key (List.mem_of_getElem? hat))).symm
  server := decode_eq_map _ keys _

end Oprf

end Session

/-! ## The count of a session -/

/-- A store for `n` items returns the programmed value at every key. -/
def Baxos.Exact (okvs : Baxos Seed) (n : ℕ) : Prop :=
  ∀ keys values prng, keys.length ≤ n → values.length = keys.length →
    okvs.ExactOn keys values prng

/-- A store for `n` items, solved for zeros, returns zero at every key. -/
def Baxos.SolvesZero (okvs : Baxos Seed) (n : ℕ) : Prop :=
  ∀ keys, keys.length ≤ n → keys.Nodup → ∀ key, key ∈ keys →
    okvs.decodeKey (okvs.solve keys (List.replicate n 0) none) key = 0

/-- What a session relies on in its libraries, with a context of radix 5 and a key
of no more blocks than its conversions reach. -/
structure Libraries.Lawful (cfg : PsiConfig) (lib : Libraries Seed)
    (random : SessionRandomness Seed) : Prop where
  gf128Mul : Bilinear lib.gf128Mul
  vole : VoleCorrelated lib.gf128Mul (lib.pp cfg).okvsOutputSize random.Delta random.A random.B
    random.C
  linear : LinearDecode lib.gf128Mul ((lib.pp cfg).okvs.reseed (lib.setSeed random.seedR))
  key : (lib.pp cfg).okvsOutputSize ≤ 2 ^ 27
  solvesZero : ((lib.pp cfg).okvs.reseed (lib.setSeed random.seedR)).SolvesZero
    (lib.pp cfg).inputNum
  exact : (lib.baxos cfg.okvsItems cfg.okvsBinSize).Exact cfg.okvsItems
  packing : lib.packing.Lawful
  radix : lib.radix = 5
  otpack : ∀ tid < 2, (lib.otpack 5 tid).Lawful (2 ^ 5)
  equality : ∀ size, (random.equality size).Valid size
  iknpOt : DeliversChosen lib.iknpOt

/-- At a key that is not programmed the decoded value plus the key's OPRF value
is not the mask of the bin. -/
def NoAccident (cfg : PsiConfig) (lib : Libraries Seed) (random : SessionRandomness Seed)
    (run : PsiRun) : Prop :=
  ∀ (p : ℕ) (key : Block) (b : ℕ), run.ck[p]? = some key → run.idxs[p]? = some b →
    key ∉ run.keys → (lib.baxos cfg.okvsItems cfg.okvsBinSize).decodeKey run.okvs key ^^^
      lib.oprfValue cfg random run.ck key ≠ run.randomValues.getD b 0

/-- The padded list has room in the client's store. -/
theorem length_receiverVec {cfg : PsiConfig} {padding : ℕ → Word} {set : List Block}
    (hlen : set.length ≤ cfg.square) : (receiverVec cfg padding set).length = cfg.square := by
  have hsquare : cfg.square < 2 ^ 64 := Nat.mod_lt _ (by decide)
  rw [receiverVec, List.length_append, List.length_map, List.length_map, List.length_range]
  omega

/-- The client's store has room for the padded list. -/
theorem square_le_inputNum {cfg : PsiConfig} (hrange : cfg.square ≤ 26420807)
    (lib : Libraries Seed) : cfg.square ≤ (lib.pp cfg).inputNum := by
  have hpow : cfg.square ≤ 2 ^ cfg.num1 := Nat.le_pow_clog (by decide) _
  have hnum : cfg.num1 ≤ 25 := Nat.clog_le_of_le_pow (hrange.trans (by decide))
  have hinput : (lib.pp cfg).inputNum = 2 ^ ((cfg.num1 + 1) % 64) := rfl
  rw [hinput, Nat.mod_eq_of_lt (by omega)]
  exact hpow.trans (Nat.pow_le_pow_right (by decide) (Nat.le_succ _))

/-- In a session with bins in range the equality test shares equality. -/
theorem Libraries.Lawful.sharesEquality {cfg : PsiConfig} {lib : Libraries Seed}
    {random : SessionRandomness Seed} (hlib : lib.Lawful cfg random)
    (hrange : cfg.square ≤ 26420807) :
    SharesEquality cfg.nbins (lib.subprotocols cfg random .int).blockEquality :=
  Libraries.sharesEquality hlib.packing hlib.radix hlib.otpack hlib.equality cfg.dvd_nbins
    (cfg.nbins_lt_iff.mpr hrange)

/-- With more bins the test overflows. -/
theorem Libraries.blockEquality_overflow {cfg : PsiConfig} (hrange : 26420807 < cfg.square)
    (lib : Libraries Seed) (random : SessionRandomness Seed) (inputs inputs' : List Block)
    (hlen : inputs.length = cfg.nbins) :
    (lib.subprotocols cfg random .int).blockEquality inputs inputs' = overflow := by
  refine performBlockEquality_overflow cfg.dvd_nbins ?_ lib.otpack lib.radix _ hlen inputs'
  rw [holds_blocks_iff, PsiConfig.nbins_lt_iff]
  exact not_le.mpr hrange

section Count

variable {cfg : PsiConfig} {lib : Libraries Seed} {random : SessionRandomness Seed}
  (hlib : lib.Lawful cfg random) {h : HashFamily} {prg : Prg Seed}
  {receiverSet senderSet : List Block} (hsquare : 0 < cfg.square)
  (hrange : cfg.square ≤ 26420807) (hnf : 0 < cfg.nfuns)
  (hnf' : cfg.nfuns ≤ 2 ^ 64) (hsender : senderSet.length = cfg.realNum2)
  (hitems : cfg.realNum2 * cfg.nfuns ≤ cfg.okvsItems) (hreceiver : receiverSet.length ≤ cfg.square)
  (hfolds : (senderSet.map Block.fold).Nodup)

include hlib hsquare hrange hnf hnf' hsender hitems hreceiver hfolds

/-- The store of a session has room for its keys, and the two parties evaluate
one function on theirs. -/
theorem Libraries.Lawful.stored {run : PsiRun}
    (hrun : psiCa cfg h prg (lib.subprotocols cfg random .int) random.toPsiRandomness receiverSet
      senderSet = .ok run) :
    run.okvs = (lib.baxos cfg.okvsItems cfg.okvsBinSize).solve run.keys run.values
        (some random.okvsSeed) ∧
      run.keys.length ≤ cfg.okvsItems ∧ run.values.length = run.keys.length ∧
      run.randomValues = prg.genRandomBlocks (prg.fixedSeed 0) cfg.nbins ∧
      OprfAgrees (lib.subprotocols cfg random .int).oprf (lib.oprfValue cfg random run.ck) run.ck
        run.keys := by
  obtain ⟨n, hn⟩ : ∃ n, cfg.nbins = n := ⟨_, rfl⟩
  obtain ⟨vec, hvec⟩ : ∃ vec, receiverVec cfg random.padding receiverSet = vec := ⟨_, rfl⟩
  obtain ⟨okvs, hokvs⟩ : ∃ okvs, lib.baxos cfg.okvsItems cfg.okvsBinSize = okvs := ⟨_, rfl⟩
  have hpos : 0 < n := hn ▸ cfg.nbins_pos hsquare
  have hroom : vec.length ≤ (lib.pp cfg).inputNum := by
    rw [← hvec, length_receiverVec hreceiver]
    exact square_le_inputNum hrange lib
  obtain ⟨t, zs, ws, -, hinv, hbins, hfuns, rfl, -, hrun'⟩ :=
    psiCa_ok (h := h)
      hn hokvs hvec (senderVec_eq hsender) hpos hnf (hn ▸ hlib.sharesEquality hrange)
  rw [hrun, Except.ok.injEq] at hrun'
  subst hrun'
  have hkeys : (simpleRows h n cfg.nfuns (senderSet.map Block.fold)).flatten.length ≤
      cfg.okvsItems := by
    refine (length_flatten_simpleRows_le h n hnf' hfolds).trans ?_
    rwa [List.length_map, hsender]
  have hck : (t.occupied.map entryKey).length ≤ (lib.pp cfg).inputNum := by
    rw [List.length_map]
    exact (length_occupied_le hinv).trans hroom
  have hnodup : (t.occupied.map entryKey).Nodup :=
    nodup_entryKey hinv (hbins ▸ hpos) (hfuns ▸ hnf')
  have hoprf := Libraries.oprfAgrees hlib.gf128Mul hlib.vole hlib.linear hlib.key
    (simpleRows h n cfg.nfuns (senderSet.map Block.fold)).flatten (hlib.solvesZero _ hck hnodup) hck
  refine ⟨by rw [hokvs]; rfl, hkeys, ?_, by rw [hn]; rfl, hoprf⟩
  show (maskValues _ _ ((lib.subprotocols cfg random .int).oprf _ _).2).length = _
  rw [hoprf.server]
  exact length_maskValues ..

/-- A session without accidents meets the conditions of the cardinality. -/
theorem Libraries.Lawful.ideal {run : PsiRun}
    (hrun : psiCa cfg h prg (lib.subprotocols cfg random .int) random.toPsiRandomness receiverSet
      senderSet = .ok run) (haccident : NoAccident cfg lib random run) :
    run.toPsiBins.Ideal (lib.baxos cfg.okvsItems cfg.okvsBinSize) (lib.subprotocols cfg random .int)
      random.toPsiRandomness (lib.oprfValue cfg random run.ck) := by
  obtain ⟨-, hkeys, hvalues, -, hoprf⟩ := hlib.stored hsquare hrange hnf hnf' hsender hitems
    hreceiver hfolds hrun
  exact ⟨hoprf, hlib.exact _ _ _ hkeys hvalues, haccident⟩

/-- A session ends.  Without accidents, and with an empty stash, it reports how
many entries of the padded list are the sender's, dummies apart. -/
theorem Libraries.Lawful.count
    (hdummy : dummyElement ∉ receiverVec cfg random.padding receiverSet) :
    ∃ run, psiCa cfg h prg (lib.subprotocols cfg random .int) random.toPsiRandomness receiverSet
        senderSet = .ok run ∧ run.vec = receiverVec cfg random.padding receiverSet ∧
      receiverTable cfg h run.vec = .ok run.table ∧
      (NoAccident cfg lib random run → run.table.stash = [] →
        run.blockAns = BitVec.ofNat 128 (countAll run.vec (senderSet.map Block.fold))) := by
  obtain ⟨run, hrun, hvec, htable, -, hmissed⟩ := psiCa_undercount cfg h prg
    (lib.subprotocols cfg random .int) random.toPsiRandomness receiverSet senderSet hsquare hnf hnf'
    hsender hfolds hlib.iknpOt (hlib.sharesEquality hrange)
  refine ⟨run, hrun, hvec, htable, ?_⟩
  intro haccident hstash
  have hcount := hmissed _ (hlib.ideal hsquare hrange hnf hnf' hsender hitems hreceiver hfolds hrun
    haccident)
  rw [countStashed, hstash, List.countP_nil, hvec, countDummies_eq_zero hdummy, ← hvec] at hcount
  rw [← hcount]
  exact (BitVec.setWidth_eq _).symm.trans (BitVec.ofNat_toNat ..).symm

end Count

/-! ## An instance -/

/-- A store of nine cells for the OPRF with the given capacity, stores of pairs
elsewhere. -/
def sampleLibraries (capacity : ℕ) : Libraries Block where
  baxos n _ := if n = capacity then nineCells else pairStore n
  setSeed := id
  gf128Mul := carrylessMul
  wan := false
  packing := lsbPacking
  radix := 5
  otpack _ _ := selectPack
  iknpOt := idealSubprotocols.iknpOt

def sampleSession : SessionRandomness Block where
  toPsiRandomness := countingPadding
  seedR := 6
  Delta := 11
  A := nineA
  B := nineB
  C := nineC
  equality := sampleRandomness

end Sectric
