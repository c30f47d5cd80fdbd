import Sectric.Equality.BlockEquality
import Sectric.Psi.BinComparison
import Sectric.Psi.HintLookup
import Sectric.Psi.MaskTable

/-!
# The circuit-based intersection

`run_circuit_psi` leaves each party with a share of a bit for every bin of the client.
The client hashes its inputs into a cuckoo table and takes three candidates for every
bin from the hints of the server.  In the first comparison mode the candidates are
compared with the content of the bin.  In the second one the client makes a table of
masks from them, in which the server looks its content up, and the two parties compare
what is found.

In both modes the characters of the two files of shares add up to whether the element
in the bin is one of the server (`runCircuitPsi_shares`).

What the libraries hand out is a parameter: the masks of both parties, the outputs of
the generators, and the transfers.  So is what stands in memory that nothing has been
written to.
-/

namespace Sectric

open Lib

/-! ## The model -/

/-- `PsiAnalyticsContext::psm_type`. -/
inductive PsmType where
  | psm1
  | psm2
deriving DecidableEq

/-- `PsiAnalyticsContext`. -/
structure CircuitContext where
  nbins : ℕ
  nfuns : ℕ
  fbins : ℕ
  ffuns : ℕ
  bitlen : ℕ
  radix : ℕ
  psmType : PsmType

/-- `ot_sender` and `ot_receiver`: the masks of all items of all bins, and those of one
item for every bin. -/
structure MaskOt where
  sender : List (List Word) → List (List Block)
  receiver : List Word → List Block

/-- The masks of both parties come from one function for every bin. -/
def MaskOt.Agrees (ot : MaskOt) : Prop :=
  ∃ F : ℕ → Word → Block, (∀ rows, ot.sender rows = rows.mapIdx fun i row => row.map (F i)) ∧
    ∀ items, ot.receiver items = items.mapIdx F

/-- What both parties use: `otpackArr`, of which the batches take the first transfers,
the 64-bit outputs of a seeded generator, the hash of the mask table, and the masks. -/
structure CircuitLibraries where
  wan : Bool
  packing : BitPacking
  otpackArr : ℕ → OtPack
  prng : Block → ℕ → Word
  hashToPosition : Word → Block → Word
  hintOt : MaskOt
  tableOt : MaskOt

/-- What the parties draw, and what stands in memory that is read before it is written:
the function ids of empty slots (`unset`), the storage of the client's
`content_of_bins` (`storage`), and the slots of `table_opprf` filled from beyond the
masks (`stray`). -/
structure CircuitRandomness where
  contents : ℕ → Word
  hintDummies : ℕ → Word
  batch : EqualityRandomness
  tableContents : ℕ → Word
  nonces : ℕ → Block
  rounds : ℕ
  tableDummies : ℕ → Word
  thread : ℕ → EqualityRandomness
  unset : ℕ → Word
  storage : ℕ → Word
  stray : ℕ → Word

section Session

variable (ctx : CircuitContext) (h h' : HashFamily) (lib : CircuitLibraries)
  (random : CircuitRandomness)

/-- What the server makes the hints from. -/
def hintSources (simpleTableV : List (List Word)) : HintSources :=
  let masks := lib.hintOt.sender simpleTableV
  { contentOfBins := random.contents
    masks := fun i j => (masks.getD i []).getD j 0
    prng := lib.prng
    prngo := random.hintDummies }

/-- What the client takes from the hints for bin `i` under function `j`. -/
def candidate (garbledCuckooFilter : List Word) (addresses : ReservedVector) (masks : List Block)
    (i j : ℕ) : Word :=
  garbledCuckooFilter.getD (addresses.read (i * ctx.ffuns + j)) 0 ^^^ lib.prng (masks.getD i 0) j

/-- `content_of_bins` of the client in the first mode, before it is filled up. -/
def clientStorage (candidates : ℕ → ℕ → Word) : List Word :=
  writeAll (fun p => p.1 * ctx.ffuns + p.2) (fun p => candidates p.1 p.2)
    (rowMajor ctx.nbins ctx.ffuns Prod.mk)
    ((List.range (3 * Psm.numCmps ctx.nbins)).map random.storage)

/-- The bins of the mask table. -/
def maskedBins (candidates : ℕ → ℕ → Word) : List MaskedBin :=
  let opprfValues := (List.range ctx.nbins).map fun i => (List.range ctx.ffuns).map (candidates i)
  (lib.tableOt.sender opprfValues).mapIdx fun i masks =>
    { masks := masks, content := random.tableContents i }

/-- `actual_contents_of_bins` of the server. -/
def actualContents (rows : List MaskRow) (i : ℕ) : Word :=
  let masksWithDummies := lib.tableOt.receiver ((List.range ctx.nbins).map random.contents)
  (rows[i]?.bind fun row => row.lookUp lib.hashToPosition (masksWithDummies.getD i 0)).getD
    (random.stray i)

/-- The comparison of the bins: `res_shares` of the client and of the server.  A search
for nonces that does not end is an error here. -/
def compareBins (candidates : ℕ → ℕ → Word) : Except String (List Byte × List Byte) :=
  match ctx.psmType with
  | .psm1 =>
      let storage := clientStorage ctx random candidates
      Psm.run lib.wan lib.packing (lib.otpackArr 0) random.batch ctx.bitlen ctx.radix ctx.nbins
        (fun i m => storage.getD (i * 3 + m) 0) random.contents
  | .psm2 => do
      let rows ← maskTable lib.hashToPosition random.nonces random.tableDummies random.rounds
        (Psm.numCmps ctx.nbins) (maskedBins ctx lib random candidates)
      let contentOfBins := (List.range ctx.nbins).map random.tableContents ++
        List.replicate (Psm.pad ctx.nbins .alice) (Psm.value .alice)
      performEquality .int lib.wan lib.packing lib.otpackArr random.thread contentOfBins
        (Psm.serverContents ctx.nbins (actualContents ctx lib random rows)) ctx.bitlen
        ctx.radix (Psm.numCmps ctx.nbins)

/-- A run of both parties, with `res_shares` of either of them. -/
structure CircuitRun where
  cuckooTable : CuckooTable
  cuckooTableV : List Word
  simpleTableV : List (List Word)
  hintTable : CuckooTable
  candidates : ℕ → ℕ → Word
  resClient : List Byte
  resServer : List Byte

/-- `run_circuit_psi` of both parties: `h` hashes into the bins, `h'` into the hints. -/
def runCircuitPsi (clientInputs serverInputs : List Word) : Except String CircuitRun := do
  let cuckooTable ← (CuckooTable.withElements ctx.nbins ctx.nfuns 200 clientInputs).mapElements h
  let cuckooTableV ← cuckooTable.asRawVector random.unset
  let simpleTableV ← simpleTableItems h ctx.nbins ctx.nfuns serverInputs
  let hintTable ← (hintCuckooTable ctx.fbins ctx.ffuns simpleTableV).mapElements h'
  let sources := hintSources lib random simpleTableV
  let garbledCuckooFilter ← sources.garbledCuckooFilter ctx.fbins simpleTableV hintTable
  let garbledCuckooTable := CuckooTable.withElements ctx.fbins ctx.ffuns 200 cuckooTableV
  let addresses ← garbledCuckooTable.getElementAddresses h'
  let candidates := candidate ctx lib garbledCuckooFilter addresses
    (lib.hintOt.receiver cuckooTableV)
  let (resClient, resServer) ← compareBins ctx lib random candidates
  return { cuckooTable, cuckooTableV, simpleTableV, hintTable, candidates, resClient, resServer }

end Session

/-- `res_share_P0.dat` or `res_share_P1.dat`: every share is written as a character. -/
def resShareFile (nbins : ℕ) (resShares : List Byte) : List Byte :=
  (List.range nbins).flatMap fun i => [resShares.getD i 0, 10]

/-! ## Sessions -/

/-- The parameters with which all bins are compared.  The last three say that the
sizes of the comparison have a place in an `int`. -/
structure CircuitContext.Supported (ctx : CircuitContext) : Prop where
  nbins_pos : 0 < ctx.nbins
  nbins_mod : ctx.nbins % 8 = 0 ∨ ctx.nbins % 8 = 4
  nfuns : 0 < ctx.nfuns
  fbins : 0 < ctx.fbins
  ffuns : ctx.ffuns = 3
  bitlen : 0 < ctx.bitlen ∧ ctx.bitlen ≤ 64
  radix : 0 < ctx.radix ∧ ctx.radix ≤ 8
  top : ctx.bitlen % ctx.radix ≤ 4
  batchSizes : ctx.psmType = .psm1 →
    (Psm.batchEquality ctx.nbins ctx.bitlen ctx.radix).numDigits * 3 * Psm.numCmps ctx.nbins <
      2 ^ 31
  tableSize : ctx.psmType = .psm2 → 4 * Psm.numCmps ctx.nbins < 2 ^ 31
  threadSizes : ctx.psmType = .psm2 → ∀ tid < 2,
    ctx.bitlen * chunkOf (Psm.numCmps ctx.nbins) tid < 2 ^ 31

/-- The libraries do what they are for, with the randomness of a session. -/
structure CircuitLibraries.Lawful (lib : CircuitLibraries) (ctx : CircuitContext)
    (random : CircuitRandomness) : Prop where
  packing : lib.packing.Lawful
  otpackArr : ∀ tid < 2, (lib.otpackArr tid).Lawful (2 ^ ctx.radix)
  batchOt : (lib.otpackArr 0).Selects (OfWidth 3) (2 ^ ctx.radix)
  batch : random.batch.BatchValid (Psm.batchEquality ctx.nbins ctx.bitlen ctx.radix)
  thread : ∀ tid < 2, (random.thread tid).Valid
    { l := ctx.bitlen, beta := ctx.radix, numCmps := chunkOf (Psm.numCmps ctx.nbins) tid }
  hintOt : lib.hintOt.Agrees
  tableOt : lib.tableOt.Agrees

/-- An item is of one element only, and what an empty slot of the client is read as is
no item. -/
structure CircuitInputs (ctx : CircuitContext) (unset : ℕ → Word) (client server : List Word) :
    Prop where
  client_dummy : dummyElement ∉ client
  server_dummy : dummyElement ∉ itemsOf ctx.nfuns server
  server_nodup : (itemsOf ctx.nfuns server).Nodup
  common : ∀ x ∈ client, ∀ y ∈ server, ∀ f < ctx.nfuns, ∀ g < ctx.nfuns,
    x ^^^ BitVec.ofNat 64 f = y ^^^ BitVec.ofNat 64 g → x = y
  unset : ∀ i < ctx.nbins, dummyElement ^^^ unset i ∉ itemsOf ctx.nfuns server

/-- What the client has in a bin is among the server's items there. -/
def CircuitRun.Common (run : CircuitRun) (i : ℕ) : Prop :=
  ∃ row, run.simpleTableV[i]? = some row ∧ run.cuckooTableV.getD i 0 ∈ row

/-- The bin of the client has an element of the server. -/
def CircuitRun.Holds (run : CircuitRun) (inputs : List Word) (i : ℕ) : Prop :=
  ∃ e, run.cuckooTable.hashTable[i]? = some e ∧ e.isEmpty = false ∧ e.value ∈ inputs

/-- Nothing agrees by accident in the compared bits.  In the first mode a candidate
agrees with the content only if it is the hint of a common item, in the second mode the
server finds the content of the client only for one. -/
structure CircuitRun.NoAccident (run : CircuitRun) (ctx : CircuitContext) (h' : HashFamily)
    (lib : CircuitLibraries) (random : CircuitRandomness) : Prop where
  candidates : ctx.psmType = .psm1 → ∀ i < ctx.nbins, ∀ j < 3,
    (run.candidates i j).toNat % 2 ^ ctx.bitlen = (random.contents i).toNat % 2 ^ ctx.bitlen →
      run.Common i ∧ Hinted h' run.hintTable (run.cuckooTableV.getD i 0) j
  tables : ctx.psmType = .psm2 → ∀ rows,
    maskRows lib.hashToPosition random.nonces random.tableDummies random.rounds
      (maskedBins ctx lib random run.candidates) 0 0 = some rows → ∀ i < ctx.nbins,
    (random.tableContents i).toNat % 2 ^ ctx.bitlen =
        (actualContents ctx lib random rows i).toNat % 2 ^ ctx.bitlen →
      run.Common i

section Modes

variable {ctx : CircuitContext} (hctx : ctx.Supported) {lib : CircuitLibraries}
  {random : CircuitRandomness} (hlib : lib.Lawful ctx random) (candidates : ℕ → ℕ → Word)

include hctx

/-- With three functions the storage holds the candidates bin by bin. -/
theorem getD_clientStorage {i m : ℕ} (hi : i < ctx.nbins) (hm : m < 3) :
    (clientStorage ctx random candidates).getD (i * 3 + m) 0 = candidates i m := by
  let key : ℕ × ℕ → ℕ := fun p => p.1 * 3 + p.2
  have hkeys : ((rowMajor ctx.nbins 3 Prod.mk).map key).Nodup := by
    rw [← rowMajor_eq_map ctx.nbins 3 fun i j => i * 3 + j, rowMajor_positions]
    exact List.nodup_range
  have hmem : (i, m) ∈ rowMajor ctx.nbins 3 Prod.mk := mem_rowMajor.mpr ⟨i, hi, m, hm, rfl⟩
  let storage := (List.range (3 * Psm.numCmps ctx.nbins)).map random.storage
  have hroom : key (i, m) < storage.length := by
    rw [List.length_map, List.length_range, Psm.numCmps]
    have hcell := cell_lt hi hm
    show i * 3 + m < _
    omega
  have hcell := getElem?_writeAll key (fun p => candidates p.1 p.2) storage hkeys hmem hroom
  rw [clientStorage, hctx.ffuns, List.getD_eq_getElem?_getD]
  exact congrArg (Option.getD · 0) hcell

include hlib

/-- The first mode ends, with the parity of the agreeing candidates of every bin. -/
theorem compareBins_psm1 (hmode : ctx.psmType = .psm1) :
    ∃ resClient resServer, compareBins ctx lib random candidates = .ok (resClient, resServer) ∧
      ∀ i < ctx.nbins, resClient.getD i 0 ^^^ resServer.getD i 0 =
        BitVec.ofNat 8 (Psm.agreeing ctx.bitlen (candidates i) (random.contents i) % 2) := by
  let eq := Psm.batchEquality ctx.nbins ctx.bitlen ctx.radix
  let cells : ℕ → ℕ → Word := fun i m => (clientStorage ctx random candidates).getD (i * 3 + m) 0
  have hvalid : eq.Valid := ⟨hctx.radix.1, hctx.radix.2, hctx.bitlen.1, hctx.bitlen.2⟩
  have hbatch : 1 ≤ eq.batchSize ∧ eq.batchSize ≤ 3 := by simp [eq, Psm.batchEquality]
  obtain ⟨resClient, resServer, hrun, -, -, hparity⟩ : ∃ resClient resServer,
      eq.run lib.wan lib.packing (lib.otpackArr 0) random.batch
        (Psm.clientContents ctx.nbins cells) (Psm.serverContents ctx.nbins random.contents) =
          .ok (resClient, resServer) ∧ _ :=
    BatchEquality.run_parity hvalid hbatch (hctx.batchSizes hmode) (.inr hctx.top)
      ((Psm.aligned_iff ctx.nbins).mpr hctx.nbins_mod) hlib.packing hlib.batchOt hlib.batch _ _
  refine ⟨resClient, resServer, ?_, ?_⟩
  · rw [compareBins, hmode]
    exact hrun
  · intro i hi
    have hcmp : i < Psm.numCmps ctx.nbins := hi.trans_le (Nat.le_add_right ..)
    rw [hparity i hcmp, Psm.getD_serverContents ctx.nbins random.contents hi, Psm.agreeing]
    congr 2
    refine List.countP_congr fun m hm => ?_
    have hm := List.mem_range.mp hm
    have hcell : (Psm.clientContents ctx.nbins cells).getD (i * 3 + m) 0 = candidates i m := by
      rw [Psm.getD_clientContents ctx.nbins cells hi hm]
      exact getD_clientStorage hctx candidates hi hm
    rw [← hcell]
    rfl

/-- Where a candidate is the content, the server finds what the client has for the bin. -/
theorem actualContents_eq {rows : List MaskRow}
    (hrows : maskRows lib.hashToPosition random.nonces random.tableDummies random.rounds
      (maskedBins ctx lib random candidates) 0 0 = some rows) {i j : ℕ} (hi : i < ctx.nbins)
    (hj : j < 3) (hcandidate : candidates i j = random.contents i) :
    actualContents ctx lib random rows i = random.tableContents i := by
  obtain ⟨F, hsender, hreceiver⟩ := hlib.tableOt
  let bin : MaskedBin :=
    { masks := ((List.range ctx.ffuns).map (candidates i)).map (F i)
      content := random.tableContents i }
  have hbin : (maskedBins ctx lib random candidates)[i]? = some bin := by
    simp [maskedBins, hsender, hi, bin]
  obtain ⟨hlen, hget⟩ := List.getElem?_eq_some_iff.mp hbin
  have hlen' : i < rows.length := (maskRows_filled hrows).length_eq ▸ hlen
  have hfilled : MaskRow.Filled lib.hashToPosition bin rows[i] :=
    hget ▸ (maskRows_filled hrows).get hlen hlen'
  have hthree : bin.masks.length ≤ 4 := by simp [bin, hctx.ffuns]
  have hmask : F i (random.contents i) ∈ bin.masks := by
    refine List.mem_map_of_mem (List.mem_map.mpr ⟨j, ?_, hcandidate⟩)
    exact List.mem_range.mpr (hctx.ffuns ▸ hj)
  have hslot := hfilled.slot hthree hmask
  have hserver : (lib.tableOt.receiver ((List.range ctx.nbins).map random.contents)).getD i 0 =
      F i (random.contents i) := by
    simp [hreceiver, List.getD_eq_getElem?_getD, hi]
  simp only [actualContents, hserver, List.getElem?_eq_getElem hlen', Option.bind_some,
    MaskRow.lookUp, List.getD_eq_getElem?_getD, hslot, Option.getD_some, Option.map_some]
  rw [← BitVec.xor_assoc, BitVec.xor_self, BitVec.zero_xor]

/-- The second mode ends unless a search for a nonce does not, with whether the client
and the server have the same for a bin. -/
theorem compareBins_psm2 (hmode : ctx.psmType = .psm2) {rows : List MaskRow}
    (hrows : maskRows lib.hashToPosition random.nonces random.tableDummies random.rounds
      (maskedBins ctx lib random candidates) 0 0 = some rows) :
    ∃ resClient resServer, compareBins ctx lib random candidates = .ok (resClient, resServer) ∧
      ∀ i < ctx.nbins, (resClient.getD i 0 ^^^ resServer.getD i 0 = 1 ↔
        (random.tableContents i).toNat % 2 ^ ctx.bitlen =
          (actualContents ctx lib random rows i).toNat % 2 ^ ctx.bitlen) := by
  let contentOfBins := (List.range ctx.nbins).map random.tableContents ++
    List.replicate (Psm.pad ctx.nbins .alice) (Psm.value .alice)
  let actual := actualContents ctx lib random rows
  have hvalid : ∀ n, Equality.Valid { l := ctx.bitlen, beta := ctx.radix, numCmps := n } :=
    fun _ => ⟨hctx.radix.1, hctx.radix.2, hctx.bitlen.1, hctx.bitlen.2⟩
  have hheld : SizeType.int.Holds (Psm.numCmps ctx.nbins) :=
    Nat.lt_of_le_of_lt (Nat.le_mul_of_pos_left _ (by decide)) (hctx.tableSize hmode)
  obtain ⟨resClient, resServer, hrun, hshares⟩ : ∃ resClient resServer,
      performEquality .int lib.wan lib.packing lib.otpackArr random.thread contentOfBins
        (Psm.serverContents ctx.nbins actual) ctx.bitlen ctx.radix (Psm.numCmps ctx.nbins) =
          .ok (resClient, resServer) ∧ Shares (Psm.numCmps ctx.nbins) _ resClient resServer :=
    performEquality_shares hlib.packing hheld (hctx.threadSizes hmode) hvalid (.inr hctx.top)
      hlib.otpackArr hlib.thread ((Psm.aligned_iff ctx.nbins).mpr hctx.nbins_mod) _ _
  refine ⟨resClient, resServer, ?_, ?_⟩
  · rw [compareBins, hmode]
    simp only [maskTable_eq (hctx.tableSize hmode) hrows]
    exact hrun
  · intro i hi
    have hclient : contentOfBins.getD i 0 = random.tableContents i := by
      have hcell : i < ((List.range ctx.nbins).map random.tableContents).length := by simpa using hi
      rw [List.getD_append _ _ _ _ hcell]
      exact getD_map_range _ _ hi
    have hserver := Psm.getD_serverContents ctx.nbins actual hi
    rw [hshares.xor_eq_one_iff (hi.trans_le (Nat.le_add_right ..)), hclient, hserver]

end Modes

/-! ## Up to the comparison -/

/-- What holds of a run before the comparison. -/
structure CircuitRun.Prepared (run : CircuitRun) (ctx : CircuitContext) (h h' : HashFamily)
    (random : CircuitRandomness) (client server : List Word) : Prop where
  cuckooTable :
    (CuckooTable.withElements ctx.nbins ctx.nfuns 200 client).mapElements h = .ok run.cuckooTable
  cuckooTableV : run.cuckooTable.asRawVector random.unset = .ok run.cuckooTableV
  simpleTableV : simpleTableItems h ctx.nbins ctx.nfuns server = .ok run.simpleTableV
  hintTable :
    (hintCuckooTable ctx.fbins ctx.ffuns run.simpleTableV).mapElements h' = .ok run.hintTable
  decodes : ∀ i < ctx.nbins, ∀ j < 3, run.Common i →
    Hinted h' run.hintTable (run.cuckooTableV.getD i 0) j → run.candidates i j = random.contents i

section Run

variable {ctx : CircuitContext} (hctx : ctx.Supported) (h h' : HashFamily)
  {lib : CircuitLibraries} {random : CircuitRandomness} (hlib : lib.Lawful ctx random)
  {client server : List Word} (hinputs : CircuitInputs ctx random.unset client server)

include hctx hlib hinputs

/-- A run comes to the comparison. -/
theorem runCircuitPsi_prepared :
    ∃ run : CircuitRun, run.Prepared ctx h h' random client server ∧
      runCircuitPsi ctx h h' lib random client server =
        (compareBins ctx lib random run.candidates).map fun res =>
          { run with resClient := res.1, resServer := res.2 } := by
  obtain ⟨F, hsender, hreceiver⟩ := hlib.hintOt
  obtain ⟨t, hmap, -⟩ := withElements_inv h 200 client hctx.nbins_pos fun _ => hctx.nfuns
  obtain ⟨v, hv, hlen, -⟩ := asRawVector_bins hmap random.unset
  have hrows := simpleTableItems_eq h hctx.nbins_pos ctx.nfuns server
  generalize buckets (entryAddress h ctx.nbins) HashTableEntry.item ctx.nbins
    (storedEntries h ctx.nbins ctx.nfuns server.zipIdx) = rows at hrows
  have hperm := filterInputs_perm hrows
  have hdummy : dummyElement ∉ filterInputs rows := hperm.mem_iff.not.mpr hinputs.server_dummy
  have hnodup : (filterInputs rows).Nodup := hperm.nodup_iff.mpr hinputs.server_nodup
  have hffuns : 0 < ctx.ffuns := by simp [hctx.ffuns]
  obtain ⟨hint, hhint, -⟩ : ∃ hint,
      (hintCuckooTable ctx.fbins ctx.ffuns rows).mapElements h' = .ok hint ∧ _ :=
    withElements_inv h' 200 (filterInputs rows) hctx.fbins fun _ => hffuns
  have hfilter := garbledCuckooFilter_ok hhint (hintSources lib random rows)
  have haddresses := getElementAddresses_withElements h' hctx.fbins ctx.ffuns 200 v
  generalize hgarbled : (hintSources lib random rows).fill (tlocAt rows)
    (hint.hashTable.take ctx.fbins) 0 = garbled at hfilter
  obtain ⟨candidates, hcandidates⟩ : ∃ candidates, candidates = candidate ctx lib garbled
    (.mk [] (writtenAddresses h' ctx.fbins ctx.ffuns v)) (lib.hintOt.receiver v) := ⟨_, rfl⟩
  refine ⟨⟨t, v, rows, hint, candidates, [], []⟩, ⟨hmap, hv, hrows, hhint, ?_⟩, ?_⟩
  · rintro i hi j hj ⟨row, hrow, hitem⟩ hhinted
    obtain ⟨p, hp⟩ := List.mem_iff_getElem?.mp hitem
    have hcell : v[i]? = some (v.getD i 0) := by
      rw [List.getD_eq_getElem _ _ (hlen ▸ hi)]
      exact List.getElem?_eq_getElem _
    have haddress : (ReservedVector.mk [] (writtenAddresses h' ctx.fbins ctx.ffuns v)).read
        (i * ctx.ffuns + j) = h' j (v.getD i 0) % ctx.fbins :=
      ReservedVector.read_written hcell (hctx.ffuns ▸ hj)
    have hreceived : (lib.hintOt.receiver v).getD i 0 = F i (v.getD i 0) := by
      rw [hreceiver, List.getD_eq_getElem?_getD, List.getElem?_mapIdx, hcell]
      rfl
    have hsent : (hintSources lib random rows).masks i p = F i (v.getD i 0) := by
      have hmasks : (lib.hintOt.sender rows).getD i [] = row.map (F i) := by
        rw [hsender, List.getD_eq_getElem?_getD, List.getElem?_mapIdx, hrow]
        rfl
      show ((lib.hintOt.sender rows).getD i []).getD p 0 = _
      rw [hmasks]
      exact getD_map_of_getElem? (F i) 0 hp
    have hdecodes := hint_decodes hhint (hintSources lib random rows) hnodup hrow hp hhinted
    rw [hsent, hgarbled] at hdecodes
    show candidates i j = _
    rw [hcandidates, candidate, haddress, hreceived]
    exact hdecodes
  · rw [runCircuitPsi]
    simp only [hmap, hv, hrows, hhint, hfilter, haddresses, ← hcandidates, bind, Except.bind]
    cases compareBins ctx lib random candidates with
    | error e => rfl
    | ok res => rfl

variable {h h'} {run : CircuitRun} (hrun : run.Prepared ctx h h' random client server)

include hrun

omit hctx hlib in
/-- The item of a bin is one of the server's exactly if the element is. -/
theorem CircuitRun.Prepared.common_iff {i : ℕ} (hi : i < ctx.nbins) :
    run.Common i ↔ run.Holds server i := by
  obtain ⟨v, hv, -, hbins⟩ := asRawVector_bins hrun.cuckooTable random.unset
  cases hrun.cuckooTableV.symm.trans hv
  obtain ⟨e, hslot, hcase⟩ := hbins i hi
  have hmem := mem_simpleTableItems hrun.simpleTableV i
  have hholds : run.Holds server i ↔ e.isEmpty = false ∧ e.value ∈ server := by
    rw [CircuitRun.Holds, hslot]
    simp
  rw [CircuitRun.Common, hmem, hholds]
  rcases hcase with ⟨hempty, hcell⟩ | ⟨hne, hvalue, hf, haddr, hcell⟩
  · rw [List.getD_eq_getElem?_getD, hcell, Option.getD_some, hempty]
    refine iff_of_false ?_ (fun h => Bool.noConfusion h.1)
    rintro ⟨x, hx, f, hf, -, heq⟩
    exact hinputs.unset i hi (mem_itemsOf.mpr ⟨x, hx, f, hf, heq⟩)
  · rw [List.getD_eq_getElem?_getD, hcell, Option.getD_some]
    constructor
    · rintro ⟨y, hy, g, hg, -, heq⟩
      exact ⟨hne, hinputs.common e.value hvalue y hy _ hf g hg heq.symm ▸ hy⟩
    · rintro ⟨-, hserver⟩
      exact ⟨e.value, hserver, e.currentFunctionId, hf, haddr, rfl⟩

omit hlib in
/-- A common item has its hint under one function. -/
theorem CircuitRun.Prepared.exists_hinted (hstash : run.hintTable.getStashSize = 0) {i : ℕ}
    (hcommon : run.Common i) :
    ∃ j < 3, ∀ j', Hinted h' run.hintTable (run.cuckooTableV.getD i 0) j' ↔ j' = j := by
  have hperm := filterInputs_perm hrun.simpleTableV
  have hdummy : dummyElement ∉ filterInputs run.simpleTableV :=
    hperm.mem_iff.not.mpr hinputs.server_dummy
  obtain ⟨row, hrow, hitem⟩ := hcommon
  have hhinted := hinted_under_one hrun.hintTable hdummy
    (hperm.nodup_iff.mpr hinputs.server_nodup) hstash (mem_filterInputs.mpr ⟨i, row, hrow, hitem⟩)
  rwa [hctx.ffuns] at hhinted

variable (hstash : run.hintTable.getStashSize = 0)
  (hacc : run.NoAccident ctx h' lib random)

include hstash hacc

omit hlib in
/-- In the first mode one candidate agrees for a common item, and none for another. -/
theorem CircuitRun.Prepared.agreeing_eq (hmode : ctx.psmType = .psm1) {i : ℕ} (hi : i < ctx.nbins) :
    (run.Common i → Psm.agreeing ctx.bitlen (run.candidates i) (random.contents i) = 1) ∧
      (¬ run.Common i → Psm.agreeing ctx.bitlen (run.candidates i) (random.contents i) = 0) := by
  constructor
  · intro hcommon
    obtain ⟨j, hj, hhinted⟩ := hrun.exists_hinted hctx hinputs hstash hcommon
    have hone : (List.range 3).count j = 1 :=
      List.count_eq_one_of_mem List.nodup_range (List.mem_range.mpr hj)
    rw [Psm.agreeing, ← hone, List.count]
    refine List.countP_congr fun m hm => ?_
    rw [decide_eq_true_iff, beq_iff_eq]
    constructor
    · intro hagrees
      exact (hhinted m).mp (hacc.candidates hmode i hi m (List.mem_range.mp hm) hagrees).2
    · rintro rfl
      rw [hrun.decodes i hi m hj hcommon ((hhinted m).mpr rfl)]
  · intro hother
    refine List.countP_eq_zero.mpr fun m hm hagrees => hother ?_
    exact (hacc.candidates hmode i hi m (List.mem_range.mp hm) (of_decide_eq_true hagrees)).1

omit hrun hstash hacc in
/-- A run ends unless a search for a nonce does not.  Without accidents, and with no
hint in the stash, the shares of a bin add up to one exactly for a common item. -/
theorem runCircuitPsi_bits (h h' : HashFamily) :
    ctx.psmType = .psm2 ∧ runCircuitPsi ctx h h' lib random client server = .error "no nonce" ∨
      ∃ run, runCircuitPsi ctx h h' lib random client server = .ok run ∧
        run.Prepared ctx h h' random client server ∧
        (run.hintTable.getStashSize = 0 → run.NoAccident ctx h' lib random → ∀ i < ctx.nbins,
          (run.resClient.getD i 0 ^^^ run.resServer.getD i 0 = 1 ↔ run.Common i)) := by
  obtain ⟨run, hrun, heq⟩ := runCircuitPsi_prepared hctx h h' hlib hinputs
  cases hmode : ctx.psmType with
  | psm1 =>
      obtain ⟨resClient, resServer, hcompare, hparity⟩ :=
        compareBins_psm1 hctx hlib run.candidates hmode
      rw [hcompare] at heq
      refine .inr ⟨_, heq, ⟨hrun.1, hrun.2, hrun.3, hrun.4, hrun.5⟩, ?_⟩
      intro hstash hacc i hi
      have hagreeing := hrun.agreeing_eq hctx hinputs hstash ⟨hacc.1, hacc.2⟩ hmode hi
      rw [hparity i hi]
      by_cases hcommon : run.Common i
      · rw [hagreeing.1 hcommon]
        exact iff_of_true rfl hcommon
      · rw [hagreeing.2 hcommon]
        exact iff_of_false (by decide) hcommon
  | psm2 =>
      cases hrows : maskRows lib.hashToPosition random.nonces random.tableDummies random.rounds
        (maskedBins ctx lib random run.candidates) 0 0 with
      | none =>
          have hcompare : compareBins ctx lib random run.candidates = .error "no nonce" := by
            rw [compareBins, hmode]
            simp only [maskTable_eq_error (hctx.tableSize hmode) hrows]
            rfl
          rw [hcompare] at heq
          exact .inl ⟨rfl, heq⟩
      | some rows =>
          obtain ⟨resClient, resServer, hcompare, hbits⟩ :=
            compareBins_psm2 hctx hlib run.candidates hmode hrows
          rw [hcompare] at heq
          refine .inr ⟨_, heq, ⟨hrun.1, hrun.2, hrun.3, hrun.4, hrun.5⟩, ?_⟩
          intro hstash hacc i hi
          refine (hbits i hi).trans ⟨hacc.tables hmode rows hrows i hi, ?_⟩
          intro hcommon
          obtain ⟨j, hj, hhinted⟩ := hrun.exists_hinted hctx hinputs hstash hcommon
          have hcandidate := hrun.decodes i hi j hj hcommon ((hhinted j).mpr rfl)
          rw [actualContents_eq hctx hlib run.candidates hrows hi hj hcandidate]

end Run

/-! ## The files of shares -/

theorem getD_resShareFile {nbins i : ℕ} (resShares : List Byte) (hi : i < nbins) :
    (resShareFile nbins resShares).getD (2 * i) 0 = resShares.getD i 0 := by
  have hcell := getD_rowMajor (fun i j => [resShares.getD i 0, 10].getD j 0) (0 : Byte) hi
    (Nat.succ_pos 1)
  rwa [Nat.add_zero, Nat.mul_comm] at hcell

section Files

variable {ctx : CircuitContext} (hctx : ctx.Supported) (h h' : HashFamily)
  {lib : CircuitLibraries} {random : CircuitRandomness} (hlib : lib.Lawful ctx random)
  {client server : List Word} (hinputs : CircuitInputs ctx random.unset client server)

include hctx hlib hinputs

/-- The files of a run that ends. -/
theorem CircuitRun.files_xor {run : CircuitRun}
    (hrun : runCircuitPsi ctx h h' lib random client server = .ok run)
    (hstash : run.hintTable.getStashSize = 0) (hacc : run.NoAccident ctx h' lib random) {i : ℕ}
    (hi : i < ctx.nbins) :
    (resShareFile ctx.nbins run.resClient).getD (2 * i) 0 ^^^
      (resShareFile ctx.nbins run.resServer).getD (2 * i) 0 = 1 ↔ run.Holds server i := by
  rcases runCircuitPsi_bits hctx hlib hinputs h h' with ⟨-, herror⟩ | ⟨run', heq, hprepared, hbits⟩
  · cases hrun.symm.trans herror
  · cases hrun.symm.trans heq
    rw [getD_resShareFile _ hi, getD_resShareFile _ hi, hbits hstash hacc i hi]
    exact hprepared.common_iff hinputs hi

end Files

/-! ## An instance -/

/-- Four bins, with two functions for them and three for the hints. -/
def fourBins (psmType : PsmType) : CircuitContext where
  nbins := 4
  nfuns := 2
  fbins := 8
  ffuns := 3
  bitlen := 62
  radix := 5
  psmType := psmType

/-- The addresses of an element follow each other. -/
def successorHash : HashFamily := fun f x => x.toNat + f

/-- Every mask is the item with the bin. -/
def itemOt : MaskOt where
  sender rows := rows.mapIdx fun i row => row.map (makeBlock (BitVec.ofNat 64 i))
  receiver items := items.mapIdx fun i => makeBlock (BitVec.ofNat 64 i)

/-- Libraries for two parties without secrets. -/
def plainLibraries : CircuitLibraries where
  wan := false
  packing := lsbPacking
  otpackArr _ := selectPack
  prng seed j := 16 * seed.low + 256 * seed.high + BitVec.ofNat 64 j
  hashToPosition w nonce := (w * nonce.low) >>> 8
  hintOt := itemOt
  tableOt := itemOt

/-- Contents that lie apart from the outputs of the generator. -/
def fourBinsRandomness : CircuitRandomness where
  contents i := BitVec.ofNat 64 (100000 * (i + 1))
  hintDummies d := BitVec.ofNat 64 (5000 * (d + 1))
  batch := sampleBatch (Psm.batchEquality 4 62 5)
  tableContents i := BitVec.ofNat 64 (300000 * (i + 1))
  nonces k := BitVec.ofNat 128 k
  rounds := 40
  tableDummies d := BitVec.ofNat 64 (7000 + d)
  thread tid := sampleEquality { l := 62, beta := 5, numCmps := chunkOf 8 tid }
  unset _ := 0
  storage _ := 0
  stray _ := 0

theorem fourBins_supported (psmType : PsmType) : (fourBins psmType).Supported where
  nbins_pos := Nat.succ_pos 3
  nbins_mod := .inr rfl
  nfuns := Nat.succ_pos 1
  fbins := Nat.succ_pos 7
  ffuns := rfl
  bitlen := (by decide : 0 < 62 ∧ 62 ≤ 64)
  radix := (by decide : 0 < 5 ∧ 5 ≤ 8)
  top := (by decide : 62 % 5 ≤ 4)
  batchSizes _ :=
    (by decide : (Psm.batchEquality 4 62 5).numDigits * 3 * Psm.numCmps 4 < 2 ^ 31)
  tableSize _ := (by decide : 4 * Psm.numCmps 4 < 2 ^ 31)
  threadSizes _ tid _ := by
    have hchunk : chunkOf (Psm.numCmps 4) tid ≤ Psm.numCmps 4 := by
      rw [chunkOf]
      split <;> omega
    have hnum : Psm.numCmps 4 = 8 := rfl
    show 62 * chunkOf (Psm.numCmps 4) tid < 2 ^ 31
    omega

theorem plainLibraries_lawful (psmType : PsmType) :
    plainLibraries.Lawful (fourBins psmType) fourBinsRandomness where
  packing := lsbPacking_lawful
  otpackArr _ _ := selectPack_lawful _
  batchOt := selectPack_selects _ _
  batch := sampleBatch_valid _
  thread _ _ := sampleEquality_valid _
  hintOt := ⟨_, fun _ => rfl, fun _ => rfl⟩
  tableOt := ⟨_, fun _ => rfl, fun _ => rfl⟩

theorem fourBins_inputs (psmType : PsmType) :
    CircuitInputs (fourBins psmType) fourBinsRandomness.unset [2, 8] [4, 2] where
  client_dummy := by decide
  server_dummy := (by decide +kernel : dummyElement ∉ itemsOf 2 [4, 2])
  server_nodup := (by decide +kernel : (itemsOf 2 [4, 2]).Nodup)
  common := by
    have hpairs : ∀ p ∈ filedPairs 2 [2, 8], ∀ q ∈ filedPairs 2 [4, 2],
        p.2 ^^^ BitVec.ofNat 64 p.1 = q.2 ^^^ BitVec.ofNat 64 q.1 → p.2 = q.2 := by decide +kernel
    intro x hx y hy f hf g hg
    exact hpairs (f, x) (mem_filedPairs.mpr ⟨hf, hx⟩) (g, y) (mem_filedPairs.mpr ⟨hg, hy⟩)
  unset _ _ := (by decide +kernel : dummyElement ^^^ 0 ∉ itemsOf 2 [4, 2])

/-- The table of the client. -/
def fourBinsTable : CuckooTable :=
  { CuckooTable.withElements 4 2 200 [2, 8] with
    hashTable := [entryAt successorHash 4 2 8 1 0, .empty, entryAt successorHash 4 2 2 0 0, .empty]
    mapped := true }

/-- The table of the hints. -/
def fourBinsHints : CuckooTable :=
  { CuckooTable.withElements 8 3 200 [4, 5, 2, 3] with
    hashTable := [.empty, .empty, entryAt successorHash 8 3 2 2 0, entryAt successorHash 8 3 3 3 0,
      entryAt successorHash 8 3 4 0 0, entryAt successorHash 8 3 5 1 0, .empty, .empty]
    mapped := true }

def fourBinsRows : List (List Word) := [[4], [5], [2], [3]]

def fourBinsCandidates : ℕ → ℕ → Word :=
  candidate (fourBins .psm1) plainLibraries
    ((hintSources plainLibraries fourBinsRandomness fourBinsRows).fill (tlocAt fourBinsRows)
      fourBinsHints.hashTable 0)
    (.mk [] (writtenAddresses successorHash 8 3 [8, dummyElement, 2, dummyElement]))
    (itemOt.receiver [8, dummyElement, 2, dummyElement])

/-- The instance up to the comparison. -/
theorem runCircuitPsi_fourBins (psmType : PsmType) :
    runCircuitPsi (fourBins psmType) successorHash successorHash plainLibraries
      fourBinsRandomness [2, 8] [4, 2] =
        (compareBins (fourBins psmType) plainLibraries fourBinsRandomness fourBinsCandidates).map
          fun res => ⟨fourBinsTable, [8, dummyElement, 2, dummyElement], fourBinsRows,
            fourBinsHints, fourBinsCandidates, res.1, res.2⟩ := by
  have htable : (CuckooTable.withElements 4 2 200 [2, 8]).mapElements successorHash =
      .ok fourBinsTable := rfl
  have hvector : fourBinsTable.asRawVector fourBinsRandomness.unset =
      .ok [8, dummyElement, 2, dummyElement] := rfl
  have hrows : simpleTableItems successorHash 4 2 [4, 2] = .ok fourBinsRows := rfl
  have hhints : (hintCuckooTable 8 3 fourBinsRows).mapElements successorHash =
      .ok fourBinsHints := rfl
  have hdummy : dummyElement ∉ filterInputs fourBinsRows := by decide +kernel
  have hfilter := garbledCuckooFilter_ok hhints
    (hintSources plainLibraries fourBinsRandomness fourBinsRows)
  have haddresses := getElementAddresses_withElements successorHash (Nat.succ_pos 7) 3 200
    [8, dummyElement, 2, dummyElement]
  have hcandidates : candidate (fourBins psmType) plainLibraries
      ((hintSources plainLibraries fourBinsRandomness fourBinsRows).fill (tlocAt fourBinsRows)
        (fourBinsHints.hashTable.take 8) 0)
      (.mk [] (writtenAddresses successorHash 8 3 [8, dummyElement, 2, dummyElement]))
      (plainLibraries.hintOt.receiver [8, dummyElement, 2, dummyElement]) =
        fourBinsCandidates := rfl
  rw [runCircuitPsi]
  simp only [show (fourBins psmType).nbins = 4 from rfl, show (fourBins psmType).nfuns = 2 from rfl,
    show (fourBins psmType).fbins = 8 from rfl, show (fourBins psmType).ffuns = 3 from rfl, htable,
    hvector, hrows, hhints, hfilter, haddresses, hcandidates, bind, Except.bind]
  cases compareBins (fourBins psmType) plainLibraries fourBinsRandomness fourBinsCandidates with
  | error e => rfl
  | ok res => rfl

theorem run_fourBins {psmType : PsmType} {run : CircuitRun}
    (hrun : runCircuitPsi (fourBins psmType) successorHash successorHash plainLibraries
      fourBinsRandomness [2, 8] [4, 2] = .ok run) :
    ∃ resClient resServer, run = ⟨fourBinsTable, [8, dummyElement, 2, dummyElement], fourBinsRows,
      fourBinsHints, fourBinsCandidates, resClient, resServer⟩ := by
  rw [runCircuitPsi_fourBins] at hrun
  cases hcompare : compareBins (fourBins psmType) plainLibraries fourBinsRandomness
    fourBinsCandidates with
  | error e =>
      rw [hcompare] at hrun
      cases hrun
  | ok res =>
      rw [hcompare] at hrun
      exact ⟨res.1, res.2, (Except.ok.inj hrun).symm⟩

/-- Only bin 2 has an element of the server. -/
theorem fourBins_holds {i : ℕ} (hi : i < 4) {rows : List (List Word)} {v : List Word}
    {candidates : ℕ → ℕ → Word} {resClient resServer : List Byte} :
    CircuitRun.Holds ⟨fourBinsTable, v, rows, fourBinsHints, candidates, resClient, resServer⟩
      [4, 2] i ↔ i = 2 := by
  have hslots : ∀ i < 4, (fourBinsTable.hashTable[i]?.any fun e =>
      !e.isEmpty && decide (e.value ∈ ([4, 2] : List Word))) = true ↔ i = 2 := by decide +kernel
  rw [← hslots i hi, CircuitRun.Holds, Option.any_eq_true]
  simp

theorem fourBins_common {resClient resServer : List Byte} :
    CircuitRun.Common ⟨fourBinsTable, [8, dummyElement, 2, dummyElement], fourBinsRows,
      fourBinsHints, fourBinsCandidates, resClient, resServer⟩ 2 :=
  ⟨[2], rfl, List.mem_cons_self⟩

end Sectric
