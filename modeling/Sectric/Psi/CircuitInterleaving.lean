import Sectric.Equality.BatchInterleaving
import Sectric.Psi.Circuit
import Sectric.Psi.Interleaving

/-!
# The circuit-based intersection in any order of steps

In `run_circuit_psi` the client and the server use three kinds of connections: the masks
go over `chl`, the hints and the mask table over `sock`, and the bins are compared over
the two of `ioArr`, by two threads of each party.  Here each party has its own program,
which sees its own inputs and what it receives.

Whatever the order of the steps, and however few bytes the connections hold, a run comes
to its end as the sequential one does (`runCircuitPsi_endsIn`).

A slot of the mask table that is filled from beyond the masks holds what stands there in
the memory of the client.
-/

namespace Sectric

open Lib

/-! ## Words on a connection -/

/-- Words in memory. -/
def wordsToBytes (ws : List Word) : List Byte := ws.flatMap fun w => sizeBytes w.toNat

/-- So many words, read from memory. -/
def bytesToWords (n : ℕ) (bytes : List Byte) : List Word :=
  (List.range n).map fun i => BitVec.ofNat 64 (sizeOfBytes ((bytes.drop (i * 8)).take 8))

/-- `Send(words.data(), n * 8)`. -/
def sendWords (ws : List Word) : Thread Byte Unit := .sendAll (wordsToBytes ws)

/-- `Receive(words.data(), n * 8)`. -/
def receiveWords (n : ℕ) : Thread Byte (List Word) := do
  let bytes ← .receiveMany (8 * n)
  return bytesToWords n bytes

theorem bytesToWords_wordsToBytes (ws : List Word) :
    bytesToWords ws.length (wordsToBytes ws) = ws := by
  have hwidth : ∀ w ∈ ws, (sizeBytes w.toNat).length = 8 := fun w _ => length_sizeBytes w.toNat
  have hcut := congrArg (List.map fun bytes => BitVec.ofNat 64 (sizeOfBytes bytes))
    (map_cut_flatMap hwidth)
  rw [List.map_map, List.map_map] at hcut
  refine hcut.trans ?_
  conv_rhs => rw [← List.map_id ws]
  apply List.map_congr_left
  intro w _
  show BitVec.ofNat 64 (sizeOfBytes (sizeBytes w.toNat)) = w
  rw [sizeOfBytes_sizeBytes w.isLt, BitVec.ofNat_toNat, BitVec.setWidth_eq]

theorem sendWords_meets (ws : List Word) : (sendWords ws).Meets (receiveWords ws.length) () ws := by
  have hlen : (wordsToBytes ws).length = 8 * ws.length :=
    length_flatMap_width fun w _ => length_sizeBytes w.toNat
  have hmeets := (Thread.sendAll_meets (wordsToBytes ws)).convert (bytesToWords ws.length)
  rwa [hlen, bytesToWords_wordsToBytes] at hmeets

/-! ## The libraries -/

/-- `ot_sender` and `ot_receiver`. -/
structure MaskOtThreads where
  send : List (List Word) → Thread Byte (List (List Block))
  receive : List Word → Thread Byte (List Block)

/-- The masks of as many bins are handed out. -/
def MaskOtThreads.Delivers (threads : MaskOtThreads) (ot : MaskOt) : Prop :=
  ∀ rows items, rows.length = items.length →
    (threads.send rows).Meets (threads.receive items) (ot.sender rows) (ot.receiver items)

/-- The libraries on the connections. -/
structure CircuitThreads where
  hintOt : MaskOtThreads
  tableOt : MaskOtThreads
  equality : EqualityThreads

/-- The libraries hand out what a run says they do. -/
structure CircuitThreads.Delivers (threads : CircuitThreads) (ctx : CircuitContext)
    (lib : CircuitLibraries) (random : CircuitRandomness) : Prop where
  hintOt : threads.hintOt.Delivers lib.hintOt
  tableOt : threads.tableOt.Delivers lib.tableOt
  otpackArr : ∀ tid < 2, (threads.equality.otpackArr tid).Delivers (lib.otpackArr tid)
  batch : ctx.psmType = .psm1 → (Psm.batchEquality ctx.nbins ctx.bitlen ctx.radix).Delivers
    threads.equality (lib.otpackArr 0) random.batch
  words : ctx.psmType = .psm2 → threads.equality.Delivers lib.otpackArr random.thread ctx.bitlen
    ctx.radix (Psm.numCmps ctx.nbins)

/-! ## The two programs -/

/-- What the client draws itself, and what stands in its memory.  A slot of `table_opprf`
that is filled from beyond the masks holds `beyond`. -/
structure ClientCoins where
  batchMasks : List Bool
  masks : ℕ → List Bool
  tableContents : ℕ → Word
  nonces : ℕ → Block
  rounds : ℕ
  tableDummies : ℕ → Word
  unset : ℕ → Word
  storage : ℕ → Word
  beyond : ℕ → ℕ → Word

/-- What the server draws itself. -/
structure ServerCoins where
  contents : ℕ → Word
  hintDummies : ℕ → Word
  masks : ℕ → List Bool

section Programs

variable (ctx : CircuitContext) (h h' : HashFamily) (lib : CircuitLibraries)
  (threads : CircuitThreads)

/-- The constructors of `otpackArr`. -/
def otpackSetups (party : Party) : CircuitProgram Unit := do
  Program.onLine (.netIo (.ioArr 0)) ((threads.equality.otpackArr 0).setup party)
  Program.onLine (.netIo (.ioArr 1)) ((threads.equality.otpackArr 1).setup party.other)

/-- `perform_equality` on the connections of `run_circuit_psi`. -/
def compareContents (party : Party) (masks : ℕ → List Bool) (contents : List Word) :
    CircuitProgram (Except String (List Byte)) :=
  (performEqualityProgram lib.wan lib.packing threads.equality party masks contents ctx.bitlen
    ctx.radix (Psm.numCmps ctx.nbins)).relabel .netIo .bytes ThreadResult.toBytes

/-- `table_opprf`. -/
def tableOpprf (beyond : ℕ → ℕ → Word) (rows : List MaskRow) : List Word :=
  rowMajor rows.length 4 fun i j =>
    ((rows[i]?.bind fun row => row.slots.getD j none)).getD (beyond i j)

/-- The second mode of the client, from the masks of its table on. -/
def clientTable (coins : ClientCoins) (tableMasks : List (List Block)) :
    CircuitProgram (Except String (List Byte)) :=
  let bins := tableMasks.mapIdx fun i masks =>
    { masks := masks, content := coins.tableContents i : MaskedBin }
  match maskTable lib.hashToPosition coins.nonces coins.tableDummies coins.rounds
    (Psm.numCmps ctx.nbins) bins with
  | .error e => return .error e
  | .ok rows => do
      Program.onLine .sock (sendBlocks (rows.map MaskRow.nonce))
      Program.onLine .sock (sendWords (tableOpprf coins.beyond rows))
      compareContents ctx lib threads .alice coins.masks
        ((List.range ctx.nbins).map coins.tableContents ++
          List.replicate (Psm.pad ctx.nbins .alice) (Psm.value .alice))

/-- The comparison of the client. -/
def clientCompare (coins : ClientCoins) (candidates : ℕ → ℕ → Word) :
    CircuitProgram (Except String (List Byte)) :=
  match ctx.psmType with
  | .psm1 =>
      let storage := writeAll (fun p => p.1 * ctx.ffuns + p.2) (fun p => candidates p.1 p.2)
        (rowMajor ctx.nbins ctx.ffuns Prod.mk)
        ((List.range (3 * Psm.numCmps ctx.nbins)).map coins.storage)
      performBatchEqualityProgram lib.wan lib.packing threads.equality
        (Psm.batchEquality ctx.nbins ctx.bitlen ctx.radix) .alice coins.batchMasks
        (Psm.clientContents ctx.nbins fun i m => storage.getD (i * 3 + m) 0)
  | .psm2 => do
      let opprfValues := (List.range ctx.nbins).map fun i =>
        (List.range ctx.ffuns).map (candidates i)
      let tableMasks ← Program.onLine .chl (threads.tableOt.send opprfValues)
      clientTable ctx lib threads coins tableMasks

/-- The client from the hints on. -/
def clientHints (coins : ClientCoins) (cuckooTableV : List Word) (masks : List Block)
    (garbledCuckooFilter : List Word) : CircuitProgram (Except String (List Byte)) :=
  let garbledCuckooTable := CuckooTable.withElements ctx.fbins ctx.ffuns 200 cuckooTableV
  Program.onOk (garbledCuckooTable.getElementAddresses h') fun addresses => do
    otpackSetups threads .alice
    clientCompare ctx lib threads coins (candidate ctx lib garbledCuckooFilter addresses masks)

/-- The client from its table on. -/
def clientExchange (coins : ClientCoins) (cuckooTableV : List Word) :
    CircuitProgram (Except String (List Byte)) := do
  let masks ← Program.onLine .chl (threads.hintOt.receive cuckooTableV)
  let garbledCuckooFilter ← Program.onLine .sock (receiveWords ctx.fbins)
  clientHints ctx h' lib threads coins cuckooTableV masks garbledCuckooFilter

/-- `run_circuit_psi` of the client: its `res_shares`. -/
def circuitClient (coins : ClientCoins) (inputs : List Word) :
    CircuitProgram (Except String (List Byte)) :=
  Program.onOk ((CuckooTable.withElements ctx.nbins ctx.nfuns 200 inputs).mapElements h)
    fun cuckooTable =>
      Program.onOk (cuckooTable.asRawVector coins.unset) (clientExchange ctx h' lib threads coins)

/-- The comparison of the server. -/
def serverCompare (coins : ServerCoins) : CircuitProgram (Except String (List Byte)) :=
  match ctx.psmType with
  | .psm1 =>
      performBatchEqualityProgram lib.wan lib.packing threads.equality
        (Psm.batchEquality ctx.nbins ctx.bitlen ctx.radix) .bob []
        (Psm.serverContents ctx.nbins coins.contents)
  | .psm2 => do
      let masksWithDummies ← Program.onLine .chl
        (threads.tableOt.receive ((List.range ctx.nbins).map coins.contents))
      let paddingVals ← Program.onLine .sock (receiveBlocks ctx.nbins)
      let table ← Program.onLine .sock (receiveWords (ctx.nbins * 4))
      let actual i :=
        let mask := masksWithDummies.getD i 0
        mask.low ^^^ table.getD (i * 4 +
          (bitaddress lib.hashToPosition (paddingVals.getD i 0) mask).toNat) 0
      compareContents ctx lib threads .bob coins.masks (Psm.serverContents ctx.nbins actual)

/-- The server from its masks on. -/
def serverHints (coins : ServerCoins) (simpleTableV : List (List Word))
    (masks : List (List Block)) : CircuitProgram (Except String (List Byte)) :=
  Program.onOk ((hintCuckooTable ctx.fbins ctx.ffuns simpleTableV).mapElements h')
    fun hintTable =>
      let sources : HintSources :=
        { contentOfBins := coins.contents
          masks := fun i j => (masks.getD i []).getD j 0
          prng := lib.prng
          prngo := coins.hintDummies }
      Program.onOk (sources.garbledCuckooFilter ctx.fbins simpleTableV hintTable)
        fun garbledCuckooFilter => do
          Program.onLine .sock (sendWords garbledCuckooFilter)
          otpackSetups threads .bob
          serverCompare ctx lib threads coins

/-- The server from its table on. -/
def serverExchange (coins : ServerCoins) (simpleTableV : List (List Word)) :
    CircuitProgram (Except String (List Byte)) := do
  let masks ← Program.onLine .chl (threads.hintOt.send simpleTableV)
  serverHints ctx h' lib threads coins simpleTableV masks

/-- `run_circuit_psi` of the server. -/
def circuitServer (coins : ServerCoins) (inputs : List Word) :
    CircuitProgram (Except String (List Byte)) :=
  Program.onOk (simpleTableItems h ctx.nbins ctx.nfuns inputs)
    (serverExchange ctx h' lib threads coins)

end Programs

/-! ## The parties in step -/

theorem CircuitContext.Supported.numDigits_pos {ctx : CircuitContext} (h : ctx.Supported) (n : ℕ) :
    0 < Equality.numDigits { l := ctx.bitlen, beta := ctx.radix, numCmps := n } :=
  Equality.Valid.numDigits_pos ⟨h.radix.1, h.radix.2, h.bitlen.1, h.bitlen.2⟩

/-- What the client draws in a run. -/
def CircuitRandomness.client (random : CircuitRandomness) (masks : ℕ → List Bool)
    (beyond : ℕ → ℕ → Word) : ClientCoins where
  batchMasks := random.batch.masks
  masks := masks
  tableContents := random.tableContents
  nonces := random.nonces
  rounds := random.rounds
  tableDummies := random.tableDummies
  unset := random.unset
  storage := random.storage
  beyond := beyond

/-- What the server draws in a run. -/
def CircuitRandomness.server (random : CircuitRandomness) (masks : ℕ → List Bool) :
    ServerCoins where
  contents := random.contents
  hintDummies := random.hintDummies
  masks := masks

/-- The mask of the server for a bin, in the second mode. -/
def serverMask (ctx : CircuitContext) (lib : CircuitLibraries) (random : CircuitRandomness)
    (i : ℕ) : Block :=
  (lib.tableOt.receiver ((List.range ctx.nbins).map random.contents)).getD i 0

/-- What the server reads from a slot that is filled from beyond the masks is what stands
there. -/
def ReadsBeyond (ctx : CircuitContext) (lib : CircuitLibraries) (random : CircuitRandomness)
    (beyond : ℕ → ℕ → Word) (candidates : ℕ → ℕ → Word) : Prop :=
  ctx.psmType = .psm2 → ∀ rows,
    maskRows lib.hashToPosition random.nonces random.tableDummies random.rounds
      (maskedBins ctx lib random candidates) 0 0 = some rows → ∀ (i : ℕ) row, rows[i]? = some row →
        random.stray i = (serverMask ctx lib random i).low ^^^ beyond i
          (bitaddress lib.hashToPosition row.nonce (serverMask ctx lib random i)).toNat

section Meets

variable {ctx : CircuitContext} {h h' : HashFamily} {lib : CircuitLibraries}
  {threads : CircuitThreads} {random : CircuitRandomness} {masksClient masksServer : ℕ → List Bool}
  {beyond : ℕ → ℕ → Word}

theorem otpackSetups_meets (hthreads : threads.Delivers ctx lib random) :
    (otpackSetups threads .alice).Meets (otpackSetups threads .bob) () () := by
  refine (Program.Meets.onLine (Connection.netIo (.ioArr 0))
    (hthreads.otpackArr 0 (by decide)).setup).bind ?_
  -- the roles are exchanged on the second connection
  exact Program.Meets.onLine (Connection.netIo (.ioArr 1))
    (hthreads.otpackArr 1 (by decide)).setup.symm

theorem compareContents_meets (hthreads : threads.Delivers ctx lib random)
    (hmode : ctx.psmType = .psm2)
    (hnd : ∀ n, 0 < Equality.numDigits { l := ctx.bitlen, beta := ctx.radix, numCmps := n })
    (hmasks : DrawMasks random.thread masksClient masksServer)
    {contentsClient contentsServer : List Word} {resClient resServer : List Byte}
    (hres : performEquality .int lib.wan lib.packing lib.otpackArr random.thread contentsClient
      contentsServer ctx.bitlen ctx.radix (Psm.numCmps ctx.nbins) = .ok (resClient, resServer)) :
    (compareContents ctx lib threads .alice masksClient contentsClient).Meets
      (compareContents ctx lib threads .bob masksServer contentsServer) (.ok resClient)
      (.ok resServer) := by
  have hmeets := performEqualityProgram_meets lib.packing lib.wan hnd (hthreads.words hmode) hmasks
    contentsClient contentsServer
  rw [hres] at hmeets
  exact hmeets.relabel Connection.netIo fun _ => rfl

theorem length_tableOpprf (beyond : ℕ → ℕ → Word) (rows : List MaskRow) :
    (tableOpprf beyond rows).length = rows.length * 4 :=
  length_rowMajor ..

/-- The words of the mask table at a bin. -/
theorem getD_tableOpprf {rows : List MaskRow} {i j : ℕ} {row : MaskRow} (hrow : rows[i]? = some row)
    (hj : j < 4) : (tableOpprf beyond rows).getD (i * 4 + j) 0 =
      (row.slots.getD j none).getD (beyond i j) := by
  obtain ⟨hi, -⟩ := List.getElem?_eq_some_iff.mp hrow
  rw [tableOpprf, getD_rowMajor _ _ hi hj, hrow]
  rfl

/-- What the server finds in the table it has received. -/
theorem actualContents_of_received {candidates : ℕ → ℕ → Word} {rows : List MaskRow}
    (hmode : ctx.psmType = .psm2)
    (hrows : maskRows lib.hashToPosition random.nonces random.tableDummies random.rounds
      (maskedBins ctx lib random candidates) 0 0 = some rows)
    (hbeyond : ReadsBeyond ctx lib random beyond candidates) {i : ℕ} (hi : i < rows.length) :
    (serverMask ctx lib random i).low ^^^ (tableOpprf beyond rows).getD (i * 4 +
        (bitaddress lib.hashToPosition ((rows.map MaskRow.nonce).getD i 0)
          (serverMask ctx lib random i)).toNat) 0 = actualContents ctx lib random rows i := by
  have hrow : rows[i]? = some rows[i] := List.getElem?_eq_getElem hi
  have hnonce : (rows.map MaskRow.nonce).getD i 0 = rows[i].nonce :=
    getD_map_of_getElem? MaskRow.nonce 0 hrow
  have hstray := hbeyond hmode rows hrows i _ hrow
  have hlookUp : actualContents ctx lib random rows i =
      (rows[i].lookUp lib.hashToPosition (serverMask ctx lib random i)).getD (random.stray i) := by
    rw [actualContents, hrow]
    rfl
  rw [hnonce, getD_tableOpprf hrow (bitaddress_lt ..), hlookUp, MaskRow.lookUp]
  cases rows[i].slots.getD (bitaddress lib.hashToPosition rows[i].nonce
    (serverMask ctx lib random i)).toNat none with
  | none => exact hstray.symm
  | some w => rfl

/-- The second mode of both parties. -/
theorem table_meets (hctx : ctx.Supported) (hlib : lib.Lawful ctx random)
    (hthreads : threads.Delivers ctx lib random) (hmode : ctx.psmType = .psm2)
    (hmasks : DrawMasks random.thread masksClient masksServer) {candidates : ℕ → ℕ → Word}
    (hbeyond : ReadsBeyond ctx lib random beyond candidates) {rows : List MaskRow}
    (hrows : maskRows lib.hashToPosition random.nonces random.tableDummies random.rounds
      (maskedBins ctx lib random candidates) 0 0 = some rows) {resClient resServer : List Byte}
    (hres : performEquality .int lib.wan lib.packing lib.otpackArr random.thread
      ((List.range ctx.nbins).map random.tableContents ++
        List.replicate (Psm.pad ctx.nbins .alice) (Psm.value .alice))
      (Psm.serverContents ctx.nbins (actualContents ctx lib random rows)) ctx.bitlen ctx.radix
      (Psm.numCmps ctx.nbins) = .ok (resClient, resServer)) :
    (clientCompare ctx lib threads (random.client masksClient beyond) candidates).Meets
      (serverCompare ctx lib threads (random.server masksServer)) (.ok resClient)
      (.ok resServer) := by
  let opprfValues := (List.range ctx.nbins).map fun i => (List.range ctx.ffuns).map (candidates i)
  let contents := (List.range ctx.nbins).map random.contents
  have hbins : rows.length = ctx.nbins := by
    obtain ⟨F, hsender, -⟩ := hlib.tableOt
    rw [← (maskRows_filled hrows).length_eq, maskedBins, List.length_mapIdx, hsender,
      List.length_mapIdx, List.length_map, List.length_range]
  have hot := hthreads.tableOt opprfValues contents (by simp [opprfValues, contents])
  have hnonces := sendBlocks_meets (rows.map MaskRow.nonce)
  rw [List.length_map, hbins] at hnonces
  have htable := sendWords_meets (tableOpprf beyond rows)
  rw [length_tableOpprf, hbins] at htable
  have hactual : Psm.serverContents ctx.nbins (fun i => (serverMask ctx lib random i).low ^^^
      (tableOpprf beyond rows).getD (i * 4 +
        (bitaddress lib.hashToPosition ((rows.map MaskRow.nonce).getD i 0)
          (serverMask ctx lib random i)).toNat) 0) =
        Psm.serverContents ctx.nbins (actualContents ctx lib random rows) := by
    rw [Psm.serverContents, Psm.serverContents]
    congr 1
    apply List.map_congr_left
    intro i hi
    exact actualContents_of_received hmode hrows hbeyond (hbins ▸ List.mem_range.mp hi)
  rw [clientCompare, serverCompare, hmode]
  refine (Program.Meets.onLine Connection.chl hot).bind ?_
  have hclient : clientTable ctx lib threads (random.client masksClient beyond)
      (lib.tableOt.sender opprfValues) = (do
        Program.onLine .sock (sendBlocks (rows.map MaskRow.nonce))
        Program.onLine .sock (sendWords (tableOpprf beyond rows))
        compareContents ctx lib threads .alice masksClient
          ((List.range ctx.nbins).map random.tableContents ++
            List.replicate (Psm.pad ctx.nbins .alice) (Psm.value .alice))) := by
    rw [clientTable]
    have hbinsEq : (lib.tableOt.sender opprfValues).mapIdx (fun i masks =>
        { masks := masks, content := random.tableContents i : MaskedBin }) =
          maskedBins ctx lib random candidates := rfl
    simp only [CircuitRandomness.client, hbinsEq, maskTable_eq (hctx.tableSize hmode) hrows]
  rw [hclient]
  refine (Program.Meets.onLine Connection.sock hnonces).bind ?_
  refine (Program.Meets.onLine Connection.sock htable).bind ?_
  rw [← hactual] at hres
  exact compareContents_meets hthreads hmode hctx.numDigits_pos hmasks hres

/-- The comparison of both parties. -/
theorem compare_meets (hctx : ctx.Supported) (hlib : lib.Lawful ctx random)
    (hthreads : threads.Delivers ctx lib random)
    (hmasks : DrawMasks random.thread masksClient masksServer) {candidates : ℕ → ℕ → Word}
    (hbeyond : ReadsBeyond ctx lib random beyond candidates) {resClient resServer : List Byte}
    (hres : compareBins ctx lib random candidates = .ok (resClient, resServer)) :
    (clientCompare ctx lib threads (random.client masksClient beyond) candidates).Meets
      (serverCompare ctx lib threads (random.server masksServer)) (.ok resClient)
      (.ok resServer) := by
  cases hmode : ctx.psmType with
  | psm1 =>
      let cells : ℕ → ℕ → Word := fun i m =>
        (clientStorage ctx random candidates).getD (i * 3 + m) 0
      have hmeets := performBatchEqualityProgram_meets lib.wan lib.packing
        (hctx.numDigits_pos (Psm.numCmps ctx.nbins)) (hthreads.batch hmode) []
        (Psm.clientContents ctx.nbins cells) (Psm.serverContents ctx.nbins random.contents)
      rw [compareBins, hmode] at hres
      have hrun : (Psm.batchEquality ctx.nbins ctx.bitlen ctx.radix).run lib.wan lib.packing
          (lib.otpackArr 0) random.batch (Psm.clientContents ctx.nbins cells)
          (Psm.serverContents ctx.nbins random.contents) = .ok (resClient, resServer) := hres
      rw [hrun] at hmeets
      rw [clientCompare, serverCompare, hmode]
      exact hmeets
  | psm2 =>
      rw [compareBins, hmode] at hres
      cases hrows : maskRows lib.hashToPosition random.nonces random.tableDummies random.rounds
        (maskedBins ctx lib random candidates) 0 0 with
      | none =>
          rw [maskTable_eq_error (hctx.tableSize hmode) hrows] at hres
          cases hres
      | some rows =>
          rw [maskTable_eq (hctx.tableSize hmode) hrows] at hres
          exact table_meets hctx hlib hthreads hmode hmasks hbeyond hrows hres

/-- The parts of a run that ends. -/
theorem runCircuitPsi_inv {client server : List Word} {run : CircuitRun}
    (hrun : runCircuitPsi ctx h h' lib random client server = .ok run) :
    ∃ garbledCuckooFilter addresses,
      (CuckooTable.withElements ctx.nbins ctx.nfuns 200 client).mapElements h =
        .ok run.cuckooTable ∧
      run.cuckooTable.asRawVector random.unset = .ok run.cuckooTableV ∧
      simpleTableItems h ctx.nbins ctx.nfuns server = .ok run.simpleTableV ∧
      (hintCuckooTable ctx.fbins ctx.ffuns run.simpleTableV).mapElements h' = .ok run.hintTable ∧
      (hintSources lib random run.simpleTableV).garbledCuckooFilter ctx.fbins run.simpleTableV
        run.hintTable = .ok garbledCuckooFilter ∧
      (CuckooTable.withElements ctx.fbins ctx.ffuns 200 run.cuckooTableV).getElementAddresses h' =
        .ok addresses ∧
      run.candidates = candidate ctx lib garbledCuckooFilter addresses
        (lib.hintOt.receiver run.cuckooTableV) ∧
      compareBins ctx lib random run.candidates = .ok (run.resClient, run.resServer) := by
  rw [runCircuitPsi] at hrun
  obtain ⟨cuckooTable, htable, hrun⟩ := ok_of_bind hrun
  obtain ⟨cuckooTableV, hv, hrun⟩ := ok_of_bind hrun
  obtain ⟨simpleTableV, hrows, hrun⟩ := ok_of_bind hrun
  obtain ⟨hintTable, hhints, hrun⟩ := ok_of_bind hrun
  obtain ⟨garbledCuckooFilter, hfilter, hrun⟩ := ok_of_bind hrun
  obtain ⟨addresses, haddresses, hrun⟩ := ok_of_bind hrun
  obtain ⟨res, hres, hrun⟩ := ok_of_bind hrun
  cases hrun
  exact ⟨garbledCuckooFilter, addresses, htable, hv, hrows, hhints, hfilter, haddresses, rfl, hres⟩

theorem length_garbledCuckooFilter {s : HintSources} {fbins : ℕ} {rows : List (List Word)}
    {t : CuckooTable} {filter : List Word} (h : s.garbledCuckooFilter fbins rows t = .ok filter) :
    filter.length = fbins := by
  rw [HintSources.garbledCuckooFilter] at h
  split at h
  · cases h
  · rename_i hroom
    cases h
    rw [HintSources.length_fill, List.length_take_of_le (not_lt.mp hroom)]

/-- The two programs in step compute a run that ends. -/
theorem runCircuitPsi_meets (hctx : ctx.Supported) (hlib : lib.Lawful ctx random)
    (hthreads : threads.Delivers ctx lib random)
    (hmasks : DrawMasks random.thread masksClient masksServer) {client server : List Word}
    {run : CircuitRun}
    (hrun : runCircuitPsi ctx h h' lib random client server = .ok run)
    (hbeyond : ReadsBeyond ctx lib random beyond run.candidates) :
    (circuitClient ctx h h' lib threads (random.client masksClient beyond) client).Meets
      (circuitServer ctx h h' lib threads (random.server masksServer) server)
      (.ok run.resClient) (.ok run.resServer) := by
  obtain ⟨garbledCuckooFilter, addresses, htable, hv, hrows, hhints, hfilter, haddresses,
    hcandidates, hres⟩ := runCircuitPsi_inv hrun
  have hbins : run.simpleTableV.length = run.cuckooTableV.length := by
    obtain ⟨v, hv', hlen, -⟩ := asRawVector_bins htable random.unset
    cases hv.symm.trans hv'
    have hrows' := hrows
    rw [simpleTableItems_eq h hctx.nbins_pos] at hrows'
    rw [hlen, ← Except.ok.inj hrows', length_buckets]
  have hot := hthreads.hintOt run.simpleTableV run.cuckooTableV hbins
  have hwords := sendWords_meets garbledCuckooFilter
  rw [length_garbledCuckooFilter hfilter] at hwords
  have hcompare := compare_meets hctx hlib hthreads hmasks hbeyond hres
  have hclient : circuitClient ctx h h' lib threads (random.client masksClient beyond) client =
      clientExchange ctx h' lib threads (random.client masksClient beyond) run.cuckooTableV :=
    (Program.onOk_eq htable _).trans (Program.onOk_eq hv _)
  have hserver : circuitServer ctx h h' lib threads (random.server masksServer) server =
      serverExchange ctx h' lib threads (random.server masksServer) run.simpleTableV :=
    Program.onOk_eq hrows _
  have hclientHints : clientHints ctx h' lib threads (random.client masksClient beyond)
      run.cuckooTableV (lib.hintOt.receiver run.cuckooTableV) garbledCuckooFilter = (do
        otpackSetups threads .alice
        clientCompare ctx lib threads (random.client masksClient beyond) run.candidates) := by
    rw [hcandidates]
    exact Program.onOk_eq haddresses _
  have hserverHints : serverHints ctx h' lib threads (random.server masksServer) run.simpleTableV
      (lib.hintOt.sender run.simpleTableV) = (do
        Program.onLine .sock (sendWords garbledCuckooFilter)
        otpackSetups threads .bob
        serverCompare ctx lib threads (random.server masksServer)) :=
    (Program.onOk_eq hhints _).trans (Program.onOk_eq hfilter _)
  rw [hclient, hserver, clientExchange, serverExchange]
  refine (Program.Meets.onLine Connection.chl hot.symm).bind ?_
  rw [hserverHints]
  refine (Program.Meets.onLine Connection.sock hwords.symm).bind ?_
  rw [hclientHints]
  exact (otpackSetups_meets hthreads).bind hcompare

end Meets

/-! ## A run in any order of steps -/

section Session

variable {ctx : CircuitContext} (hctx : ctx.Supported) {h h' : HashFamily}
  {lib : CircuitLibraries} {random : CircuitRandomness} (hlib : lib.Lawful ctx random)
  {client server : List Word} (hinputs : CircuitInputs ctx random.unset client server)
  {threads : CircuitThreads} (hthreads : threads.Delivers ctx lib random)
  {masksClient masksServer : ℕ → List Bool}
  (hmasks : DrawMasks random.thread masksClient masksServer) {beyond : ℕ → ℕ → Word}
  {room : Role × Connection → ℕ} (hroom : ∀ k, 0 < room k) {run : CircuitRun}
  (hrun : runCircuitPsi ctx h h' lib random client server = .ok run)
  (hbeyond : ReadsBeyond ctx lib random beyond run.candidates)

include hctx hlib hinputs hthreads hmasks hroom hrun hbeyond

end Session

/-- Masks that need no messages. -/
def itemOtThreads : MaskOtThreads where
  send rows := .done (itemOt.sender rows)
  receive items := .done (itemOt.receiver items)

def fourBinsThreads : CircuitThreads where
  hintOt := itemOtThreads
  tableOt := itemOtThreads
  equality := batchThreads

theorem fourBinsThreads_delivers :
    fourBinsThreads.Delivers (fourBins .psm1) plainLibraries fourBinsRandomness where
  hintOt _ _ _ := .done _ _
  tableOt _ _ _ := .done _ _
  otpackArr _ _ := selectPackThreads_delivers
  batch _ := batchThreads_delivers _
  words hmode := by cases hmode

end Sectric
