import Sectric.Equality.Interleaving
import Sectric.Psi.Transcript
import Sectric.Triangle.Count
import Sectric.Triangle.TableFile

/-!
# The private intersection in any order of steps

`psi_ca_receiver` and `psi_ca_sender` are programs of their own here.  The receiver
sends the number of bins, and is the client of the OPRF.  It receives the sender's
store, and compares its bins with the sender's masks.  It is the sender of the
transfer, and receives the sum.  Neither program sees what the other one holds, only
what comes over the connections: `io`, `io2`, and the three of the equality test.

Run in step, the two programs compute `psiCa`.  So however their steps and those of
their threads are ordered, and however few bytes the connections hold, both come to
their ends, and the receiver's number is the one of `psiCa` (`psiCa_endsIn`).
-/

namespace Sectric

open Lib Finset

variable {Seed : Type}

/-! ## Blocks and numbers on a connection -/

/-- `SendBlocks(data, size)`. -/
def sendBlocks (data : List Block) : Thread Byte Unit := .sendAll (blocksToBytes data)

/-- `ReceiveBlocks(data, size)`. -/
def receiveBlocks (size : ℕ) : Thread Byte (List Block) := do
  let bytes ← .receiveMany (size * 16)
  return bytesToBlocks bytes

/-- `SendBlock`. -/
def sendBlock (a : Block) : Thread Byte Unit := sendBlocks [a]

/-- `ReceiveBlock`. -/
def receiveBlock : Thread Byte Block := do
  let a ← receiveBlocks 1
  return a.getD 0 0

/-- `SendInteger` of a 64-bit number, and `SendBytes(&n, 8)`. -/
def sendInteger (n : ℕ) : Thread Byte Unit := .sendAll (sizeBytes n)

/-- `ReceiveInteger`, and `ReceiveBytes(&n, 8)`. -/
def receiveInteger : Thread Byte ℕ := do
  let bytes ← .receiveMany 8
  return sizeOfBytes bytes

theorem sendBlocks_meets (data : List Block) :
    (sendBlocks data).Meets (receiveBlocks data.length) () data := by
  have hmeets := (Thread.sendAll_meets (blocksToBytes data)).convert bytesToBlocks
  rwa [length_blocksToBytes, bytesToBlocks_blocksToBytes] at hmeets

theorem sendBlock_meets (a : Block) : (sendBlock a).Meets receiveBlock () a :=
  (sendBlocks_meets [a]).convert fun a => a.getD 0 0

theorem sendInteger_meets {n : ℕ} (h : n < 2 ^ 64) :
    (sendInteger n).Meets receiveInteger () n := by
  have hmeets := (Thread.sendAll_meets (sizeBytes n)).convert sizeOfBytes
  rwa [length_sizeBytes, sizeOfBytes_sizeBytes h] at hmeets

/-! ## The libraries -/

/-- The libraries on the connections of a session: `VOLE::VOLE_A` and `VOLE::VOLE_B`,
those of the equality test in a context of a given radix, and `IKNPOTE::Send` and
`IKNPOTE::Receive`. -/
structure PsiThreads where
  voleA : ℕ → Thread Byte (List Block × List Block)
  voleB : ℕ → Block → Thread Byte (List Block)
  equality : ℕ → EqualityThreads
  iknpSend : List Block → List Block → ℕ → Thread Byte Unit
  iknpReceive : List Byte → ℕ → Thread Byte (List Block)

/-- The libraries hand out what a session says they do. -/
structure PsiThreads.Delivers (threads : PsiThreads) (cfg : PsiConfig) (lib : Libraries Seed)
    (random : SessionRandomness Seed) : Prop where
  vole : (threads.voleA (lib.pp cfg).okvsOutputSize).Meets
    (threads.voleB (lib.pp cfg).okvsOutputSize random.Delta) (random.A, random.C) random.B
  equality : (threads.equality lib.radix).DeliversBlocks (lib.otpack lib.radix)
    (random.equality cfg.nbins) cfg.nbins
  iknpOt : ∀ m₀ m₁ choices n, m₀.length = n → m₁.length = n → choices.length = n →
    (threads.iknpSend m₀ m₁ n).Meets (threads.iknpReceive choices n) () (lib.iknpOt m₀ m₁ choices)

/-! ## The OPRF -/

/-- `VOLEOPRF::Client1`. -/
def client1Thread (threads : PsiThreads) (setSeed : Block → Seed) (pp : PP Seed)
    (vecX : List Block) (itemNum : ℕ) (seedR : Block) : Thread Byte (List Block) := do
  let (A, C) ← threads.voleA pp.okvsOutputSize
  let run := client1 setSeed pp vecX itemNum seedR A C
  sendBlock run.seedR
  sendBlocks run.masked
  return run.output

/-- `VOLEOPRF::Server1`. -/
def server1Thread (threads : PsiThreads) (setSeed : Block → Seed) (mul : Block → Block → Block)
    (pp : PP Seed) (Δ : Block) : Thread Byte (PP Seed × List Byte) := do
  let K ← threads.voleB pp.okvsOutputSize Δ
  let seedR ← receiveBlock
  let P ← receiveBlocks pp.okvsOutputSize
  return server1 setSeed mul pp Δ K seedR P

/-! ## The two programs -/

/-- A party that fails sends nothing more. -/
def onSuccess {α β : Type} (x : Except String α) (f : α → PartyProgram (Except String β)) :
    PartyProgram (Except String β) :=
  match x with
  | .error e => return .error e
  | .ok a => f a

theorem onSuccess_eq {α β : Type} {x : Except String α} {a : α} (h : x = .ok a)
    (f : α → PartyProgram (Except String β)) : onSuccess x f = f a := by
  rw [h, onSuccess]

/-- What the receiver draws itself. -/
structure ReceiverCoins where
  padding : ℕ → Word
  otR : ℕ → Block
  seedR : Block
  masks : ℕ → List Bool

/-- What the sender draws itself. -/
structure SenderCoins (Seed : Type) where
  okvsSeed : Seed
  Delta : Block
  masks : ℕ → List Bool

/-- `psi_ca_receiver` from the answers of the equality test on. -/
def receiverTransfer (threads : PsiThreads) (nbins : ℕ) (coins : ReceiverCoins) (vec : List Word)
    (idxs : List ℕ) (ck : List Block) (ans : List Byte) : PartyProgram (Except String Block) := do
  let values := List.replicate vec.length (1 : Word)
  let messages := (otMessages nbins (mapLookup vec values) idxs ck ans coins.otR).2
  let padRows := List.replicate (otPadding nbins) (0 : Block)
  let ot := (messages.1 ++ padRows, messages.2 ++ padRows)
  Program.onLine .io2 (threads.iknpSend ot.1 ot.2 (nbins + otPadding nbins))
  let psiCaAns := sumBlocks nbins fun i => otCell ot (ans.getD i 0) i
  let psiCaTmp ← Program.onLine .io2 receiveBlock
  return .ok (subWithBorrow psiCaTmp psiCaAns)

/-- `psi_ca_receiver` from the OPRF on. -/
def receiverExchange (cfg : PsiConfig) (lib : Libraries Seed) (threads : PsiThreads)
    (coins : ReceiverCoins) (vec : List Word) (idxs : List ℕ) (ck : List Block) :
    PartyProgram (Except String Block) := do
  let pp := lib.pp cfg
  let result ← Program.onLine .io (client1Thread threads lib.setSeed pp ck pp.inputNum coins.seedR)
  let baxos := lib.baxos cfg.okvsItems cfg.okvsBinSize
  let _ ← Program.onLine .io2 receiveInteger
  let okvs ← Program.onLine .io2 (receiveBlocks baxos.outputSize)
  let decoded := decodeResult baxos ck okvs result
  let eqInputs := eqBlocks cfg.nbins idxs decoded
  let ans ← performBlockEqualityProgram lib.wan lib.packing threads.equality lib.radix .alice
    coins.masks eqInputs
  onSuccess ans fun ans => receiverTransfer threads cfg.nbins coins vec idxs ck ans

/-- `psi_ca_receiver` from the padded list on. -/
def receiverBins (cfg : PsiConfig) (h : HashFamily) (lib : Libraries Seed) (threads : PsiThreads)
    (coins : ReceiverCoins) (vec : List Word) : PartyProgram (Except String Block) :=
  onSuccess (receiverTable cfg h vec) fun table =>
    onSuccess table.asRawVectorNoID fun raw =>
      receiverExchange cfg lib threads coins vec raw.1 raw.2

/-- `psi_ca_receiver`: the sum it reports. -/
def psiCaReceiver (cfg : PsiConfig) (h : HashFamily) (lib : Libraries Seed) (threads : PsiThreads)
    (coins : ReceiverCoins) (set : List Block) : PartyProgram (Except String Block) := do
  Program.onLine .io (sendInteger cfg.nbins)
  let vec := receiverVec cfg coins.padding set
  receiverBins cfg h lib threads coins vec

/-- `psi_ca_sender` from the answers of the equality test on. -/
def senderTransfer (threads : PsiThreads) (nbins : ℕ) (ans : List Byte) :
    PartyProgram (Except String Block) := do
  let choices := ans ++ List.replicate (otPadding nbins) 0
  let received ← Program.onLine .io2 (threads.iknpReceive choices choices.length)
  let psiCaAns := sumBlocks nbins fun i => received.getD i 0
  Program.onLine .io2 (sendBlock psiCaAns)
  return .ok psiCaAns

/-- `psi_ca_sender` from the OPRF on, with `send_baxos`. -/
def senderExchange (cfg : PsiConfig) (lib : Libraries Seed) (threads : PsiThreads)
    (coins : SenderCoins Seed) (nbins : ℕ) (randomValues : List Block) (rows : List (List Block)) :
    PartyProgram (Except String Block) := do
  let keys := rows.flatten
  let (pp, oprfKey) ← Program.onLine .io
    (server1Thread threads lib.setSeed lib.gf128Mul (lib.pp cfg) coins.Delta)
  let oprfResult := evaluate1 pp oprfKey keys keys.length
  let values := maskValues randomValues rows oprfResult
  let okvs := (lib.baxos cfg.okvsItems cfg.okvsBinSize).solve keys values (some coins.okvsSeed)
  Program.onLine .io2 (sendInteger cfg.okvsItems)
  Program.onLine .io2 (sendBlocks okvs)
  let ans ← performBlockEqualityProgram lib.wan lib.packing threads.equality lib.radix .bob
    coins.masks randomValues
  onSuccess ans fun ans => senderTransfer threads nbins ans

/-- `psi_ca_sender` from the number of bins on. -/
def senderBins (cfg : PsiConfig) (h : HashFamily) (prg : Prg Seed) (lib : Libraries Seed)
    (threads : PsiThreads) (coins : SenderCoins Seed) (set : List Block) (nbins : ℕ) :
    PartyProgram (Except String Block) :=
  let randomValues := prg.genRandomBlocks (prg.fixedSeed 0) nbins
  onSuccess (senderRows cfg h nbins set) fun rows =>
    senderExchange cfg lib threads coins nbins randomValues rows

/-- `psi_ca_sender`: the sum it sends. -/
def psiCaSender (cfg : PsiConfig) (h : HashFamily) (prg : Prg Seed) (lib : Libraries Seed)
    (threads : PsiThreads) (coins : SenderCoins Seed) (set : List Block) :
    PartyProgram (Except String Block) := do
  let nbins ← Program.onLine .io receiveInteger
  senderBins cfg h prg lib threads coins set nbins

/-! ## The parties in step -/

/-- What the receiver draws in a session. -/
def SessionRandomness.receiver (random : SessionRandomness Seed) (masks : ℕ → List Bool) :
    ReceiverCoins where
  padding := random.padding
  otR := random.otR
  seedR := random.seedR
  masks := masks

/-- What the sender draws in a session. -/
def SessionRandomness.sender (random : SessionRandomness Seed) (masks : ℕ → List Bool) :
    SenderCoins Seed where
  okvsSeed := random.okvsSeed
  Delta := random.Delta
  masks := masks

section Meets

variable {cfg : PsiConfig} {h : HashFamily} {prg : Prg Seed} {lib : Libraries Seed}
  {random : SessionRandomness Seed} {receiverSet senderSet : List Block}

/-- What comes first has succeeded where the whole has. -/
theorem ok_of_bind {α β : Type} {x : Except String α} {f : α → Except String β} {b : β}
    (h : x >>= f = .ok b) : ∃ a, x = .ok a ∧ f a = .ok b := by
  cases x with
  | error e => cases h
  | ok a => exact ⟨a, rfl, h⟩

/-- The parts of a run that ends. -/
theorem psiCa_inv {run : PsiRun}
    (hrun : psiCa cfg h prg (lib.subprotocols cfg random .int) random.toPsiRandomness receiverSet
      senderSet = .ok run) :
    ∃ table idxs ck rows ansReceiver ansSender,
      receiverTable cfg h (receiverVec cfg random.padding receiverSet) = .ok table ∧
      table.asRawVectorNoID = .ok (idxs, ck) ∧
      senderRows cfg h cfg.nbins senderSet = .ok rows ∧
      let bins := psiBins cfg.nbins (lib.baxos cfg.okvsItems cfg.okvsBinSize) prg
        (lib.subprotocols cfg random .int) random.toPsiRandomness
        (receiverVec cfg random.padding receiverSet) table idxs ck rows
      performBlockEquality .int lib.wan lib.packing lib.otpack lib.radix
          (random.equality bins.eqInputs.length) bins.eqInputs bins.randomValues =
            .ok (ansReceiver, ansSender) ∧
        run = bins.finish cfg.nbins (lib.subprotocols cfg random .int) random.toPsiRandomness
          ansReceiver ansSender := by
  rw [psiCa] at hrun
  obtain ⟨table, htable, hrun⟩ := ok_of_bind hrun
  obtain ⟨⟨idxs, ck⟩, hraw, hrun⟩ := ok_of_bind hrun
  obtain ⟨rows, hrows, hrun⟩ := ok_of_bind hrun
  obtain ⟨⟨ansReceiver, ansSender⟩, hanswers, hrun⟩ := ok_of_bind hrun
  exact ⟨table, idxs, ck, rows, ansReceiver, ansSender, htable, hraw, hrows, hanswers,
    (Except.ok.inj hrun).symm⟩

theorem client1Thread_meets {threads : PsiThreads} (hthreads : threads.Delivers cfg lib random)
    (ck : List Block) :
    (client1Thread threads lib.setSeed (lib.pp cfg) ck (lib.pp cfg).inputNum random.seedR).Meets
      (server1Thread threads lib.setSeed lib.gf128Mul (lib.pp cfg) random.Delta)
      (lib.client cfg random ck).output (lib.server cfg random (lib.client cfg random ck)) := by
  refine hthreads.vole.bind ((sendBlock_meets _).bind ?_)
  have hmasked := sendBlocks_meets (lib.client cfg random ck).masked
  rw [length_masked] at hmasked
  exact hmasked.bind (.done _ _)

theorem length_otMessages (weight : Word → Word) (idxs : List ℕ) (ck : List Block) {ans : List Byte}
    (otR : ℕ → Block) (hans : AllBits ans) (nbins : ℕ) :
    (otMessages nbins weight idxs ck ans otR).2.1.length = nbins ∧
      (otMessages nbins weight idxs ck ans otR).2.2.length = nbins := by
  induction nbins with
  | zero => exact ⟨rfl, rfl⟩
  | succ n ih =>
      rw [otMessages, List.range_succ, List.foldl_append, ← otMessages, List.foldl_cons,
        List.foldl_nil]
      dsimp only
      split
      · exact length_otPush_both ih.1 ih.2 (hans n) ..
      · exact length_otPush_both ih.1 ih.2 (hans n) ..

/-- The transfer of two parties. -/
theorem transfer_meets {threads : PsiThreads} (hthreads : threads.Delivers cfg lib random)
    (masks : ℕ → List Bool) {nbins : ℕ} (bins : PsiBins) {ansReceiver ansSender : List Byte}
    (hbits : AllBits ansReceiver) (hlen : ansSender.length = nbins) :
    let run := bins.finish nbins (lib.subprotocols cfg random .int) random.toPsiRandomness
      ansReceiver ansSender
    (receiverTransfer threads nbins (random.receiver masks) bins.vec bins.idxs bins.ck
      ansReceiver).Meets (senderTransfer threads nbins ansSender) (.ok run.blockAns)
      (.ok run.psiCaTmp) := by
  intro run
  have hpad : ∀ {α : Type} (xs : List α) (a : α), xs.length = nbins →
      (xs ++ List.replicate (otPadding nbins) a).length = nbins + otPadding nbins := by
    intro α xs a hxs
    rw [List.length_append, hxs, List.length_replicate]
  obtain ⟨hlen₀, hlen₁⟩ := length_otMessages (mapLookup bins.vec
    (List.replicate bins.vec.length (1 : Word))) bins.idxs bins.ck random.otR hbits nbins
  have hchoices : run.choices.length = nbins + otPadding nbins := hpad ansSender 0 hlen
  have hiknp := hthreads.iknpOt run.ot.1 run.ot.2 run.choices _ (hpad _ 0 hlen₀) (hpad _ 0 hlen₁)
    hchoices
  rw [receiverTransfer, senderTransfer]
  refine Program.Meets.bind (?_ : Program.Meets _ _ () run.received) ?_
  · refine Program.Meets.onLine Channel.io2 ?_
    rw [hpad ansSender 0 hlen]
    exact hiknp
  · refine (Program.Meets.onLine Channel.io2 (sendBlock_meets run.psiCaTmp).symm).bind ?_
    exact .done _ _

/-- The exchange of two parties, from the OPRF on. -/
theorem exchange_meets {threads : PsiThreads} (hthreads : threads.Delivers cfg lib random)
    {masksReceiver masksSender : ℕ → List Bool} {nbins : ℕ} (hnbins : cfg.nbins = nbins)
    (hmasks : DrawMasks (random.equality nbins).thread masksReceiver masksSender)
    {vec : List Word} {table : CuckooTable} {idxs : List ℕ} {ck : List Block}
    {rows : List (List Block)} {bins : PsiBins}
    (hbins : bins = psiBins nbins (lib.baxos cfg.okvsItems cfg.okvsBinSize) prg
      (lib.subprotocols cfg random .int) random.toPsiRandomness vec table idxs ck rows)
    {ansReceiver ansSender : List Byte}
    (hanswers : performBlockEquality .int lib.wan lib.packing lib.otpack lib.radix
      (random.equality bins.eqInputs.length) bins.eqInputs bins.randomValues =
        .ok (ansReceiver, ansSender))
    (hbits : AllBits ansReceiver) (hlen : ansSender.length = nbins) :
    let run := bins.finish nbins (lib.subprotocols cfg random .int) random.toPsiRandomness
      ansReceiver ansSender
    (receiverExchange cfg lib threads (random.receiver masksReceiver) vec idxs ck).Meets
      (senderExchange cfg lib threads (random.sender masksSender) nbins
        (prg.genRandomBlocks (prg.fixedSeed 0) nbins) rows)
      (.ok run.blockAns) (.ok run.psiCaTmp) := by
  intro run
  subst hbins
  let bins := psiBins nbins (lib.baxos cfg.okvsItems cfg.okvsBinSize) prg
    (lib.subprotocols cfg random .int) random.toPsiRandomness vec table idxs ck rows
  have hinputs : bins.eqInputs.length = nbins := length_eqBlocks ..
  have hvalues : bins.randomValues.length = nbins := Prg.length_genRandomBlocks ..
  have hitems : cfg.okvsItems < 2 ^ 64 := Nat.mod_lt _ (by decide)
  have hokvs := sendBlocks_meets bins.okvs
  rw [show bins.okvs.length = _ from Baxos.length_solve ..] at hokvs
  have hdelivers := hthreads.equality
  rw [hnbins, ← hinputs] at hdelivers
  rw [← hinputs] at hmasks
  have hequality := performBlockEqualityProgram_meets lib.packing lib.wan
    hdelivers (hvalues.trans hinputs.symm) hmasks
  rw [hanswers] at hequality
  rw [receiverExchange, senderExchange, hnbins]
  refine (Program.Meets.onLine Channel.io (client1Thread_meets hthreads ck)).bind ?_
  refine (Program.Meets.onLine Channel.io2 (sendInteger_meets hitems).symm).bind ?_
  refine (Program.Meets.onLine Channel.io2 hokvs.symm).bind ?_
  refine hequality.bind ?_
  exact transfer_meets hthreads masksReceiver bins hbits hlen

theorem receiverBins_eq {threads : PsiThreads} {coins : ReceiverCoins} {vec : List Word}
    {table : CuckooTable} {idxs : List ℕ} {ck : List Block}
    (htable : receiverTable cfg h vec = .ok table) (hraw : table.asRawVectorNoID = .ok (idxs, ck)) :
    receiverBins cfg h lib threads coins vec =
      receiverExchange cfg lib threads coins vec idxs ck := by
  rw [receiverBins, onSuccess_eq htable, onSuccess_eq hraw]

theorem senderBins_eq {threads : PsiThreads} {coins : SenderCoins Seed} {nbins : ℕ}
    {rows : List (List Block)} (hrows : senderRows cfg h nbins senderSet = .ok rows) :
    senderBins cfg h prg lib threads coins senderSet nbins =
      senderExchange cfg lib threads coins nbins (prg.genRandomBlocks (prg.fixedSeed 0) nbins)
        rows := by
  rw [senderBins, onSuccess_eq hrows]

/-- The two programs in step compute a run that ends. -/
theorem psiCa_meets {threads : PsiThreads} (hthreads : threads.Delivers cfg lib random)
    {masksReceiver masksSender : ℕ → List Bool}
    (hmasks : DrawMasks (random.equality cfg.nbins).thread masksReceiver masksSender)
    (hnbins : cfg.nbins < 2 ^ 64) {run : PsiRun}
    (hrun : psiCa cfg h prg (lib.subprotocols cfg random .int) random.toPsiRandomness receiverSet
      senderSet = .ok run)
    (hbits : AllBits run.ansReceiver) (hlen : run.ansSender.length = cfg.nbins) :
    (psiCaReceiver cfg h lib threads (random.receiver masksReceiver) receiverSet).Meets
      (psiCaSender cfg h prg lib threads (random.sender masksSender) senderSet)
      (.ok run.blockAns) (.ok run.psiCaTmp) := by
  obtain ⟨table, idxs, ck, rows, ansReceiver, ansSender, htable, hraw, hrows, hanswers, rfl⟩ :=
    psiCa_inv hrun
  have hexchange := exchange_meets hthreads rfl hmasks rfl hanswers hbits hlen
  rw [← receiverBins_eq htable hraw, ← senderBins_eq hrows] at hexchange
  exact (Program.Meets.onLine Channel.io (sendInteger_meets hnbins)).bind hexchange

/-- Where the libraries are lawful the answers are bits, one for every bin. -/
theorem Libraries.Lawful.answers (hlib : lib.Lawful cfg random)
    (hrange : cfg.square ≤ 26420807) {run : PsiRun}
    (hrun : psiCa cfg h prg (lib.subprotocols cfg random .int) random.toPsiRandomness receiverSet
      senderSet = .ok run) :
    AllBits run.ansReceiver ∧ run.ansSender.length = cfg.nbins := by
  obtain ⟨table, idxs, ck, rows, ansReceiver, ansSender, -, -, -, hanswers, rfl⟩ := psiCa_inv hrun
  let bins := psiBins cfg.nbins (lib.baxos cfg.okvsItems cfg.okvsBinSize) prg
    (lib.subprotocols cfg random .int) random.toPsiRandomness
    (receiverVec cfg random.padding receiverSet) table idxs ck rows
  have hinputs : bins.eqInputs.length = cfg.nbins := length_eqBlocks ..
  have hvalues : bins.randomValues.length = cfg.nbins := Prg.length_genRandomBlocks ..
  obtain ⟨zs, ws, hzs, hshares⟩ := hlib.sharesEquality hrange _ _ hinputs hvalues
  obtain ⟨rfl, rfl⟩ := Prod.mk.inj (Except.ok.inj (hanswers.symm.trans hzs))
  exact ⟨hshares.bits_left, hshares.length_right⟩

end Meets

/-! ## The session in any order of steps -/

section Session

variable {cfg : PsiConfig} {lib : Libraries Seed} {random : SessionRandomness Seed}
  (hlib : lib.Lawful cfg random) (hrange : cfg.square ≤ 26420807) {threads : PsiThreads}
  (hthreads : threads.Delivers cfg lib random) {masksReceiver masksSender : ℕ → List Bool}
  (hmasks : DrawMasks (random.equality cfg.nbins).thread masksReceiver masksSender)
  {room : Role × Channel → ℕ} (hroom : ∀ k, 0 < room k)

include hlib hrange hthreads hmasks hroom

/-- A run that ends is the end of the two programs in any order of steps. -/
theorem Libraries.Lawful.endsIn {h : HashFamily} {prg : Prg Seed}
    {receiverSet senderSet : List Block} {run : PsiRun}
    (hrun : psiCa cfg h prg (lib.subprotocols cfg random .int) random.toPsiRandomness receiverSet
      senderSet = .ok run) :
    ∃ n, EndsIn (Program.Step threadChannel Role.other room) n
      (Net.between .receiver
        (psiCaReceiver cfg h lib threads (random.receiver masksReceiver) receiverSet)
        (psiCaSender cfg h prg lib threads (random.sender masksSender) senderSet))
      (Net.between .receiver (.done (.ok run.blockAns)) (.done (.ok run.psiCaTmp))) := by
  obtain ⟨hbits, hlen⟩ := hlib.answers hrange hrun
  have hnbins : cfg.nbins < 2 ^ 64 := (cfg.nbins_lt_iff.mpr hrange).trans (by decide)
  exact (psiCa_meets hthreads hmasks hnbins hrun hbits hlen).endsIn facing_roles hroom
    threadChannel_injective

/-- However the steps of the two parties and of their threads are ordered, and however
few bytes the connections hold, a session comes to its end.  Without accidents, and
with an empty stash, the receiver then has the number of entries of its padded list
that are the sender's. -/
theorem psiCa_endsIn (h : HashFamily) (prg : Prg Seed) {receiverSet senderSet : List Block}
    (hsquare : 0 < cfg.square) (hnf : 0 < cfg.nfuns) (hnf' : cfg.nfuns ≤ 2 ^ 64)
    (hsender : senderSet.length = cfg.realNum2)
    (hitems : cfg.realNum2 * cfg.nfuns ≤ cfg.okvsItems)
    (hreceiver : receiverSet.length ≤ cfg.square) (hfolds : (senderSet.map Block.fold).Nodup)
    (hdummy : dummyElement ∉ receiverVec cfg random.padding receiverSet) :
    ∃ run n, psiCa cfg h prg (lib.subprotocols cfg random .int) random.toPsiRandomness receiverSet
        senderSet = .ok run ∧
      EndsIn (Program.Step threadChannel Role.other room) n
        (Net.between .receiver
          (psiCaReceiver cfg h lib threads (random.receiver masksReceiver) receiverSet)
          (psiCaSender cfg h prg lib threads (random.sender masksSender) senderSet))
        (Net.between .receiver (.done (.ok run.blockAns)) (.done (.ok run.psiCaTmp))) ∧
      (NoAccident cfg lib random run → run.table.stash = [] →
        run.blockAns = BitVec.ofNat 128
          (countAll (receiverVec cfg random.padding receiverSet) (senderSet.map Block.fold))) := by
  obtain ⟨run, hrun, hvec, -, hcount⟩ : ∃ run,
      psiCa cfg h prg (lib.subprotocols cfg random .int) random.toPsiRandomness receiverSet
        senderSet = .ok run ∧ run.vec = receiverVec cfg random.padding receiverSet ∧
      receiverTable cfg h run.vec = .ok run.table ∧
      (NoAccident cfg lib random run → run.table.stash = [] →
        run.blockAns = BitVec.ofNat 128 (countAll run.vec (senderSet.map Block.fold))) :=
    hlib.count hsquare hrange hnf hnf' hsender hitems hreceiver hfolds hdummy
  obtain ⟨n, hends⟩ := hlib.endsIn hrange hthreads hmasks hroom hrun
  rw [hvec] at hcount
  exact ⟨run, n, hrun, hends, hcount⟩

end Session

/-! ## Triangles in any order of steps -/

section Triangles

variable (s : TargetRun Seed) (G : SimpleGraph (Fin s.cfg.numVertex)) [DecidableRel G.Adj]
  (x : Fin s.cfg.numVertex) (hfits : s.cfg.Fits) (hdegree : ∀ v, G.degree v ≤ s.cfg.maxDegree)
  (hx : 0 < G.degree x) (hfiles : FilesOf G s.file) (hlib : s.lib.Lawful s.cfg s.random)
  (hstore : (degreeBaxos s.cfg s.lib.baxos).Exact s.cfg.maxDegree)
  (harrivals : Arrivals s.table (s.file (vertexWord x)) s.pending) (hrandom : s.Random G x)
  (hrange : s.cfg.square ≤ 26420807) {threads : PsiThreads}
  (hthreads : threads.Delivers s.cfg s.lib s.random) {masksReceiver masksSender : ℕ → List Bool}
  (hmasks : DrawMasks (s.random.equality s.cfg.nbins).thread masksReceiver masksSender)
  {room : Role × Channel → ℕ} (hroom : ∀ k, 0 < room k)

include hfits hdegree hx hfiles hlib hstore harrivals hrandom hrange hthreads hmasks hroom

/-- The two programs come to the number of triangles, from the target's cells. -/
theorem TargetRun.cells_endsIn {l : List (Fin s.cfg.numVertex)}
    (hl : s.file (vertexWord x) = l.map vertexWord) (hnodup : l.Nodup)
    (hmem : ∀ u, u ∈ l ↔ G.Adj x u) :
    ∃ blockAns psiCaTmp n,
      EndsIn (Program.Step threadChannel Role.other room) n
        (Net.between .receiver
          (psiCaReceiver s.cfg s.h s.lib threads (s.random.receiver masksReceiver) (s.cells l))
          (psiCaSender s.cfg s.h s.prg s.lib threads (s.random.sender masksSender)
            (vertexBlocks s.cfg s.prg)))
        (Net.between .receiver (.done (.ok blockAns)) (.done (.ok psiCaTmp))) ∧
      blockAns.low.toNat / 2 = #{t ∈ G.cliqueFinset 3 | x ∈ t} := by
  have hdeg : l.length = G.degree x := length_eq_degree hnodup hmem
  have hne : 0 < l.length := hdeg ▸ hx
  have hlen : l.length ≤ s.cfg.maxDegree := hdeg ▸ hdegree x
  obtain ⟨run, hrun, hresult⟩ := TargetRun.run_counts s G x hfits hdegree hx hfiles hlib hstore
    harrivals hrandom hrange hl hnodup hmem
  rw [TargetRun.run_eq hfits hl hne hnodup hlen harrivals, Option.some.injEq] at hrun
  obtain ⟨n, hends⟩ := hlib.endsIn hrange hthreads hmasks hroom hrun
  exact ⟨_, _, n, hends, hresult.trans (card_link_eq_card_triangles x)⟩

/-- However the steps of the two processes for a target are ordered, the receiver
comes to the number of triangles through it. -/
theorem localTriangleCount_endsIn :
    ∃ receiverSet senderSet blockAns psiCaTmp n,
      s.set 1 (vertexWord x) = some (.ok receiverSet) ∧
      s.set 0 (vertexWord x) = some (.ok senderSet) ∧
      EndsIn (Program.Step threadChannel Role.other room) n
        (Net.between .receiver
          (psiCaReceiver s.cfg s.h s.lib threads (s.random.receiver masksReceiver) receiverSet)
          (psiCaSender s.cfg s.h s.prg s.lib threads (s.random.sender masksSender) senderSet))
        (Net.between .receiver (.done (.ok blockAns)) (.done (.ok psiCaTmp))) ∧
      blockAns.low.toNat / 2 = #{t ∈ G.cliqueFinset 3 | x ∈ t} := by
  obtain ⟨l, hl, hnodup, hmem⟩ := hfiles.exists_list hfits.vertices x
  have hdeg : l.length = G.degree x := length_eq_degree hnodup hmem
  have hone := TargetRun.set_one hfits hl (hdeg ▸ hx) hnodup (hdeg ▸ hdegree x) harrivals
  obtain ⟨blockAns, psiCaTmp, n, hends, hcount⟩ := TargetRun.cells_endsIn s G x hfits hdegree hx
    hfiles hlib hstore harrivals hrandom hrange hthreads hmasks hroom hl hnodup hmem
  exact ⟨_, _, blockAns, psiCaTmp, n, hone, TargetRun.set_zero hfits x, hends, hcount⟩

end Triangles

/-! ## An instance -/

/-- A VOLE that needs no messages, and a transfer in which the receiver sends its
choices. -/
def diamondThreads : PsiThreads where
  voleA _ := .done (nineA, nineC)
  voleB _ _ := .done nineB
  equality _ := sampleThreads
  iknpSend m₀ m₁ n := do
    let choices ← .receiveMany n
    sendBlocks (pickMessages m₀ m₁ choices)
  iknpReceive choices n := do
    sendData choices n
    receiveBlocks n

theorem diamondThreads_delivers :
    diamondThreads.Delivers diamondRun.cfg diamondRun.lib diamondRun.random where
  vole := .done _ _
  equality := sampleThreads_deliversBlocks _
  iknpOt m₀ m₁ choices n h₀ h₁ hchoices := by
    have hsend := (sendData_meets hchoices.ge).symm
    rw [List.take_of_length_le hchoices.le] at hsend
    have hanswer := sendBlocks_meets (pickMessages m₀ m₁ choices)
    have hlen : (pickMessages m₀ m₁ choices).length = n := by
      rw [pickMessages, List.length_map, List.length_range, hchoices]
    rw [hlen] at hanswer
    exact hsend.bind hanswer

/-- Connections that hold one byte. -/
theorem psiCa_endsIn_of_diamond :
    ∃ run n, psiCa diamondRun.cfg diamondRun.h diamondRun.prg
        (diamondRun.lib.subprotocols diamondRun.cfg diamondRun.random .int)
        diamondRun.random.toPsiRandomness (diamondRun.cells diamondNeighbors)
        (vertexBlocks diamondRun.cfg diamondRun.prg) = .ok run ∧
      EndsIn (Program.Step threadChannel Role.other fun _ => 1) n
        (Net.between .receiver
          (psiCaReceiver diamondRun.cfg diamondRun.h diamondRun.lib diamondThreads
            (diamondRun.random.receiver fun tid =>
              ((diamondRun.random.equality diamondRun.cfg.nbins).thread tid).masks)
            (diamondRun.cells diamondNeighbors))
          (psiCaSender diamondRun.cfg diamondRun.h diamondRun.prg diamondRun.lib diamondThreads
            (diamondRun.random.sender fun tid =>
              ((diamondRun.random.equality diamondRun.cfg.nbins).thread tid).masks)
            (vertexBlocks diamondRun.cfg diamondRun.prg)))
        (Net.between .receiver (.done (.ok run.blockAns)) (.done (.ok run.psiCaTmp))) ∧
      (NoAccident diamondRun.cfg diamondRun.lib diamondRun.random run → run.table.stash = [] →
        run.blockAns = BitVec.ofNat 128
          (countAll (receiverVec diamondRun.cfg diamondRun.random.padding
            (diamondRun.cells diamondNeighbors)) diamondRun.folds)) :=
  psiCa_endsIn diamondRun_lawful diamondRun_range diamondThreads_delivers
    (sampleRandomness_drawMasks _) (fun _ => Nat.one_pos) diamondRun.h diamondRun.prg (by decide)
    (by decide) (by decide) (by decide) (by decide) (by decide) diamondRun_folds diamondRun_dummy

/-- Two triangles contain vertex 0. -/
theorem localTriangleCount_endsIn_of_diamond :
    ∃ receiverSet senderSet blockAns psiCaTmp n,
      diamondRun.set 1 (vertexWord (0 : Fin 4)) = some (.ok receiverSet) ∧
      diamondRun.set 0 (vertexWord (0 : Fin 4)) = some (.ok senderSet) ∧
      EndsIn (Program.Step threadChannel Role.other fun _ => 1) n
        (Net.between .receiver
          (psiCaReceiver diamondRun.cfg diamondRun.h diamondRun.lib diamondThreads
            (diamondRun.random.receiver fun tid =>
              ((diamondRun.random.equality diamondRun.cfg.nbins).thread tid).masks) receiverSet)
          (psiCaSender diamondRun.cfg diamondRun.h diamondRun.prg diamondRun.lib diamondThreads
            (diamondRun.random.sender fun tid =>
              ((diamondRun.random.equality diamondRun.cfg.nbins).thread tid).masks) senderSet))
        (Net.between .receiver (.done (.ok blockAns)) (.done (.ok psiCaTmp))) ∧
      blockAns.low.toNat / 2 = 2 := by
  have hdegree : ∀ v : Fin 4, diamond.degree v ≤ 4 := by decide
  have hx : 0 < diamond.degree 0 := by decide
  obtain ⟨receiverSet, senderSet, blockAns, psiCaTmp, n, hone, hzero, hends, hcount⟩ :=
    @localTriangleCount_endsIn Block diamondRun diamond decidableDiamond (0 : Fin 4)
      diamondRun_fits hdegree hx (listNeighbors_filesOf (by decide) diamond) diamondRun_lawful
      (pairStore_exact 4) diamondRun_arrivals diamondRun_random diamondRun_range diamondThreads
      diamondThreads_delivers _ _ (sampleRandomness_drawMasks _) _ fun _ => Nat.one_pos
  have htriangles : #{t ∈ diamond.cliqueFinset 3 | (0 : Fin 4) ∈ t} = 2 := by decide
  exact ⟨_, _, _, _, n, hone, hzero, hends, hcount.trans htriangles⟩

end Sectric
