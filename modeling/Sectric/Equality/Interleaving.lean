import Sectric.Equality.TripleThread
import Sectric.Lib.Program
import Sectric.Net.Accounting

/-!
# The equality test in any order of steps

The test is run by two parties.  Each has a thread for either chunk of the words,
and every thread has a connection of its own.  Here each party has its own program,
which sees its own data and what it receives.  A party that is `ALICE` on a
connection sends its masked inputs before it receives the other's, `BOB` the other
way round; in the second thread the roles are exchanged.

So whatever the order of the steps, and however few bytes the connections hold, the
test comes to its end, with the answers of `performBlockEquality`
(`performBlockEquality_endsIn`).  The transfers, the constructors and the generation
of triples are libraries.  They are parameters here, and run in step between the two
parties.
-/

namespace Sectric

open Lib

/-! ## The libraries -/

/-- A transfer of an `OTPack`, of so many messages. -/
structure TransferThreads where
  send : List (List Byte) → ℕ → Thread Byte Unit
  recv : List Byte → ℕ → Thread Byte (List Byte)

/-- The transfer hands out what `ot` says. -/
def TransferThreads.Delivers (transfer : TransferThreads)
    (ot : List (List Byte) → List Byte → List Byte) : Prop :=
  ∀ rows choices n, rows.length = n → choices.length = n →
    (transfer.send rows n).Meets (transfer.recv choices n) () (ot rows choices)

/-- `sci::OTPack`: its constructor and its transfers. -/
structure OtPackThreads where
  setup : Party → Thread Byte Unit
  kkotBeta : TransferThreads
  kkot4 : TransferThreads
  kkot8 : TransferThreads
  kkot16 : TransferThreads
  iknpStraight : TransferThreads

structure OtPackThreads.Delivers (threads : OtPackThreads) (ot : OtPack) : Prop where
  setup : (threads.setup .alice).Meets (threads.setup .bob) () ()
  kkotBeta : threads.kkotBeta.Delivers ot.kkotBeta
  kkot4 : threads.kkot4.Delivers ot.kkot4
  kkot8 : threads.kkot8.Delivers ot.kkot8
  kkot16 : threads.kkot16.Delivers ot.kkot16
  iknpStraight : threads.iknpStraight.Delivers ot.iknpStraight

/-- The libraries on the connections: `otpackArr[i]`, and the generation of so many
triples over it. -/
structure EqualityThreads where
  otpackArr : ℕ → OtPackThreads
  generateTriples : ℕ → Party → ℕ → Thread Byte Triple

/-! ## One thread -/

/-- `io->send_data(data, size)`. -/
def sendData (data : List Byte) (size : ℕ) : Thread Byte Unit := .sendAll (data.take size)

/-- The two sends and the two receives of an opening. -/
def exchangeOpenings (party : Party) (ei fi : List Byte) (commSize : ℕ) :
    Thread Byte (List Byte × List Byte) :=
  match party with
  | .alice => do
      sendData ei commSize
      sendData fi commSize
      let e ← .receiveMany commSize
      let f ← .receiveMany commSize
      return (e, f)
  | .bob => do
      let e ← .receiveMany commSize
      let f ← .receiveMany commSize
      sendData ei commSize
      sendData fi commSize
      return (e, f)

/-- One party between two levels. -/
structure PartyTraversal where
  wires : Wires
  tripleCount : ℕ
  oldTripleCount : ℕ

/-- One round of the outer loop, run by one party.  The bytes received stand in the
places of the other party's. -/
def PartyTraversal.level (packing : BitPacking) (party : Party) (triples : Triple)
    (numDigits numCmps : ℕ) (t : PartyTraversal) (i : ℕ) : Thread Byte PartyTraversal := do
  let w := t.wires.maskPass packing triples numDigits numCmps i t.tripleCount
  let counter := (levelGates numDigits i).length
  let tripleCount := t.tripleCount + counter * numCmps
  let commSize := counter * numCmps / 8
  let (e, f) ← exchangeOpenings party w.ei w.fi commSize
  let opened := w.openPass commSize { w with ei := e, fi := f }
  return {
    wires := opened.recombinePass packing party triples numDigits numCmps i t.oldTripleCount
    tripleCount := tripleCount
    oldTripleCount := tripleCount }

/-- `traverse_and_compute_ANDs`. -/
def traverseThread (packing : BitPacking) (party : Party) (triples : Triple)
    (numDigits numCmps : ℕ) (leafEq : List Byte) : Thread Byte (List Byte) := do
  let bytes := (numDigits - 1) * numCmps / 8
  let start : PartyTraversal :=
    { wires := Wires.start bytes leafEq
      tripleCount := 0
      oldTripleCount := 0 }
  let t ← (loopValues (fun i => decide (i < numDigits)) (· * 2) numDigits 1).foldlM
    (PartyTraversal.level packing party triples numDigits numCmps) start
  return t.wires.leafEq.take numCmps

/-- The leaf transfers of ALICE. -/
def Equality.leafSend (wan : Bool) (otpack : OtPackThreads) (eq : Equality)
    (messages : List (List Byte)) : Thread Byte (Except String Unit) :=
  let full := eq.numCmps * (eq.numDigits - 1)
  let top (transfer : TransferThreads) : Thread Byte (Except String Unit) := do
    otpack.kkotBeta.send (messages.take full) full
    transfer.send (messages.drop full) eq.numCmps
    return .ok ()
  let whole : Thread Byte (Except String Unit) := do
    otpack.kkotBeta.send messages (eq.numCmps * eq.numDigits)
    return .ok ()
  if wan then whole
  else if eq.r = 1 then top otpack.iknpStraight
  else if eq.r ≠ 0 then
    if eq.r = 2 then top otpack.kkot4
    else if eq.r = 3 then top otpack.kkot8
    else if eq.r = 4 then top otpack.kkot16
    else do
      otpack.kkotBeta.send (messages.take full) full
      return .error "Not yet implemented!"
  else whole

/-- The leaf transfers of BOB: his `leaf_eq`. -/
def Equality.leafRecv (wan : Bool) (otpack : OtPackThreads) (eq : Equality)
    (choices : List Byte) : Thread Byte (Except String (List Byte)) :=
  let full := eq.numCmps * (eq.numDigits - 1)
  let top (transfer : TransferThreads) : Thread Byte (Except String (List Byte)) := do
    let head ← otpack.kkotBeta.recv (choices.take full) full
    let tail ← transfer.recv (choices.drop full) eq.numCmps
    return .ok (head ++ tail)
  let whole : Thread Byte (Except String (List Byte)) := do
    let received ← otpack.kkotBeta.recv choices (eq.numCmps * eq.numDigits)
    return .ok received
  if wan then whole
  else if eq.r = 1 then top otpack.iknpStraight
  else if eq.r ≠ 0 then
    if eq.r = 2 then top otpack.kkot4
    else if eq.r = 3 then top otpack.kkot8
    else if eq.r = 4 then top otpack.kkot16
    else do
      let _ ← otpack.kkotBeta.recv (choices.take full) full
      return .error "Not yet implemented!"
  else whole

/-- `computeLeafOTs`: the party's `leaf_eq`. -/
def Equality.leafThread (wan : Bool) (otpack : OtPackThreads) (eq : Equality) (party : Party)
    (masks : List Bool) (data : List Word) : Thread Byte (Except String (List Byte)) :=
  match party with
  | .alice => do
      let leafEq := masks.map boolByte
      let sent ← eq.leafSend wan otpack (eq.leafOtMessages wan (eq.digits data) leafEq)
      return sent.map fun _ => leafEq
  | .bob => eq.leafRecv wan otpack (eq.digits data)

/-- An `Equality` object, run to the end.  Its sizes are held in `int`. -/
def Equality.runThread (wan : Bool) (packing : BitPacking) (threads : EqualityThreads) (tid : ℕ)
    (eq : Equality) (party : Party) (masks : List Bool) (data : List Word) :
    Thread Byte (Except String (List Byte)) :=
  if SizeType.int.Holds (eq.l * eq.numCmps) then do
    match ← eq.leafThread wan (threads.otpackArr tid) party masks data with
    | .error e => return .error e
    | .ok leafEq =>
        let triples ← threads.generateTriples tid party (eq.numTriples * eq.numCmps)
        let z ← traverseThread packing party triples eq.numDigits eq.numCmps leafEq
        return .ok z
  else return overflow

/-! ## A party -/

/-- `equality_thread`. -/
def equalityThreadOf (wan : Bool) (packing : BitPacking) (threads : EqualityThreads) (tid : ℕ)
    (party : Party) (masks : List Bool) (x : List Word) (lnumCmps l b : ℕ) :
    Thread Byte (Except String (List Byte)) :=
  Equality.runThread wan packing threads tid { l := l, beta := b, numCmps := lnumCmps }
    (threadRole tid party) masks x

/-- A party of the test: it uses the connections, forks into two threads, and comes
to a result or an error. -/
abbrev PartyProgram (α : Type) := Program Channel (Fin 2) Byte (Except String (List Byte)) α

/-- `perform_equality`. -/
def performEqualityProgram (wan : Bool) (packing : BitPacking) (threads : EqualityThreads)
    (party : Party) (masks : ℕ → List Bool) (x : List Word) (l b numCmps : ℕ) :
    PartyProgram (Except String (List Byte)) :=
  if SizeType.int.Holds numCmps then do
    let chunkSize := numCmps / (8 * 2) * 8
    let z ← Program.inParallel fun i : Fin 2 =>
      let offset := i.val * chunkSize
      let lnumCmps := if i.val = 1 then numCmps - offset else chunkSize
      equalityThreadOf wan packing threads i.val party (masks i.val) (x.drop offset) lnumCmps l b
    return do return (← z 0) ++ (← z 1)
  else return overflow

/-- `perform_block_equality`, over packs made for the `radix` of the context. -/
def performBlockEqualityProgram (wan : Bool) (packing : BitPacking)
    (threadsOf : ℕ → EqualityThreads) (radix : ℕ) (party : Party) (masks : ℕ → List Bool)
    (inputs : List Block) : PartyProgram (Except String (List Byte)) := do
  let size := inputs.length
  let threads := threadsOf radix
  Program.onLine (.ioArr 0) ((threads.otpackArr 0).setup party)
  Program.onLine (.ioArr 1) ((threads.otpackArr 1).setup party.other)
  Program.onLine (.ioArr 2) ((threads.otpackArr 2).setup party)
  let triple ← Program.onLine (.ioArr 2) (threads.generateTriples 2 party size)
  match ← performEqualityProgram wan packing threads party masks (wordsOf inputs) 64 5
    (2 * size) with
  | .error e => return .error e
  | .ok res =>
      let w := FinalWires.start packing triple size res
      let (e, f) ← Program.onLine (.ioArr 0) (exchangeOpenings party w.ei w.fi (size / 8))
      return .ok (w.finish packing party triple size { w with ei := e, fi := f })

/-! ## Parties in step -/

section Threads

variable {packing : BitPacking} {triplesAlice triplesBob : Triple} {numDigits numCmps : ℕ}

theorem sendData_meets {data : List Byte} {size : ℕ} (h : size ≤ data.length) :
    (sendData data size).Meets (.receiveMany size) () (data.take size) := by
  have hmeets := Thread.sendAll_meets (data.take size)
  rwa [List.length_take, Nat.min_eq_left h] at hmeets

/-- What one party opens the other receives. -/
theorem exchangeOpenings_meets {eiAlice fiAlice eiBob fiBob : List Byte} {commSize : ℕ}
    (h₁ : commSize ≤ eiAlice.length) (h₂ : commSize ≤ fiAlice.length)
    (h₃ : commSize ≤ eiBob.length) (h₄ : commSize ≤ fiBob.length) :
    (exchangeOpenings .alice eiAlice fiAlice commSize).Meets
      (exchangeOpenings .bob eiBob fiBob commSize)
      (eiBob.take commSize, fiBob.take commSize) (eiAlice.take commSize, fiAlice.take commSize) :=
  (sendData_meets h₁).bind ((sendData_meets h₂).bind ((sendData_meets h₃).symm.bind
    ((sendData_meets h₄).symm.bind (.done _ _))))

theorem receive_take (buffer data : List Byte) (size : ℕ) :
    receive buffer (data.take size) size = receive buffer data size := by
  rw [receive, receive, List.take_take, Nat.min_self]

/-- The sides of a traversal. -/
def Traversal.ofAlice (t : Traversal) : PartyTraversal where
  wires := t.alice
  tripleCount := t.tripleCount
  oldTripleCount := t.oldTripleCount

def Traversal.ofBob (t : Traversal) : PartyTraversal where
  wires := t.bob
  tripleCount := t.tripleCount
  oldTripleCount := t.oldTripleCount

/-- A level of both parties. -/
theorem Traversal.Buffers.level_meets (hnd : 0 < numDigits) {t : Traversal}
    (ht : t.Buffers ((numDigits - 1) * numCmps / 8)) {i : ℕ} (hi : 0 < i) :
    (t.ofAlice.level packing .alice triplesAlice numDigits numCmps i).Meets
      (t.ofBob.level packing .bob triplesBob numDigits numCmps i)
      (t.level packing triplesAlice triplesBob numDigits numCmps i).ofAlice
      (t.level packing triplesAlice triplesBob numDigits numCmps i).ofBob := by
  have hroom : (levelGates numDigits i).length * numCmps / 8 ≤ (numDigits - 1) * numCmps / 8 := by
    rw [length_levelGates hi]
    exact level_room rfl hnd hi
  obtain ⟨heiAlice, hfiAlice⟩ := length_maskPass
    t.alice triplesAlice i t.tripleCount
  obtain ⟨heiBob, hfiBob⟩ := length_maskPass
    t.bob triplesBob i t.tripleCount
  have hexchange := exchangeOpenings_meets (hroom.trans_eq (heiAlice.trans ht.ei_alice).symm)
    (hroom.trans_eq (hfiAlice.trans ht.fi_alice).symm)
    (hroom.trans_eq (heiBob.trans ht.ei_bob).symm) (hroom.trans_eq (hfiBob.trans ht.fi_bob).symm)
  refine hexchange.bind ?_
  simp only [Wires.openPass, receive_take]
  exact .done _ _

theorem traverseThread_meets (hnd : 0 < numDigits) (leafAlice leafBob : List Byte) :
    (traverseThread packing .alice triplesAlice numDigits numCmps leafAlice).Meets
      (traverseThread packing .bob triplesBob numDigits numCmps leafBob)
      (traverseAndComputeANDs packing triplesAlice triplesBob numDigits numCmps leafAlice
        leafBob).1
      (traverseAndComputeANDs packing triplesAlice triplesBob numDigits numCmps leafAlice
        leafBob).2 := by
  have hpos : ∀ i ∈ loopValues (fun i => decide (i < numDigits)) (· * 2) numDigits 1, 0 < i :=
    loopValues_double_pos Nat.one_pos
  let start : Traversal :=
    { alice := Wires.start ((numDigits - 1) * numCmps / 8) leafAlice
      bob := Wires.start ((numDigits - 1) * numCmps / 8) leafBob
      tripleCount := 0
      oldTripleCount := 0 }
  have hstart : start.Buffers ((numDigits - 1) * numCmps / 8) :=
    ⟨List.length_replicate .., List.length_replicate .., List.length_replicate ..,
      List.length_replicate ..⟩
  have hlevels := Thread.Meets.foldlM Traversal.ofAlice Traversal.ofBob
    (Traversal.level packing triplesAlice triplesBob numDigits numCmps)
    (Traversal.Buffers ((numDigits - 1) * numCmps / 8)) _ hstart
    (fun i hi t ht => ⟨ht.level i, ht.level_meets hnd (hpos i hi)⟩)
  exact hlevels.bind (.done _ _)

/-! ### Leaves -/

theorem length_digits (eq : Equality) (data : List Word) :
    (eq.digits data).length = eq.numDigits * eq.numCmps := by
  rw [Equality.digits, length_rowMajor]

theorem length_leafOtMessages (eq : Equality) (wan : Bool) (digits leafEq : List Byte) :
    (eq.leafOtMessages wan digits leafEq).length = eq.numDigits * eq.numCmps := by
  rw [Equality.leafOtMessages, length_rowMajor]

section Leaves

variable (wan : Bool) {threads : OtPackThreads} {ot : OtPack} (hot : threads.Delivers ot)

include hot

/-- The transfers of the leaves. -/
theorem Equality.leafOts_meets {eq : Equality} (hnd : 0 < eq.numDigits)
    {messages : List (List Byte)} {choices : List Byte}
    (hmessages : messages.length = eq.numDigits * eq.numCmps)
    (hchoices : choices.length = eq.numDigits * eq.numCmps) :
    (eq.leafSend wan threads messages).Meets (eq.leafRecv wan threads choices)
      ((eq.leafOts wan ot messages choices).map fun _ => ())
      (eq.leafOts wan ot messages choices) := by
  have hsplit : eq.numDigits * eq.numCmps = eq.numCmps * (eq.numDigits - 1) + eq.numCmps := by
    rw [← Nat.mul_succ, Nat.succ_eq_add_one, Nat.sub_add_cancel hnd, Nat.mul_comm]
  have hhead := hot.kkotBeta (messages.take (eq.numCmps * (eq.numDigits - 1)))
    (choices.take (eq.numCmps * (eq.numDigits - 1))) (eq.numCmps * (eq.numDigits - 1))
    (by rw [List.length_take]; omega) (by rw [List.length_take]; omega)
  have hwhole := hot.kkotBeta messages choices (eq.numCmps * eq.numDigits)
    (hmessages.trans (Nat.mul_comm ..)) (hchoices.trans (Nat.mul_comm ..))
  have htop : ∀ {transfer : TransferThreads} {ot : List (List Byte) → List Byte → List Byte},
      transfer.Delivers ot →
        (transfer.send (messages.drop (eq.numCmps * (eq.numDigits - 1))) eq.numCmps).Meets
          (transfer.recv (choices.drop (eq.numCmps * (eq.numDigits - 1))) eq.numCmps) ()
          (ot (messages.drop (eq.numCmps * (eq.numDigits - 1)))
            (choices.drop (eq.numCmps * (eq.numDigits - 1)))) := by
    intro transfer ot h
    exact h _ _ _ (by rw [List.length_drop]; omega) (by rw [List.length_drop]; omega)
  simp only [Equality.leafSend, Equality.leafRecv, Equality.leafOts]
  split
  case isTrue => exact hwhole.bind (.done _ _)
  split
  case isTrue => exact hhead.bind ((htop hot.iknpStraight).bind (.done _ _))
  split
  case isFalse => exact hwhole.bind (.done _ _)
  split
  case isTrue => exact hhead.bind ((htop hot.kkot4).bind (.done _ _))
  split
  case isTrue => exact hhead.bind ((htop hot.kkot8).bind (.done _ _))
  split
  case isTrue => exact hhead.bind ((htop hot.kkot16).bind (.done _ _))
  -- a top digit with no transfer: both parties fail after the full digits
  exact hhead.bind (.done _ _)

theorem Equality.leafThread_meets {eq : Equality} (hnd : 0 < eq.numDigits) (masks : List Bool)
    (masksBob : List Bool) (dataAlice dataBob : List Word) :
    (eq.leafThread wan threads .alice masks dataAlice).Meets
      (eq.leafThread wan threads .bob masksBob dataBob)
      ((eq.computeLeafOTs wan ot dataAlice dataBob masks).map Prod.fst)
      ((eq.computeLeafOTs wan ot dataAlice dataBob masks).map Prod.snd) := by
  have hmeets := eq.leafOts_meets wan hot hnd
    (length_leafOtMessages eq wan (eq.digits dataAlice) (masks.map boolByte))
    (length_digits eq dataBob)
  simp only [Equality.computeLeafOTs]
  generalize eq.leafOts wan ot (eq.leafOtMessages wan (eq.digits dataAlice) (masks.map boolByte))
    (eq.digits dataBob) = received at hmeets
  have hleaf := (hmeets.symm.convert fun sent => sent.map fun _ => masks.map boolByte).symm
  cases received with
  | error e => exact hleaf
  | ok received => exact hleaf

end Leaves

/-! ## The test in step -/

variable (wan : Bool) (packing)

/-- An `Equality` object of each party. -/
theorem Equality.runThread_meets {threads : EqualityThreads} {tid : ℕ} {ot : OtPack}
    {random : EqualityRandomness} {eq : Equality} (hnd : 0 < eq.numDigits)
    (hot : (threads.otpackArr tid).Delivers ot)
    (htriples : (threads.generateTriples tid .alice (eq.numTriples * eq.numCmps)).Meets
      (threads.generateTriples tid .bob (eq.numTriples * eq.numCmps)) random.triplesAlice
      random.triplesBob)
    (masksBob : List Bool) (dataAlice dataBob : List Word) :
    (eq.runThread wan packing threads tid .alice random.masks dataAlice).Meets
      (eq.runThread wan packing threads tid .bob masksBob dataBob)
      ((eq.run .int wan packing ot random dataAlice dataBob).map Prod.fst)
      ((eq.run .int wan packing ot random dataAlice dataBob).map Prod.snd) := by
  simp only [Equality.runThread, Equality.run]
  split
  case isFalse => exact .done _ _
  refine (eq.leafThread_meets wan hot hnd random.masks masksBob dataAlice dataBob).bind ?_
  cases eq.computeLeafOTs wan ot dataAlice dataBob random.masks with
  | error e => exact .done _ _
  | ok leaf => exact htriples.bind ((traverseThread_meets hnd leaf.1 leaf.2).bind (.done _ _))

/-- The number of triples a thread asks for. -/
def threadTriples (lnumCmps l b : ℕ) : ℕ :=
  Equality.numTriples { l := l, beta := b, numCmps := lnumCmps } * lnumCmps

/-- A thread of each party.  Where `tid` is odd the objects have the other roles, and
the masks are BOB's. -/
theorem equalityThreadOf_meets {threads : EqualityThreads} {tid : ℕ} {ot : OtPack}
    {random : EqualityRandomness} {l b lnumCmps : ℕ}
    (hnd : 0 < Equality.numDigits { l := l, beta := b, numCmps := lnumCmps })
    (hot : (threads.otpackArr tid).Delivers ot)
    (htriples : (threads.generateTriples tid .alice (threadTriples lnumCmps l b)).Meets
      (threads.generateTriples tid .bob (threadTriples lnumCmps l b)) random.triplesAlice
      random.triplesBob)
    {masksAlice masksBob : List Bool}
    (hmasks : (if tid % 2 = 1 then masksBob else masksAlice) = random.masks)
    (xAlice xBob : List Word) :
    (equalityThreadOf wan packing threads tid .alice masksAlice xAlice lnumCmps l b).Meets
      (equalityThreadOf wan packing threads tid .bob masksBob xBob lnumCmps l b)
      ((equalityThread .int wan packing ot tid random xAlice xBob lnumCmps l b).map Prod.fst)
      ((equalityThread .int wan packing ot tid random xAlice xBob lnumCmps l b).map Prod.snd) := by
  by_cases hodd : tid % 2 = 1
  · rw [if_pos hodd] at hmasks
    subst hmasks
    have hrun := (Equality.runThread_meets packing wan hnd hot htriples masksAlice xBob
      xAlice).symm
    simp only [equalityThreadOf, equalityThread, threadRole, hodd, if_true, Party.other]
    generalize Equality.run .int wan packing ot { l := l, beta := b, numCmps := lnumCmps } random
      xBob xAlice = res at hrun
    cases res with
    | error e => exact hrun
    | ok res => exact hrun
  · rw [if_neg hodd] at hmasks
    subst hmasks
    simp only [equalityThreadOf, equalityThread, threadRole, hodd, if_false]
    exact Equality.runThread_meets packing wan hnd hot htriples masksBob xAlice xBob

/-- The libraries deliver what an equality test of so many words needs. -/
structure EqualityThreads.Delivers (threads : EqualityThreads) (ot : ℕ → OtPack)
    (random : ℕ → EqualityRandomness) (l b numCmps : ℕ) : Prop where
  otpack : ∀ tid < 2, (threads.otpackArr tid).Delivers (ot tid)
  triples : ∀ tid < 2,
    (threads.generateTriples tid .alice (threadTriples (chunkOf numCmps tid) l b)).Meets
      (threads.generateTriples tid .bob (threadTriples (chunkOf numCmps tid) l b))
      (random tid).triplesAlice (random tid).triplesBob

/-- The masks two parties draw: in every thread those of the party that is ALICE
there count. -/
def DrawMasks (random : ℕ → EqualityRandomness) (masksAlice masksBob : ℕ → List Bool) : Prop :=
  ∀ tid < 2, (if tid % 2 = 1 then masksBob tid else masksAlice tid) = (random tid).masks

/-- `lnum_cmps` of thread `i`. -/
theorem lnumCmps_eq (numCmps : ℕ) (i : Fin 2) :
    (if i.val = 1 then numCmps - i.val * (numCmps / (8 * 2) * 8) else numCmps / (8 * 2) * 8) =
      chunkOf numCmps i := by
  fin_cases i
  · rfl
  · exact congrArg (numCmps - ·) (Nat.one_mul _)

theorem performEqualityProgram_meets {threads : EqualityThreads} {ot : ℕ → OtPack}
    {random : ℕ → EqualityRandomness} {l b numCmps : ℕ}
    (hnd : ∀ n, 0 < Equality.numDigits { l := l, beta := b, numCmps := n })
    (hthreads : threads.Delivers ot random l b numCmps) {masksAlice masksBob : ℕ → List Bool}
    (hmasks : DrawMasks random masksAlice masksBob) (xAlice xBob : List Word) :
    (performEqualityProgram wan packing threads .alice masksAlice xAlice l b numCmps).Meets
      (performEqualityProgram wan packing threads .bob masksBob xBob l b numCmps)
      ((performEquality .int wan packing ot random xAlice xBob l b numCmps).map Prod.fst)
      ((performEquality .int wan packing ot random xAlice xBob l b numCmps).map Prod.snd) := by
  let chunk : Fin 2 → Except String (List Byte × List Byte) := fun i =>
    equalityThread .int wan packing (ot i) i (random i) (xAlice.drop (i * (numCmps / (8 * 2) * 8)))
      (xBob.drop (i * (numCmps / (8 * 2) * 8))) (chunkOf numCmps i) l b
  by_cases hfits : SizeType.int.Holds numCmps
  case neg =>
    rw [performEqualityProgram, performEqualityProgram, performEquality, if_neg hfits,
      if_neg hfits, if_neg hfits]
    exact .done _ _
  have hperform : performEquality .int wan packing ot random xAlice xBob l b numCmps = (do
      let first ← chunk 0
      let second ← chunk 1
      return (first.1 ++ second.1, first.2 ++ second.2)) := by
    simp [chunk, performEquality, chunkOf, hfits]
  have hfork := Program.Meets.inParallel Channel fun i : Fin 2 =>
    equalityThreadOf_meets packing wan (hnd _) (hthreads.otpack i i.isLt)
      (hthreads.triples i i.isLt) (hmasks i i.isLt)
      (xAlice.drop (i * (numCmps / (8 * 2) * 8))) (xBob.drop (i * (numCmps / (8 * 2) * 8)))
  simp only [performEqualityProgram, lnumCmps_eq, if_pos hfits]
  refine hfork.bind ?_
  rw [hperform]
  change (Program.done (do return (← (chunk 0).map Prod.fst) ++ (← (chunk 1).map Prod.fst))).Meets
    (Program.done (do return (← (chunk 0).map Prod.snd) ++ (← (chunk 1).map Prod.snd))) _ _
  cases chunk 0 with
  | error e => exact .done _ _
  | ok first =>
      cases chunk 1 with
      | error e => exact .done _ _
      | ok second => exact .done _ _

/-- The libraries deliver what the comparison of so many blocks needs. -/
structure EqualityThreads.DeliversBlocks (threads : EqualityThreads) (ot : ℕ → OtPack)
    (random : BlockEqualityRandomness) (size : ℕ) : Prop where
  words : threads.Delivers ot random.thread 64 5 (2 * size)
  setup : ((threads.otpackArr 2).setup .alice).Meets ((threads.otpackArr 2).setup .bob) () ()
  triples : (threads.generateTriples 2 .alice size).Meets (threads.generateTriples 2 .bob size)
    random.tripleAlice random.tripleBob

theorem FinalWires.start_openings (packing : BitPacking) (triple : Triple) (size : ℕ)
    (resShares : List Byte) :
    (FinalWires.start packing triple size resShares).ei.length = size / 8 ∧
      (FinalWires.start packing triple size resShares).fi.length = size / 8 :=
  ⟨length_finalMask .., length_finalMask ..⟩

theorem performBlockEqualityProgram_meets {threadsOf : ℕ → EqualityThreads}
    {otpack : ℕ → ℕ → OtPack} {radix : ℕ} {random : BlockEqualityRandomness}
    {inputsAlice inputsBob : List Block}
    (hthreads : (threadsOf radix).DeliversBlocks (otpack radix) random inputsAlice.length)
    (hlen : inputsBob.length = inputsAlice.length) {masksAlice masksBob : ℕ → List Bool}
    (hmasks : DrawMasks random.thread masksAlice masksBob) :
    (performBlockEqualityProgram wan packing threadsOf radix .alice masksAlice inputsAlice).Meets
      (performBlockEqualityProgram wan packing threadsOf radix .bob masksBob inputsBob)
      ((performBlockEquality .int wan packing otpack radix random inputsAlice inputsBob).map
        Prod.fst)
      ((performBlockEquality .int wan packing otpack radix random inputsAlice inputsBob).map
        Prod.snd) := by
  simp only [performBlockEqualityProgram, hlen]
  refine (Program.Meets.onLine (Channel.ioArr 0)
    (hthreads.words.otpack 0 (by decide)).setup).bind ?_
  -- the roles are exchanged on the second connection
  refine (Program.Meets.onLine (Channel.ioArr 1)
    (hthreads.words.otpack 1 (by decide)).setup.symm).bind ?_
  refine (Program.Meets.onLine (Channel.ioArr 2) hthreads.setup).bind ?_
  refine (Program.Meets.onLine (Channel.ioArr 2) hthreads.triples).bind ?_
  have hdigits : 0 < (64 + 5 - 1) / 5 := by decide
  refine (performEqualityProgram_meets packing wan (fun _ => hdigits) hthreads.words hmasks
    (wordsOf inputsAlice) (wordsOf inputsBob)).bind ?_
  rw [performBlockEquality]
  cases performEquality .int wan packing (otpack radix) random.thread (wordsOf inputsAlice)
    (wordsOf inputsBob) 64 5 (2 * inputsAlice.length) with
  | error e => exact .done _ _
  | ok res =>
      have hexchange := exchangeOpenings_meets
        (FinalWires.start_openings packing random.tripleAlice inputsAlice.length res.1).1.ge
        (FinalWires.start_openings packing random.tripleAlice inputsAlice.length res.1).2.ge
        (FinalWires.start_openings packing random.tripleBob inputsAlice.length res.2).1.ge
        (FinalWires.start_openings packing random.tripleBob inputsAlice.length res.2).2.ge
      refine (Program.Meets.onLine (Channel.ioArr 0) hexchange).bind ?_
      simp only [FinalWires.finish, FinalWires.roundZ, receive_take]
      exact .done _ _

end Threads

/-! ## The test in any order of steps -/

/-- The connection of a thread. -/
def threadChannel (tid : Fin 2) : Channel := .ioArr tid

theorem threadChannel_injective : Function.Injective threadChannel := by
  intro i j h
  exact Fin.ext (Channel.ioArr.inj h)

theorem facing_roles : Facing Role.other .receiver .sender where
  ne := by decide
  left := rfl
  right := rfl
  only r := by cases r <;> simp

/-- However the steps of the two parties and of their threads are ordered, and
however few bytes the connections hold, `perform_block_equality` on fewer than
`2 ^ 25` blocks, with a context of radix 5, comes to its end, and the two vectors
share which blocks are equal. -/
theorem performBlockEquality_endsIn {wan : Bool} {packing : BitPacking} (hpacking : packing.Lawful)
    (otpack : ℕ → ℕ → OtPack) (hot : ∀ tid < 2, (otpack 5 tid).Lawful (2 ^ 5))
    {random : BlockEqualityRandomness} {inputsAlice inputsBob : List Block}
    (hsize : inputsAlice.length < 2 ^ 25) (hrandom : random.Valid inputsAlice.length)
    (hlen : inputsBob.length = inputsAlice.length) (h8 : 8 ∣ inputsAlice.length)
    (threadsOf : ℕ → EqualityThreads)
    (hthreads : (threadsOf 5).DeliversBlocks (otpack 5) random inputsAlice.length)
    {masksAlice masksBob : ℕ → List Bool} (hmasks : DrawMasks random.thread masksAlice masksBob)
    {room : Role × Channel → ℕ} (hroom : ∀ k, 0 < room k) :
    ∃ zAlice zBob n,
      EndsIn (Program.Step threadChannel Role.other room) n
        (Net.between .receiver
          (performBlockEqualityProgram wan packing threadsOf 5 .alice masksAlice inputsAlice)
          (performBlockEqualityProgram wan packing threadsOf 5 .bob masksBob inputsBob))
        (Net.between .receiver (.done (.ok zAlice)) (.done (.ok zBob))) ∧
      Shares inputsAlice.length (fun i => inputsAlice.getD i 0 = inputsBob.getD i 0)
        zAlice zBob := by
  have hmeets := performBlockEqualityProgram_meets packing wan hthreads hlen hmasks
  obtain ⟨zAlice, zBob, hrun, hshares⟩ : ∃ zAlice zBob,
      performBlockEquality .int wan packing otpack 5 random inputsAlice inputsBob =
        .ok (zAlice, zBob) ∧
      Shares inputsAlice.length (fun i => inputsAlice.getD i 0 = inputsBob.getD i 0) zAlice zBob :=
    performBlockEquality_shares hpacking otpack hot (holds_blocks_iff.mpr hsize) hrandom hlen h8
  rw [hrun] at hmeets
  obtain ⟨n, hends⟩ := hmeets.endsIn facing_roles hroom threadChannel_injective
  exact ⟨zAlice, zBob, n, hends, hshares⟩

/-! ## An instance -/

/-- A transfer in which the receiver sends its choices, and the sender the selected
messages. -/
def selectThreads : TransferThreads where
  send rows n := do
    let choices ← .receiveMany n
    .sendAll (selectOt rows choices)
  recv choices n := do
    sendData choices n
    .receiveMany n

theorem selectThreads_delivers : selectThreads.Delivers selectOt := by
  intro rows choices n hrows hchoices
  have hlen : (selectOt rows choices).length = n := by
    rw [selectOt, List.length_zipWith, hrows, hchoices, Nat.min_self]
  have hsend := (sendData_meets hchoices.ge).symm
  rw [List.take_of_length_le hchoices.le] at hsend
  have hanswer := Thread.sendAll_meets (selectOt rows choices)
  rw [hlen] at hanswer
  exact hsend.bind hanswer

/-- A constructor that has BOB wait for ALICE. -/
def selectPackThreads : OtPackThreads where
  setup
    | .alice => .sendAll [0]
    | .bob => do
        let _ ← .receiveMany 1
        return ()
  kkotBeta := selectThreads
  kkot4 := selectThreads
  kkot8 := selectThreads
  kkot16 := selectThreads
  iknpStraight := selectThreads

theorem selectPackThreads_delivers : selectPackThreads.Delivers selectPack where
  setup := (Thread.sendAll_meets [0]).convert fun _ => ()
  kkotBeta := selectThreads_delivers
  kkot4 := selectThreads_delivers
  kkot8 := selectThreads_delivers
  kkot16 := selectThreads_delivers
  iknpStraight := selectThreads_delivers

/-- Triples that need no messages. -/
def sampleThreads : EqualityThreads where
  otpackArr _ := selectPackThreads
  generateTriples _ party n :=
    .done (match party with
      | .alice => (onesTriples (n / 8)).1
      | .bob => (onesTriples (n / 8)).2)

theorem sampleThreads_deliversBlocks (size : ℕ) :
    sampleThreads.DeliversBlocks (fun _ => selectPack) (sampleRandomness size) size where
  words :=
    { otpack := fun _ _ => selectPackThreads_delivers
      triples := by
        intro tid _
        have htriples : ∀ n, threadTriples n 64 5 = 12 * n := by
          simp [threadTriples, Equality.numTriples, Equality.numDigits]
        rw [htriples]
        exact .done _ _ }
  setup := selectPackThreads_delivers.setup
  triples := .done _ _

theorem sampleRandomness_drawMasks (size : ℕ) :
    DrawMasks (sampleRandomness size).thread (fun tid => ((sampleRandomness size).thread tid).masks)
      (fun tid => ((sampleRandomness size).thread tid).masks) := by
  intro tid _
  exact ite_self _

/-- Connections that hold one byte. -/
theorem performBlockEquality_endsIn_on_eightBlocks :
    ∃ zAlice zBob n,
      EndsIn (Program.Step threadChannel Role.other fun _ => 1) n
        (Net.between .receiver
          (performBlockEqualityProgram false lsbPacking (fun _ => sampleThreads) 5 .alice
            (fun tid => ((sampleRandomness 8).thread tid).masks) eightBlocks)
          (performBlockEqualityProgram false lsbPacking (fun _ => sampleThreads) 5 .bob
            (fun tid => ((sampleRandomness 8).thread tid).masks) eightBlocks.reverse))
        (Net.between .receiver (.done (.ok zAlice)) (.done (.ok zBob))) ∧
      Shares eightBlocks.length (fun i => eightBlocks.getD i 0 = eightBlocks.reverse.getD i 0)
        zAlice zBob := by
  have hlen : eightBlocks.length = 8 := rfl
  have hrandom : (sampleRandomness 8).Valid eightBlocks.length := hlen ▸ sampleRandomness_valid 8
  have hthreads : sampleThreads.DeliversBlocks (fun _ => selectPack) (sampleRandomness 8)
      eightBlocks.length := hlen ▸ sampleThreads_deliversBlocks 8
  exact performBlockEquality_endsIn lsbPacking_lawful (fun _ _ => selectPack)
    (fun _ _ => selectPack_lawful _) (by decide) hrandom (List.length_reverse ..) (by decide)
    (fun _ => sampleThreads) hthreads (sampleRandomness_drawMasks 8) fun _ => Nat.one_pos

end Sectric
