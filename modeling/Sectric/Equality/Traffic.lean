import Sectric.Equality.BlockEquality
import Sectric.Net.Message

/-!
# The messages of the equality test

The transfers and the generation of triples have messages of their own, which
are parameters.  What the test sends itself are the openings: at every level of
the tree, and once more at the end, each party sends its masked inputs.  Their
lengths depend on the number of comparisons only, and are said for every number:
the sizes are `SizeType.unbounded` here.
-/

namespace Sectric

open Lib

/-! ## The libraries' messages -/

/-- The messages of the transfers of an `OTPack`, from the message rows, the
choices and the number of transfers. -/
structure OtTraffic where
  kkotBeta : List (List Byte) → List Byte → ℕ → List Message
  kkot4 : List (List Byte) → List Byte → ℕ → List Message
  kkot8 : List (List Byte) → List Byte → ℕ → List Message
  kkot16 : List (List Byte) → List Byte → ℕ → List Message
  iknpStraight : List (List Byte) → List Byte → ℕ → List Message

/-- The messages of the libraries in an equality test: of the constructor of
`otpackArr[i]`, of its transfers, and of the generation of a number of triples
over it. -/
structure EqualityTraffic where
  otpackSetup : ℕ → List Message
  otpack : ℕ → OtTraffic
  generateTriples : ℕ → ℕ → List Message

/-- The lengths of two transfers' messages agree when the numbers of transfers
do. -/
def SameSizes (f g : List (List Byte) → List Byte → ℕ → List Message) : Prop :=
  ∀ rows rows' choices choices' n, shapes (f rows choices n) = shapes (g rows' choices' n)

structure OtTraffic.SameSizes (a b : OtTraffic) : Prop where
  kkotBeta : Sectric.SameSizes a.kkotBeta b.kkotBeta
  kkot4 : Sectric.SameSizes a.kkot4 b.kkot4
  kkot8 : Sectric.SameSizes a.kkot8 b.kkot8
  kkot16 : Sectric.SameSizes a.kkot16 b.kkot16
  iknpStraight : Sectric.SameSizes a.iknpStraight b.iknpStraight

structure EqualityTraffic.SameSizes (a b : EqualityTraffic) : Prop where
  otpackSetup : ∀ i, shapes (a.otpackSetup i) = shapes (b.otpackSetup i)
  otpack : ∀ i, (a.otpack i).SameSizes (b.otpack i)
  generateTriples : ∀ i n, shapes (a.generateTriples i n) = shapes (b.generateTriples i n)

/-! ## The messages of one thread -/

/-- The messages of the leaf transfers. -/
def Equality.leafMessages (wan : Bool) (traffic : OtTraffic) (eq : Equality)
    (messages : List (List Byte)) (choices : List Byte) : List Message :=
  let full := eq.numCmps * (eq.numDigits - 1)
  let head := traffic.kkotBeta (messages.take full) (choices.take full) full
  let topMessages := messages.drop full
  let topChoices := choices.drop full
  if wan then traffic.kkotBeta messages choices (eq.numCmps * eq.numDigits)
  else if eq.r = 1 then head ++ traffic.iknpStraight topMessages topChoices eq.numCmps
  else if eq.r ≠ 0 then
    if eq.r = 2 then head ++ traffic.kkot4 topMessages topChoices eq.numCmps
    else if eq.r = 3 then head ++ traffic.kkot8 topMessages topChoices eq.numCmps
    else if eq.r = 4 then head ++ traffic.kkot16 topMessages topChoices eq.numCmps
    else head
  else traffic.kkotBeta messages choices (eq.numCmps * eq.numDigits)

theorem Equality.shapes_leafMessages (wan : Bool) {a b : OtTraffic} (h : a.SameSizes b)
    (eq : Equality) (messages messages' : List (List Byte)) (choices choices' : List Byte) :
    shapes (eq.leafMessages wan a messages choices) =
      shapes (eq.leafMessages wan b messages' choices') := by
  simp only [Equality.leafMessages]
  repeat' split
  case isFalse.isTrue =>
    rw [shapes_append, shapes_append, h.kkotBeta, h.iknpStraight]
  all_goals
    first
      | exact h.kkotBeta ..
      | rw [shapes_append, shapes_append, h.kkotBeta]
        first
          | rw [h.kkot4]
          | rw [h.kkot8]
          | rw [h.kkot16]

/-- The openings of two parties: ALICE sends first. -/
def openings (channel : Channel) (alice bob : Role) (commSize : ℕ)
    (eiAlice fiAlice eiBob fiBob : List Byte) : List Message :=
  [.data channel alice eiAlice commSize, .data channel alice fiAlice commSize,
    .data channel bob eiBob commSize, .data channel bob fiBob commSize]

/-- The shape of openings. -/
def openingShapes (channel : Channel) (alice bob : Role) (commSize : ℕ) :
    List (Channel × Role × ℕ) :=
  [(channel, alice, commSize), (channel, alice, commSize), (channel, bob, commSize),
    (channel, bob, commSize)]

theorem shapes_openings {channel : Channel} {alice bob : Role} {commSize : ℕ}
    {eiAlice fiAlice eiBob fiBob : List Byte} (h₁ : commSize ≤ eiAlice.length)
    (h₂ : commSize ≤ fiAlice.length) (h₃ : commSize ≤ eiBob.length)
    (h₄ : commSize ≤ fiBob.length) :
    shapes (openings channel alice bob commSize eiAlice fiAlice eiBob fiBob) =
      openingShapes channel alice bob commSize := by
  rw [openings, shapes_cons, shapes_cons, shapes_cons, shapes_cons, shape_data h₁, shape_data h₂,
    shape_data h₃, shape_data h₄]
  rfl

section Traversal

variable (packing : BitPacking) (triplesAlice triplesBob : Triple) (numDigits numCmps : ℕ)
  (channel : Channel) (alice bob : Role)

/-- The openings of a level, from the state before it. -/
def Traversal.levelMessages (t : Traversal) (i : ℕ) : List Message :=
  let wiresAlice := t.alice.maskPass packing triplesAlice numDigits numCmps i t.tripleCount
  let wiresBob := t.bob.maskPass packing triplesBob numDigits numCmps i t.tripleCount
  let counter := (levelGates numDigits i).length
  openings channel alice bob (counter * numCmps / 8) wiresAlice.ei wiresAlice.fi wiresBob.ei
    wiresBob.fi

/-- The openings of `traverse_and_compute_ANDs`. -/
def traversalMessages (leafAlice leafBob : List Byte) : List Message :=
  let bytes := (numDigits - 1) * numCmps / 8
  let start : Traversal :=
    { alice := Wires.start bytes leafAlice
      bob := Wires.start bytes leafBob
      tripleCount := 0
      oldTripleCount := 0 }
  ((loopValues (fun i => decide (i < numDigits)) (· * 2) numDigits 1).foldl (fun s i =>
    (s.1.level packing triplesAlice triplesBob numDigits numCmps i,
      s.2 ++ s.1.levelMessages packing triplesAlice triplesBob numDigits numCmps channel alice bob
        i)) (start, [])).2

variable {packing triplesAlice triplesBob numDigits numCmps channel alice bob}

/-- The buffers of the openings keep their size. -/
structure Traversal.Buffers (bytes : ℕ) (t : Traversal) : Prop where
  ei_alice : t.alice.ei.length = bytes
  fi_alice : t.alice.fi.length = bytes
  ei_bob : t.bob.ei.length = bytes
  fi_bob : t.bob.fi.length = bytes

theorem length_maskPass (w : Wires) (triples : Triple) (i tripleCount : ℕ) :
    (w.maskPass packing triples numDigits numCmps i tripleCount).ei.length = w.ei.length ∧
      (w.maskPass packing triples numDigits numCmps i tripleCount).fi.length = w.fi.length :=
  ⟨length_writeAll .., length_writeAll ..⟩

theorem Traversal.Buffers.level {bytes : ℕ} {t : Traversal} (h : t.Buffers bytes) (i : ℕ) :
    (t.level packing triplesAlice triplesBob numDigits numCmps i).Buffers bytes where
  ei_alice := (length_maskPass t.alice triplesAlice i t.tripleCount).1.trans h.ei_alice
  fi_alice := (length_maskPass t.alice triplesAlice i t.tripleCount).2.trans h.fi_alice
  ei_bob := (length_maskPass t.bob triplesBob i t.tripleCount).1.trans h.ei_bob
  fi_bob := (length_maskPass t.bob triplesBob i t.tripleCount).2.trans h.fi_bob

/-- A level opens one byte per eight gates. -/
theorem Traversal.shapes_levelMessages {t : Traversal} (hnd : 0 < numDigits)
    (h : t.Buffers ((numDigits - 1) * numCmps / 8)) {i : ℕ} (hi : 0 < i) :
    shapes (t.levelMessages packing triplesAlice triplesBob numDigits numCmps channel alice bob i) =
      openingShapes channel alice bob (gateCount numDigits i * numCmps / 8) := by
  have hroom : gateCount numDigits i * numCmps / 8 ≤ (numDigits - 1) * numCmps / 8 :=
    level_room rfl hnd hi
  obtain ⟨heiAlice, hfiAlice⟩ := length_maskPass
    t.alice triplesAlice i t.tripleCount
  obtain ⟨heiBob, hfiBob⟩ := length_maskPass
    t.bob triplesBob i t.tripleCount
  rw [Traversal.levelMessages, length_levelGates hi]
  exact shapes_openings (by rw [heiAlice, h.ei_alice]; exact hroom)
    (by rw [hfiAlice, h.fi_alice]; exact hroom) (by rw [heiBob, h.ei_bob]; exact hroom)
    (by rw [hfiBob, h.fi_bob]; exact hroom)

/-- The openings of a run of levels. -/
theorem shapes_levels (hnd : 0 < numDigits) :
    ∀ (levels : List ℕ) (t : Traversal) (sent : List Message), (∀ i ∈ levels, 0 < i) →
      t.Buffers ((numDigits - 1) * numCmps / 8) →
      shapes (levels.foldl (fun (s : Traversal × List Message) i =>
        (s.1.level packing triplesAlice triplesBob numDigits numCmps i,
          s.2 ++ s.1.levelMessages packing triplesAlice triplesBob numDigits numCmps channel alice
            bob i)) (t, sent)).2 =
        shapes sent ++ levels.flatMap fun i =>
          openingShapes channel alice bob (gateCount numDigits i * numCmps / 8) := by
  intro levels
  induction levels with
  | nil =>
      intro t sent _ _
      rw [List.foldl_nil, List.flatMap_nil, List.append_nil]
  | cons i levels ih =>
      intro t sent hpos h
      rw [List.foldl_cons, ih _ _ (fun k hk => hpos k (List.mem_cons_of_mem _ hk)) (h.level i),
        shapes_append, Traversal.shapes_levelMessages hnd h (hpos i (List.mem_cons_self ..)),
        List.flatMap_cons, List.append_assoc]

theorem shapes_traversalMessages (hnd : 0 < numDigits) (leafAlice leafBob : List Byte) :
    shapes (traversalMessages packing triplesAlice triplesBob numDigits numCmps channel alice bob
      leafAlice leafBob) =
        (loopValues (fun i => decide (i < numDigits)) (· * 2) numDigits 1).flatMap fun i =>
          openingShapes channel alice bob (gateCount numDigits i * numCmps / 8) := by
  rw [traversalMessages]
  refine (shapes_levels hnd _ _ _ ?_ ?_).trans (List.nil_append _)
  · exact loopValues_double_pos Nat.one_pos
  · exact ⟨by simp [Wires.start], by simp [Wires.start], by simp [Wires.start],
      by simp [Wires.start]⟩

end Traversal

/-! ## The messages of the test -/

/-- The messages of an `Equality` object of each party, run to the end. -/
def Equality.messages (wan : Bool) (packing : BitPacking) (ot : OtPack) (traffic : EqualityTraffic)
    (tid : ℕ) (alice bob : Role) (eq : Equality) (random : EqualityRandomness)
    (dataAlice dataBob : List Word) : Except String (List Message) := do
  let (leafAlice, leafBob) ← eq.computeLeafOTs wan ot dataAlice dataBob random.masks
  return eq.leafMessages wan (traffic.otpack tid)
      (eq.leafOtMessages wan (eq.digits dataAlice) (random.masks.map boolByte))
      (eq.digits dataBob) ++
    traffic.generateTriples tid (eq.numTriples * eq.numCmps) ++
    traversalMessages packing random.triplesAlice random.triplesBob eq.numDigits eq.numCmps
      (.ioArr tid) alice bob leafAlice leafBob

/-- The messages of `equality_thread`. -/
def equalityThreadMessages (wan : Bool) (packing : BitPacking) (ot : OtPack)
    (traffic : EqualityTraffic) (tid : ℕ) (alice bob : Role) (random : EqualityRandomness)
    (xAlice xBob : List Word) (lnumCmps l b : ℕ) : Except String (List Message) :=
  let eq : Equality := { l := l, beta := b, numCmps := lnumCmps }
  if tid % 2 = 1 then eq.messages wan packing ot traffic tid bob alice random xBob xAlice
  else eq.messages wan packing ot traffic tid alice bob random xAlice xBob

/-- The messages of `perform_equality`.  The threads use different connections;
here those of the first come first. -/
def performEqualityMessages (wan : Bool) (packing : BitPacking) (ot : ℕ → OtPack)
    (traffic : EqualityTraffic) (alice bob : Role) (random : ℕ → EqualityRandomness)
    (xAlice xBob : List Word) (l b numCmps : ℕ) : Except String (List Message) := do
  let chunkSize := numCmps / (8 * 2) * 8
  let offset := 1 * chunkSize
  let first ← equalityThreadMessages wan packing (ot 0) traffic 0 alice bob (random 0) xAlice xBob
    chunkSize l b
  let second ← equalityThreadMessages wan packing (ot 1) traffic 1 alice bob (random 1)
    (xAlice.drop offset) (xBob.drop offset) (numCmps - offset) l b
  return first ++ second

/-- The messages of `perform_block_equality`. -/
def performBlockEqualityMessages (wan : Bool) (packing : BitPacking) (ot : ℕ → OtPack)
    (traffic : EqualityTraffic) (alice bob : Role) (random : BlockEqualityRandomness)
    (inputsAlice inputsBob : List Block) : Except String (List Message) := do
  let size := inputsAlice.length
  let threads ← performEqualityMessages wan packing ot traffic alice bob random.thread
    (wordsOf inputsAlice) (wordsOf inputsBob) 64 5 (2 * size)
  let (resAlice, resBob) ← performEquality .unbounded wan packing ot random.thread
    (wordsOf inputsAlice) (wordsOf inputsBob) 64 5 (2 * size)
  let wiresAlice := FinalWires.start packing random.tripleAlice size resAlice
  let wiresBob := FinalWires.start packing random.tripleBob size resBob
  return traffic.otpackSetup 0 ++ traffic.otpackSetup 1 ++ traffic.otpackSetup 2 ++
    traffic.generateTriples 2 size ++ threads ++
    openings (.ioArr 0) alice bob (size / 8) wiresAlice.ei wiresAlice.fi wiresBob.ei wiresBob.fi

section Test

variable {wan : Bool} {packing packing' : BitPacking} {traffic traffic' : EqualityTraffic}
  (htraffic : traffic.SameSizes traffic') {alice bob : Role}

/-- Where the top digit has a transfer, the leaf transfers do not fail. -/
theorem Equality.computeLeafOTs_ok (eq : Equality) (hr : wan = true ∨ eq.r ≤ 4) (ot : OtPack)
    (dataAlice dataBob : List Word) (masks : List Bool) :
    ∃ leafBob, eq.computeLeafOTs wan ot dataAlice dataBob masks =
      .ok (masks.map boolByte, leafBob) := by
  have hleaf : ∀ messages choices, ∃ received,
      eq.leafOts wan ot messages choices = .ok received := by
    intro messages choices
    cases wan with
    | true => exact ⟨_, by rw [Equality.leafOts, if_pos rfl]⟩
    | false =>
        have hr4 : eq.r ≤ 4 := hr.resolve_left Bool.false_ne_true
        have hcases : eq.r = 0 ∨ eq.r = 1 ∨ eq.r = 2 ∨ eq.r = 3 ∨ eq.r = 4 := by omega
        rcases hcases with h | h | h | h | h <;>
          exact ⟨_, by simp [Equality.leafOts, h]; rfl⟩
  obtain ⟨received, h⟩ := hleaf (eq.leafOtMessages wan (eq.digits dataAlice) (masks.map boolByte))
    (eq.digits dataBob)
  refine ⟨received, ?_⟩
  rw [Equality.computeLeafOTs, h]
  rfl

include htraffic

/-- What an observer sees of an `Equality` object does not depend on the data. -/
theorem Equality.sameShapes_messages {eq : Equality} (hnd : 0 < eq.numDigits)
    (hr : wan = true ∨ eq.r ≤ 4) (tid : ℕ) (ot ot' : OtPack) (random random' : EqualityRandomness)
    (dataAlice dataBob dataAlice' dataBob' : List Word) :
    SameShapes (eq.messages wan packing ot traffic tid alice bob random dataAlice dataBob)
      (eq.messages wan packing' ot' traffic' tid alice bob random' dataAlice' dataBob') := by
  obtain ⟨leafBob, hleaf⟩ := Equality.computeLeafOTs_ok eq hr ot dataAlice dataBob random.masks
  obtain ⟨leafBob', hleaf'⟩ :=
    Equality.computeLeafOTs_ok eq hr ot' dataAlice' dataBob' random'.masks
  refine ⟨_, _, by rw [Equality.messages, hleaf]; rfl, by rw [Equality.messages, hleaf']; rfl, ?_⟩
  rw [shapes_append, shapes_append, shapes_append, shapes_append, shapes_traversalMessages hnd,
    shapes_traversalMessages hnd, htraffic.generateTriples,
    Equality.shapes_leafMessages wan (htraffic.otpack tid)]

theorem sameShapes_equalityThreadMessages {l b lnumCmps : ℕ}
    (hnd : 0 < Equality.numDigits { l := l, beta := b, numCmps := lnumCmps })
    (hr : wan = true ∨ l % b ≤ 4) (tid : ℕ) (ot ot' : OtPack) (random random' : EqualityRandomness)
    (xAlice xBob xAlice' xBob' : List Word) :
    SameShapes
      (equalityThreadMessages wan packing ot traffic tid alice bob random xAlice xBob lnumCmps l b)
      (equalityThreadMessages wan packing' ot' traffic' tid alice bob random' xAlice' xBob' lnumCmps
        l b) := by
  rw [equalityThreadMessages, equalityThreadMessages]
  split
  · exact Equality.sameShapes_messages htraffic hnd hr ..
  · exact Equality.sameShapes_messages htraffic hnd hr ..

theorem sameShapes_performEqualityMessages {l b : ℕ}
    (hnd : ∀ n, 0 < Equality.numDigits { l := l, beta := b, numCmps := n })
    (hr : wan = true ∨ l % b ≤ 4) (numCmps : ℕ) (ot ot' : ℕ → OtPack)
    (random random' : ℕ → EqualityRandomness) (xAlice xBob xAlice' xBob' : List Word) :
    SameShapes
      (performEqualityMessages wan packing ot traffic alice bob random xAlice xBob l b numCmps)
      (performEqualityMessages wan packing' ot' traffic' alice bob random' xAlice' xBob' l b
        numCmps) :=
  SameShapes.append (sameShapes_equalityThreadMessages htraffic (hnd _) hr ..)
    (sameShapes_equalityThreadMessages htraffic (hnd _) hr ..)

variable (wan) in
omit htraffic in
/-- The comparison of 64-bit words in digits of 5 bits does not fail. -/
theorem performEquality_ok (packing : BitPacking) (ot : ℕ → OtPack)
    (random : ℕ → EqualityRandomness) (xAlice xBob : List Word) (numCmps : ℕ) :
    ∃ res, performEquality .unbounded wan packing ot random xAlice xBob 64 5 numCmps =
      .ok res := by
  have hthread : ∀ ot tid random xAlice xBob n,
      ∃ res, equalityThread .unbounded wan packing ot tid random xAlice xBob n 64 5 =
        .ok res := by
    intro ot tid random xAlice xBob n
    have hrun : ∀ xAlice xBob, ∃ res, Equality.run .unbounded wan packing ot
        { l := 64, beta := 5, numCmps := n } random xAlice xBob = .ok res := by
      intro xAlice xBob
      obtain ⟨leafBob, hleaf⟩ := Equality.computeLeafOTs_ok
        { l := 64, beta := 5, numCmps := n } (.inr (show 64 % 5 ≤ 4 by decide)) ot xAlice xBob
        random.masks
      exact ⟨_, by rw [Equality.run, if_pos (SizeType.unbounded_holds _), hleaf]; rfl⟩
    rw [equalityThread]
    split
    · obtain ⟨res, hres⟩ := hrun xBob xAlice
      exact ⟨_, by rw [hres]; rfl⟩
    · exact hrun xAlice xBob
  obtain ⟨first, hfirst⟩ := hthread (ot 0) 0 (random 0) xAlice xBob (numCmps / (8 * 2) * 8)
  obtain ⟨second, hsecond⟩ := hthread (ot 1) 1 (random 1)
    (xAlice.drop (1 * (numCmps / (8 * 2) * 8))) (xBob.drop (1 * (numCmps / (8 * 2) * 8)))
    (numCmps - 1 * (numCmps / (8 * 2) * 8))
  refine ⟨(first.1 ++ second.1, first.2 ++ second.2), ?_⟩
  rw [performEquality, if_pos (SizeType.unbounded_holds _)]
  simp only [hfirst, hsecond]
  rfl

/-- What an observer sees of the equality test depends on the number of blocks
only. -/
theorem sameShapes_performBlockEqualityMessages (ot ot' : ℕ → OtPack)
    (random random' : BlockEqualityRandomness) {inputsAlice inputsAlice' : List Block}
    (hlen : inputsAlice.length = inputsAlice'.length) (inputsBob inputsBob' : List Block) :
    SameShapes
      (performBlockEqualityMessages wan packing ot traffic alice bob random inputsAlice inputsBob)
      (performBlockEqualityMessages wan packing' ot' traffic' alice bob random' inputsAlice'
        inputsBob') := by
  have hnd : ∀ n, 0 < Equality.numDigits { l := 64, beta := 5, numCmps := n } := by
    intro n
    show 0 < (64 + 5 - 1) / 5
    decide
  have hsame : SameShapes
      (performEqualityMessages wan packing ot traffic alice bob random.thread
        (wordsOf inputsAlice) (wordsOf inputsBob) 64 5 (2 * inputsAlice.length))
      (performEqualityMessages wan packing' ot' traffic' alice bob random'.thread
        (wordsOf inputsAlice') (wordsOf inputsBob') 64 5 (2 * inputsAlice.length)) :=
    sameShapes_performEqualityMessages htraffic hnd (.inr (by decide)) ..
  obtain ⟨threads, threads', hthreads, hthreads', hshapes⟩ := hsame
  obtain ⟨res, hres⟩ := performEquality_ok wan packing ot random.thread
    (wordsOf inputsAlice) (wordsOf inputsBob) (2 * inputsAlice.length)
  obtain ⟨res', hres'⟩ := performEquality_ok wan packing' ot' random'.thread
    (wordsOf inputsAlice') (wordsOf inputsBob') (2 * inputsAlice.length)
  refine ⟨_, _, by simp only [performBlockEqualityMessages, hthreads, hres]; rfl,
    by simp only [performBlockEqualityMessages, ← hlen, hthreads', hres']; rfl, ?_⟩
  have hopenings : ∀ (packing : BitPacking) (tripleAlice tripleBob : Triple) (n : ℕ)
      (resAlice resBob : List Byte), shapes (openings (.ioArr 0) alice bob (n / 8)
        (FinalWires.start packing tripleAlice n resAlice).ei
        (FinalWires.start packing tripleAlice n resAlice).fi
        (FinalWires.start packing tripleBob n resBob).ei
        (FinalWires.start packing tripleBob n resBob).fi) =
          openingShapes (.ioArr 0) alice bob (n / 8) := by
    intro packing tripleAlice tripleBob n resAlice resBob
    exact shapes_openings (length_finalMask ..).ge (length_finalMask ..).ge
      (length_finalMask ..).ge (length_finalMask ..).ge
  simp only [shapes_append, htraffic.otpackSetup, htraffic.generateTriples, hshapes, hopenings]

end Test

end Sectric
