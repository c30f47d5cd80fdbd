import Sectric.Equality.Traffic
import Sectric.Psi.Session
import Sectric.Triangle.Model

/-!
# Message lengths

A session sends the number of bins, the client's seed and masked vector, the
sender's store, the openings of the equality test and the sender's sum, and what
the libraries send in between.  All these lengths come from `MAX_DEGREE`,
`NUM_VERTEX` and the geometry of the stores: the receiver pads its list before
it fills the table, every bin enters the equality test and the transfer, and
the store has one size for any number of keys.  The sizes are not bounded here:
where an `int` does not hold them, no messages follow.
-/

namespace Sectric

open Lib

variable {Seed : Type}

/-- The messages of the libraries in a session: of the VOLE of a length, in the
equality test, and of the transfer, which gets the number of messages from the
one party and the number of choices from the other. -/
structure PsiTraffic where
  vole : ℕ → List Message
  equality : EqualityTraffic
  iknpOt : List Block → List Block → ℕ → List Byte → ℕ → List Message

/-- The lengths depend on the sizes passed in only. -/
structure PsiTraffic.SameSizes (a b : PsiTraffic) : Prop where
  vole : ∀ n, shapes (a.vole n) = shapes (b.vole n)
  equality : a.equality.SameSizes b.equality
  iknpOt : ∀ m₀ m₁ m₀' m₁' choices choices' n k,
    shapes (a.iknpOt m₀ m₁ n choices k) = shapes (b.iknpOt m₀' m₁' n choices' k)

/-- Two sessions of one build, with stores of one geometry. -/
structure Libraries.SameBuild (a b : Libraries Seed) : Prop where
  wan : a.wan = b.wan
  outputSize : ∀ n binSize, (a.baxos n binSize).outputSize = (b.baxos n binSize).outputSize

/-- The messages of a session that ends with `run`, with those of its equality
test. -/
def sessionMessages (cfg : PsiConfig) (lib : Libraries Seed) (traffic : PsiTraffic)
    (random : SessionRandomness Seed) (run : PsiRun) (equality : List Message) : List Message :=
  let client := lib.client cfg random run.ck
  [.word .io .receiver (BitVec.ofNat 64 cfg.nbins)] ++
    traffic.vole (lib.pp cfg).okvsOutputSize ++
    [.blocks .io .receiver [client.seedR], .blocks .io .receiver client.masked] ++
    [.word .io2 .sender (BitVec.ofNat 64 cfg.okvsItems), .blocks .io2 .sender run.okvs] ++
    equality ++
    traffic.iknpOt run.ot.1 run.ot.2 (cfg.nbins + otPadding cfg.nbins) run.choices
      run.choices.length ++
    [.blocks .io2 .sender [run.psiCaTmp]]

/-- The messages of `psi_ca_receiver` and `psi_ca_sender`.  The receiver is ALICE
in the equality test. -/
def psiMessages (cfg : PsiConfig) (h : HashFamily) (prg : Prg Seed) (lib : Libraries Seed)
    (traffic : PsiTraffic) (random : SessionRandomness Seed) (receiverSet senderSet : List Block) :
    Except String (List Message) := do
  let run ← psiCa cfg h prg (lib.subprotocols cfg random .unbounded) random.toPsiRandomness
    receiverSet senderSet
  let equality ← performBlockEqualityMessages lib.wan lib.packing (lib.otpack lib.radix)
    traffic.equality .receiver .sender (random.equality run.eqInputs.length) run.eqInputs
    run.randomValues
  return sessionMessages cfg lib traffic random run equality

/-! ## A session ends -/

/-- The padded list goes into the table, whatever is in it. -/
theorem receiverTable_ok (cfg : PsiConfig) (h : HashFamily) (hnb : 0 < cfg.nbins)
    (hnf : 0 < cfg.nfuns) (vec : List Word) :
    ∃ t idxs ck, receiverTable cfg h vec = .ok t ∧ t.asRawVectorNoID = .ok (idxs, ck) := by
  obtain ⟨t, hmap, hslots⟩ := mapElements_slots (h := h)
    (t := ((CuckooTable.ofNumOfBins cfg.nbins 0).setNumOfHashFunctions cfg.nfuns).insert vec)
    hnb hnf rfl rfl rfl
  exact ⟨t, _, _, hmap, by rw [CuckooTable.asRawVectorNoID, if_neg (by rw [hslots.size]; omega)]⟩

theorem length_maskWith (A P : List Block) (size : ℕ) : (maskWith A P size).length = P.length := by
  rw [maskWith]
  simp only [forLoop_eq]
  rw [foldl_modifyAll_shift (fun i p => p ^^^ A.getD i 0)]
  change (modifyAll id _ _ (modifyAll id _ _ P)).length = _
  rw [length_modifyAll, length_modifyAll]

theorem length_masked (cfg : PsiConfig) (lib : Libraries Seed) (random : SessionRandomness Seed)
    (ck : List Block) : (lib.client cfg random ck).masked.length = (lib.pp cfg).okvsOutputSize :=
  (length_maskWith ..).trans (Baxos.length_solve ..)

theorem performBlockEquality_sizes (wan : Bool) (packing : BitPacking) (otpack : ℕ → ℕ → OtPack)
    (radix : ℕ) (random : BlockEqualityRandomness) (xs ys : List Block) :
    ∃ zs ws, performBlockEquality .unbounded wan packing otpack radix random xs ys =
        .ok (zs, ws) ∧ ws.length = xs.length := by
  obtain ⟨res, hres⟩ := performEquality_ok wan packing (otpack radix) random.thread (wordsOf xs)
    (wordsOf ys) (2 * xs.length)
  refine ⟨_, _, by simp only [performBlockEquality, hres]; rfl, ?_⟩
  rw [FinalWires.finish, length_foldl_setCellsAt (fun i : ℕ => i), List.length_replicate]

/-- A session ends, and what it sends has lengths that no set enters. -/
theorem psiCa_sizes {cfg : PsiConfig} (hsquare : 0 < cfg.square) (hnf : 0 < cfg.nfuns)
    (h : HashFamily) (prg : Prg Seed) (lib : Libraries Seed) (random : SessionRandomness Seed)
    (receiverSet senderSet : List Block) :
    ∃ run, psiCa cfg h prg (lib.subprotocols cfg random .unbounded) random.toPsiRandomness
        receiverSet senderSet = .ok run ∧
      run.eqInputs.length = cfg.nbins ∧
      run.okvs.length = (lib.baxos cfg.okvsItems cfg.okvsBinSize).outputSize ∧
      run.choices.length = cfg.nbins + otPadding cfg.nbins := by
  obtain ⟨n, hn⟩ : ∃ n, cfg.nbins = n := ⟨_, rfl⟩
  obtain ⟨vec, hvec⟩ : ∃ vec, receiverVec cfg random.padding receiverSet = vec := ⟨_, rfl⟩
  obtain ⟨okvs, hokvs⟩ : ∃ okvs, lib.baxos cfg.okvsItems cfg.okvsBinSize = okvs := ⟨_, rfl⟩
  have hpos : 0 < cfg.nbins := cfg.nbins_pos hsquare
  obtain ⟨t, idxs, ck, htable, hraw⟩ := receiverTable_ok cfg h hpos hnf vec
  have hrows := senderRows_eq cfg h hpos senderSet
  rw [hn] at hrows ⊢
  rw [hokvs]
  generalize hbins : psiBins n okvs prg (lib.subprotocols cfg random .unbounded)
    random.toPsiRandomness vec t idxs ck (simpleRows h n cfg.nfuns (senderVec cfg senderSet)) = bins
  have hlen : bins.eqInputs.length = n := by
    rw [← hbins]
    exact length_eqBlocks ..
  obtain ⟨zs, ws, hanswers, hws⟩ := performBlockEquality_sizes lib.wan lib.packing lib.otpack
    lib.radix (random.equality bins.eqInputs.length) bins.eqInputs bins.randomValues
  subst hbins
  refine ⟨_, psiCa_of_parts hn hokvs hvec htable hraw hrows hanswers, hlen, ?_, ?_⟩
  · exact Baxos.length_solve ..
  · show (ws ++ List.replicate (otPadding n) 0).length = _
    rw [List.length_append, List.length_replicate, hws, hlen]

/-! ## Two sessions -/

/-- The message of a neighbour. -/
theorem length_neighbor (cfg : PsiConfig) (baxos : ℕ → ℕ → Baxos Seed) (prg : Prg Seed)
    (randomSeed : Seed) (idx : Word) (file : List Word) :
    (neighbor cfg baxos prg randomSeed idx file).length =
      4 + (degreeBaxos cfg baxos).outputSize * 16 := by
  rw [neighbor, length_sendMessage, neighborTable, Baxos.length_solve]

section TwoSessions

variable (cfg : PsiConfig) (hsquare : 0 < cfg.square) (hnf : 0 < cfg.nfuns)
  (lib lib' : Libraries Seed) (hlib : lib.SameBuild lib') (traffic traffic' : PsiTraffic)
  (htraffic : traffic.SameSizes traffic')

include hsquare hnf hlib htraffic

end TwoSessions

/-! ## An instance -/

/-- Library messages that repeat one byte. -/
def fillTraffic (fill : Byte) : PsiTraffic where
  vole n := [{ channel := .io, source := .sender, payload := List.replicate n fill }]
  equality :=
    let transfer (i : ℕ) (_ : List (List Byte)) (_ : List Byte) (n : ℕ) : List Message :=
      [{ channel := .ioArr i, source := .receiver, payload := List.replicate n fill },
        { channel := .ioArr i, source := .sender, payload := List.replicate n fill }]
    { otpackSetup i := [{ channel := .ioArr i, source := .receiver, payload := [fill] }]
      otpack i :=
        { kkotBeta := transfer i
          kkot4 := transfer i
          kkot8 := transfer i
          kkot16 := transfer i
          iknpStraight := transfer i }
      generateTriples i n := transfer i [] [] n }
  iknpOt _ _ n _ k :=
    [{ channel := .io2, source := .sender, payload := List.replicate k fill },
      { channel := .io2, source := .receiver, payload := List.replicate n fill }]

theorem fillTraffic_sameSizes (fill fill' : Byte) :
    (fillTraffic fill).SameSizes (fillTraffic fill') := by
  have htransfer : ∀ i n, shapes ((fillTraffic fill).equality.generateTriples i n) =
      shapes ((fillTraffic fill').equality.generateTriples i n) := by
    intro i n
    simp [fillTraffic, Message.shape]
  refine ⟨?_, ⟨fun _ => rfl, fun i => ?_, htransfer⟩, ?_⟩
  · intro n
    simp [fillTraffic, Message.shape]
  · exact ⟨fun _ _ _ _ n => htransfer i n, fun _ _ _ _ n => htransfer i n,
      fun _ _ _ _ n => htransfer i n, fun _ _ _ _ n => htransfer i n,
      fun _ _ _ _ n => htransfer i n⟩
  · intro _ _ _ _ _ _ n k
    simp [fillTraffic, Message.shape]

end Sectric
