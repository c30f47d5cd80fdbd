import Sectric.Psi.Cardinality

/-!
# What the reported number counts

The sum has one term per active bin.  An active bin is an entry of the padded
list that the mapping has left in the table, and no entry sits in two bins.  So
the sum is the number of entries of the list that are in the table and whose
element the sender has.
-/

namespace Sectric

open Lib

/-! ## Entries in the table -/

/-- Entry `id` of the inserted list sits in the table. -/
def CuckooTable.holds (t : CuckooTable) (id : ℕ) : Bool :=
  t.hashTable.any fun e => !e.isEmpty && e.globalId == id

/-- The number of entries of the list that sit in the table and occur among the
elements. -/
def countHeld (t : CuckooTable) (vec elements : List Word) : ℕ :=
  ((List.range vec.length).filter fun id => t.holds id && decide (vec.getD id 0 ∈ elements)).length

theorem holds_iff {t : CuckooTable} {id : ℕ} :
    t.holds id = true ↔ id ∈ (live t.hashTable).map HashTableEntry.globalId := by
  rw [CuckooTable.holds, List.any_eq_true, List.mem_map]
  constructor
  · rintro ⟨e, he, hid⟩
    rw [Bool.and_eq_true, Bool.not_eq_true', beq_iff_eq] at hid
    exact ⟨e, mem_live.mpr ⟨he, hid.1⟩, hid.2⟩
  · rintro ⟨e, he, rfl⟩
    obtain ⟨hmem, hne⟩ := mem_live.mp he
    exact ⟨e, hmem, by rw [hne, beq_self_eq_true]; rfl⟩

section Held

variable {h : HashFamily} {t : CuckooTable} (hinv : CuckooInv h t [] t.elements.length)

include hinv

/-- The entries in the table are the entries of the list that it holds. -/
theorem perm_held :
    ((live t.hashTable).map HashTableEntry.globalId).Perm
      ((List.range t.elements.length).filter t.holds) := by
  have hids := hinv.ids
  rw [List.nil_append, List.map_append] at hids
  have hnodup := hids.nodup_iff.mpr (nodup_storable ..)
  refine (List.perm_ext_iff_of_nodup hnodup.of_append_left (List.nodup_range.filter _)).mpr ?_
  intro id
  rw [List.mem_filter, holds_iff]
  constructor
  · intro hid
    have hlt := (mem_storable.mp (hids.subset (List.mem_append_left _ hid))).1
    exact ⟨List.mem_range.mpr hlt, hid⟩
  · exact And.right

/-- There are no more active bins than entries of the list. -/
theorem length_occupied_le : t.occupied.length ≤ t.elements.length := by
  have hlen := length_occupied_add_stash hinv
  have hle := length_storable_le t.elements t.elements.length
  omega

/-- An entry of the table holds the element of the list at its own index. -/
theorem value_eq_of_mem_live {e : HashTableEntry} (he : e ∈ live t.hashTable) :
    e.value ∈ t.elements ∧ t.elements.getD e.globalId 0 = e.value := by
  obtain ⟨hmem, hne⟩ := mem_live.mp he
  obtain ⟨b, hb⟩ := List.mem_iff_getElem?.mp hmem
  obtain ⟨v, id, f, -, hv, -, rfl⟩ := (hinv.placed b e hb hne).1
  refine ⟨List.mem_of_getElem? hv, ?_⟩
  rw [List.getD_eq_getElem?_getD]
  exact congrArg (Option.getD · 0) hv

theorem countP_occupied (elements : List Word) :
    t.occupied.countP (fun e => decide (e.1.value ∈ elements)) =
      countHeld t t.elements elements := by
  have hlive : t.occupied.countP (fun e => decide (e.1.value ∈ elements)) =
      (live t.hashTable).countP fun e => decide (e.value ∈ elements) := by
    rw [← map_fst_occupied hinv.size, List.countP_map]
    rfl
  have hvalue : (live t.hashTable).countP (fun e => decide (e.value ∈ elements)) =
      ((live t.hashTable).map HashTableEntry.globalId).countP
        fun id => decide (t.elements.getD id 0 ∈ elements) := by
    rw [List.countP_map]
    refine List.countP_congr fun e he => ?_
    rw [Function.comp_apply, (value_eq_of_mem_live hinv he).2]
  rw [hlive, hvalue, (perm_held hinv).countP_eq, List.countP_filter, List.countP_eq_length_filter,
    countHeld]
  congr 2
  funext id
  exact Bool.and_comm ..

end Held

/-! ## The sum as a count -/

/-- A sum of ones and zeros along a list counts. -/
theorem sum_eq_countP {α : Type} {w : ℕ} (q : α → Bool) :
    ∀ (l : List α) (f : ℕ → BitVec w), (∀ p a, l[p]? = some a → f p = if q a then 1 else 0) →
      ∑ p ∈ Finset.range l.length, f p = BitVec.ofNat w (l.countP q)
  | [], _, _ => rfl
  | a :: l, f, hf => by
      have ih := sum_eq_countP q l (fun p => f (p + 1)) fun p b hp => hf (p + 1) b hp
      rw [List.length_cons, Finset.sum_range_succ', ih, hf 0 a rfl, List.countP_cons,
        BitVec.ofNat_add]
      congr 1
      split <;> rfl

/-- Two bits differ exactly when they share a one. -/
theorem ne_iff_sharedBit {xs ys : List Byte} {c : ℕ} (hx : IsBit (xs.getD c 0))
    (hy : IsBit (ys.getD c 0)) : xs.getD c 0 ≠ ys.getD c 0 ↔ sharedBit xs ys c = true := by
  rw [sharedBit, bitAt, bitAt]
  rcases hx with hx | hx <;> rcases hy with hy | hy <;> rw [hx, hy] <;> decide

section Run

variable {Seed : Type} {n nf : ℕ} {okvs : Baxos Seed} {h : HashFamily} {prg : Prg Seed}
  {sub : Subprotocols Seed} {random : PsiRandomness Seed} {elements : List Word}
  {t : CuckooTable} {zs ws : List Byte} {F : Block → Block}

/-- The term of an active bin is one if the sender has its element, and zero
otherwise. -/
theorem binWeight_eq (hinv : CuckooInv h t [] t.elements.length) (hn : 0 < n)
    (hbins : t.numBins = n) (hfuns : t.numOfHashFunctions = nf) (hnf : nf ≤ 2 ^ 64)
    (hfolds : elements.Nodup)
    (hshares : Shares n (fun b =>
      (binsOf n nf okvs h prg sub random t.elements elements t).eqInputs.getD b 0 =
        (prg.genRandomBlocks (prg.fixedSeed 0) n).getD b 0) zs ws)
    (hideal : (binsOf n nf okvs h prg sub random t.elements elements t).Ideal okvs sub random F)
    {p b : ℕ} {e : HashTableEntry} (hp : t.occupied[p]? = some (e, b)) :
    binWeight (mapLookup t.elements (List.replicate t.elements.length 1))
        (t.occupied.map Prod.snd) (t.occupied.map entryKey) zs (ws.getD · 0) p =
      if e.value ∈ elements then 1 else 0 := by
  have hmem := List.mem_of_getElem? hp
  obtain ⟨hb, -, -⟩ := hinv.occupied (hbins ▸ hn) hmem
  have hlive : e ∈ live t.hashTable := by
    rw [← map_fst_occupied hinv.size]
    exact List.mem_map_of_mem hmem
  have hidx : (t.occupied.map Prod.snd).getD p 0 = b := getD_map_of_getElem? _ _ hp
  have hkey : ((t.occupied.map entryKey).getD p 0).low = e.value := by
    rw [getD_map_of_getElem? _ _ hp]
    exact low_makeBlock ..
  have hdiffer : zs.getD b 0 = ws.getD b 0 ↔ e.value ∉ elements := by
    rw [← bin_matches_iff hp hinv hn hbins hfuns hnf hfolds hideal,
      ← hshares.shared b (hbins ▸ hb),
      ← ne_iff_sharedBit (hshares.bits_left b) (hshares.bits_right b), not_not]
  have hone : makeBlock 0 1 = 1#128 := by decide
  rw [binWeight, hidx, hkey, mapLookup_eq_one (value_eq_of_mem_live hinv hlive).1, hone]
  by_cases hin : e.value ∈ elements
  · rw [if_pos hin, if_neg fun heq => hdiffer.mp heq hin]
    rfl
  · rw [if_neg hin, if_pos (hdiffer.mpr hin)]

/-- The reported number, modulo `2 ^ 128`. -/
theorem finish_blockAns_eq_countHeld (hinv : CuckooInv h t [] t.elements.length) (hn : 0 < n)
    (hbins : t.numBins = n) (hfuns : t.numOfHashFunctions = nf) (hnf : nf ≤ 2 ^ 64)
    (hfolds : elements.Nodup) (hot : DeliversChosen sub.iknpOt)
    (hshares : Shares n (fun b =>
      (binsOf n nf okvs h prg sub random t.elements elements t).eqInputs.getD b 0 =
        (prg.genRandomBlocks (prg.fixedSeed 0) n).getD b 0) zs ws)
    (hideal : (binsOf n nf okvs h prg sub random t.elements elements t).Ideal okvs sub random F) :
    ((binsOf n nf okvs h prg sub random t.elements elements t).finish n sub random zs ws).blockAns =
      BitVec.ofNat 128 (countHeld t t.elements elements) := by
  have hlt : ∀ b ∈ t.occupied.map Prod.snd, b < n := by
    intro b hb
    obtain ⟨⟨e, b⟩, hmem, rfl⟩ := List.mem_map.mp hb
    exact hbins ▸ (hinv.occupied (hbins ▸ hn) hmem).1
  have hsum := finish_blockAns random
    (binsOf n nf okvs h prg sub random t.elements elements t) hot hshares
    (occupied_increasing t) hlt
  rw [hsum, ← countP_occupied hinv, ← sum_eq_countP]
  · rw [show (binsOf n nf okvs h prg sub random t.elements elements t).idxs.length =
      t.occupied.length from List.length_map ..]
  · intro p e hp
    simp only [decide_eq_true_eq]
    exact binWeight_eq hinv hn hbins hfuns hnf hfolds hshares hideal hp

end Run

/-! ## The cardinality -/

section Cardinality

variable {Seed : Type} (cfg : PsiConfig) (h : HashFamily) (prg : Prg Seed)
  (sub : Subprotocols Seed) (random : PsiRandomness Seed) (receiverSet senderSet : List Block)
  (hsquare : 0 < cfg.square) (hnf : 0 < cfg.nfuns) (hnf' : cfg.nfuns ≤ 2 ^ 64)
  (hsender : senderSet.length = cfg.realNum2) (hfolds : (senderSet.map Block.fold).Nodup)
  (hot : DeliversChosen sub.iknpOt) (hequality : SharesEquality cfg.nbins sub.blockEquality)

include hsquare hnf hnf' hsender hfolds hot hequality

/-- The run of the two parties, with the cuckoo table it counts in. -/
theorem psiCa_run :
    ∃ run, psiCa cfg h prg sub random receiverSet senderSet = .ok run ∧
      run.vec = receiverVec cfg random.padding receiverSet ∧
      receiverTable cfg h run.vec = .ok run.table ∧ run.table.elements = run.vec ∧
      CuckooInv h run.table [] run.vec.length ∧ run.table.numBins = cfg.nbins ∧
      run.errors = stashErrors run.table ∧
      ∀ F, run.toPsiBins.Ideal (sub.baxos cfg.okvsItems cfg.okvsBinSize) sub random F →
        run.blockAns =
          BitVec.ofNat 128 (countHeld run.table run.vec (senderSet.map Block.fold)) := by
  obtain ⟨n, hn⟩ : ∃ n, cfg.nbins = n := ⟨_, rfl⟩
  obtain ⟨vec, hvec⟩ : ∃ vec, receiverVec cfg random.padding receiverSet = vec := ⟨_, rfl⟩
  obtain ⟨okvs, hokvs⟩ : ∃ okvs, sub.baxos cfg.okvsItems cfg.okvsBinSize = okvs := ⟨_, rfl⟩
  have hpos : 0 < n := hn ▸ cfg.nbins_pos hsquare
  rw [hvec, hokvs]
  obtain ⟨t, zs, ws, htable, hinv, hbins, hfuns, rfl, hshares, hrun⟩ :=
    psiCa_ok hn hokvs hvec (senderVec_eq hsender) hpos hnf (hn ▸ hequality)
  refine ⟨_, hrun, rfl, htable, rfl, hinv, hbins.trans hn.symm, rfl, ?_⟩
  intro F hideal
  exact finish_blockAns_eq_countHeld hinv hpos hbins hfuns hnf' hfolds hot hshares hideal

/-- The two parties' run ends, and if the libraries behave as they should the
reported number is the number of entries of the padded list that sit in the
cuckoo table and whose fold is one of the sender's. -/
theorem psiCa_cardinality :
    ∃ run, psiCa cfg h prg sub random receiverSet senderSet = .ok run ∧
      run.vec = receiverVec cfg random.padding receiverSet ∧
      receiverTable cfg h run.vec = .ok run.table ∧
      ∀ F, run.toPsiBins.Ideal (sub.baxos cfg.okvsItems cfg.okvsBinSize) sub random F →
        run.blockAns =
          BitVec.ofNat 128 (countHeld run.table run.vec (senderSet.map Block.fold)) := by
  obtain ⟨run, hrun, hvec, htable, -, -, -, -, hcount⟩ := psiCa_run cfg h prg sub random receiverSet
    senderSet hsquare hnf hnf' hsender hfolds hot hequality
  exact ⟨run, hrun, hvec, htable, hcount⟩

end Cardinality

/-! ## An instance -/

/-- Two vertices of degree at most two. -/
def twoVertices : PsiConfig where
  maxDegree := 2
  numVertex := 2
  nfuns := 3

/-- All masks are 1. -/
def onesPrg : Prg Block where
  fixedSeed _ := 0
  block _ _ := 1

/-- Stores of pairs, a constant function, and transfers that hand out the chosen
messages. -/
def idealSubprotocols : Subprotocols Block where
  baxos n _ := pairStore n
  oprf ck keys := (ck.map fun _ => 2, keys.map fun _ => 2)
  blockEquality xs ys :=
    performBlockEquality .int false lsbPacking (fun _ _ => selectPack) 5
      (sampleRandomness xs.length) xs ys
  iknpOt m₀ m₁ choices :=
    (List.range choices.length).map fun i => otCell (m₀, m₁) (choices.getD i 0) i

theorem idealSubprotocols_blockEquality {n : ℕ} (h8 : 8 ∣ n) (hn : n < 2 ^ 25) :
    SharesEquality n idealSubprotocols.blockEquality := by
  rintro xs ys rfl hys
  exact performBlockEquality_shares lsbPacking_lawful (fun _ _ => selectPack)
    (fun _ _ => selectPack_lawful _) (holds_blocks_iff.mpr hn) (sampleRandomness_valid xs.length)
    hys h8

theorem idealSubprotocols_iknpOt : DeliversChosen idealSubprotocols.iknpOt :=
  pickMessages_deliversChosen

theorem idealSubprotocols_oprf (ck keys : List Block) :
    OprfAgrees idealSubprotocols.oprf (fun _ => 2) ck keys where
  client p key hkey := by
    exact getD_map_of_getElem? (fun _ => (2 : Block)) 0 hkey
  server := rfl

/-- A store large enough for the sender's keys behaves as it should. -/
theorem ideal_of_length_le {n nf c : ℕ} {h : HashFamily} {random : PsiRandomness Block}
    {vec elements : List Word} {t : CuckooTable} (hnf : nf ≤ 2 ^ 64) (hnodup : elements.Nodup)
    (hlen : elements.length * nf ≤ c) (hseed : random.okvsSeed = 0) :
    (binsOf n nf (pairStore c) h onesPrg idealSubprotocols random vec elements t).Ideal
      (pairStore c) idealSubprotocols random (fun _ => 2) := by
  have hkeys := (length_flatten_simpleRows_le h n hnf hnodup).trans hlen
  have hvalues : (binsOf n nf (pairStore c) h onesPrg idealSubprotocols random vec elements
      t).values.length = (simpleRows h n nf elements).flatten.length :=
    length_maskValues _ (fun _ => 2) _
  refine ⟨idealSubprotocols_oprf _ _, pairStore_exactOn _ hkeys hvalues, ?_⟩
  intro p key b _ _ hout
  have hdecode : (pairStore c).decodeKey (binsOf n nf (pairStore c) h onesPrg idealSubprotocols
      random vec elements t).okvs key = random.okvsSeed :=
    pairStore_unprogrammed (some random.okvsSeed) hkeys hvalues hout
  rw [hdecode, hseed]
  show 0 ^^^ 2 ≠ (onesPrg.genRandomBlocks _ n).getD b 0
  rw [Prg.genRandomBlocks, List.getD_eq_getElem?_getD, List.getElem?_map]
  rcases (List.range n)[b]? with _ | i
  · show (0 : Block) ^^^ 2 ≠ 0
    decide
  · show (0 : Block) ^^^ 2 ≠ 1
    decide

/-- Runs on these sub-protocols meet the conditions of the cardinality. -/
theorem ideal_of_psiCa {cfg : PsiConfig} {h : HashFamily} {random : PsiRandomness Block}
    {receiverSet senderSet : List Block} {run : PsiRun} (hsquare : 0 < cfg.square)
    (hnf : 0 < cfg.nfuns) (hnf' : cfg.nfuns ≤ 2 ^ 64) (hsender : senderSet.length = cfg.realNum2)
    (hfolds : (senderSet.map Block.fold).Nodup) (hbins : cfg.nbins < 2 ^ 25)
    (hitems : cfg.realNum2 * cfg.nfuns ≤ cfg.okvsItems) (hseed : random.okvsSeed = 0)
    (hrun : psiCa cfg h onesPrg idealSubprotocols random receiverSet senderSet = .ok run) :
    run.toPsiBins.Ideal (idealSubprotocols.baxos cfg.okvsItems cfg.okvsBinSize) idealSubprotocols
      random (fun _ => 2) := by
  obtain ⟨n, hn⟩ : ∃ n, cfg.nbins = n := ⟨_, rfl⟩
  obtain ⟨vec, hvec⟩ : ∃ vec, receiverVec cfg random.padding receiverSet = vec := ⟨_, rfl⟩
  obtain ⟨c, hc⟩ : ∃ c, cfg.okvsItems = c := ⟨_, rfl⟩
  rw [hc] at hitems ⊢
  obtain ⟨t, zs, ws, -, -, -, -, -, -, hrun'⟩ :=
    psiCa_ok (h := h) hn
      (congrArg pairStore hc) hvec (senderVec_eq hsender) (hn ▸ cfg.nbins_pos hsquare) hnf
      (hn ▸ idealSubprotocols_blockEquality cfg.dvd_nbins hbins)
  rw [hrun, Except.ok.injEq] at hrun'
  subst hrun'
  refine ideal_of_length_le hnf' hfolds ?_ hseed
  rwa [List.length_map, hsender]

theorem twoVertices_nbins : twoVertices.nbins < 2 ^ 25 := by decide +kernel

theorem twoVertices_blockEquality :
    SharesEquality twoVertices.nbins idealSubprotocols.blockEquality :=
  idealSubprotocols_blockEquality twoVertices.dvd_nbins twoVertices_nbins

/-- Two shared elements, one entry of the receiver twice. -/
def threeEntries : List Block := [5, 6, 5]

def fourEntries : List Block := [5, 6, 7, 8]

def countingPadding : PsiRandomness Block where
  padding i := BitVec.ofNat 64 (100 + i)
  otR i := BitVec.ofNat 128 (77 * i)
  okvsSeed := 0

theorem psiCa_cardinality_on_threeEntries :
    ∃ run, psiCa twoVertices shiftHash onesPrg idealSubprotocols countingPadding threeEntries
        fourEntries = .ok run ∧
      run.blockAns =
        BitVec.ofNat 128 (countHeld run.table run.vec (fourEntries.map Block.fold)) := by
  have hsquare : 0 < twoVertices.square := by decide
  have hsender : fourEntries.length = twoVertices.realNum2 := by decide
  have hfolds : (fourEntries.map Block.fold).Nodup := by decide
  have hitems : twoVertices.realNum2 * twoVertices.nfuns ≤ twoVertices.okvsItems := by decide
  obtain ⟨run, hrun, -, -, hcount⟩ := psiCa_cardinality twoVertices shiftHash onesPrg
    idealSubprotocols countingPadding threeEntries fourEntries hsquare (by decide) (by decide)
    hsender hfolds idealSubprotocols_iknpOt twoVertices_blockEquality
  exact ⟨run, hrun, hcount _ (ideal_of_psiCa hsquare (by decide) (by decide) hsender hfolds
    twoVertices_nbins hitems rfl hrun)⟩

end Sectric
