import Sectric.Hashing.Agreement
import Sectric.Psi.Store
import Sectric.Psi.Transfer

/-!
# The cardinality is exact

An active bin matches exactly when its element is one of the sender's: the two
tables agree bin by bin, the store yields the mask of the bin at a programmed
key, and something else elsewhere.  The transfer counts the matching bins, and
the bins of the cuckoo table are the entries of the receiver's list that are
not in the stash.
-/

namespace Sectric

open Lib

/-! ## Sizes -/

namespace PsiConfig

variable (cfg : PsiConfig)

theorem dvd_nbins : 8 ∣ cfg.nbins := by
  rw [nbins]
  split <;> omega

theorem nbins_pos (h : 0 < cfg.square) : 0 < cfg.nbins := by
  have hsquare : 2 ^ 0 ≤ roundTo53Bits cfg.square :=
    two_pow_le_roundTo53Bits (by decide) h
  have hproduct : 2 ^ 52 ≤ roundTo53Bits (roundTo53Bits cfg.square * 5719571526760530) := by
    refine two_pow_le_roundTo53Bits le_rfl ?_
    omega
  have hbin : 0 < cfg.binNum := Nat.div_pos hproduct (Nat.two_pow_pos 52)
  rw [nbins]
  omega

/-- The bin count is the next multiple of eight. -/
theorem binNum_le_nbins :
    cfg.binNum ≤ cfg.nbins ∧ cfg.nbins < cfg.binNum + 8 := by
  rw [nbins]
  split <;> omega

/-- Whatever the square, the bin count stays below `2 ^ 65`. -/
theorem nbins_lt : cfg.nbins < 2 ^ 65 := by
  let product := roundTo53Bits cfg.square * 5719571526760530
  have hbin : cfg.binNum = roundTo53Bits product / 2 ^ 52 := rfl
  have hsquare : cfg.square < 2 ^ 64 := Nat.mod_lt _ (by decide)
  obtain ⟨hround, -⟩ := roundTo53Bits_bounds cfg.square
  obtain ⟨hupper, -⟩ := roundTo53Bits_bounds product
  have hproduct : product ≤ (2 ^ 64 + 2 ^ 12) * 5719571526760530 :=
    Nat.mul_le_mul_right _ (by omega)
  have hlt := cfg.binNum_le_nbins.2
  omega

/-- The bin count stays below `2 ^ 25` exactly up to a square of 26420807. -/
theorem nbins_lt_iff : cfg.nbins < 2 ^ 25 ↔ cfg.square ≤ 26420807 := by
  let product := roundTo53Bits cfg.square * 5719571526760530
  have hbin : cfg.binNum = roundTo53Bits product / 2 ^ 52 := rfl
  obtain ⟨hupper, hlower⟩ := roundTo53Bits_bounds product
  obtain ⟨hle, hlt8⟩ := cfg.binNum_le_nbins
  obtain ⟨k, hk⟩ := cfg.dvd_nbins
  constructor
  · intro hlt
    by_contra hbig
    have hround : 26420808 ≤ roundTo53Bits cfg.square := by
      by_cases hsmall : cfg.square < 2 ^ 53
      · rw [roundTo53Bits_of_lt hsmall]
        omega
      · have hpow : 2 ^ 52 ≤ roundTo53Bits cfg.square :=
          two_pow_le_roundTo53Bits le_rfl (by omega)
        omega
    have hproduct : 26420808 * 5719571526760530 ≤ product := Nat.mul_le_mul_right _ hround
    omega
  · intro hsmall
    have hround : roundTo53Bits cfg.square ≤ 26420807 := by
      rw [roundTo53Bits_of_lt (by omega)]
      exact hsmall
    have hproduct : product ≤ 26420807 * 5719571526760530 := Nat.mul_le_mul_right _ hround
    omega

end PsiConfig

/-! ## What the sub-protocols guarantee -/

/-- The equality test of `n` blocks ends in shares of their equality. -/
def SharesEquality (n : ℕ)
    (equality : List Block → List Block → Except String (List Byte × List Byte)) : Prop :=
  ∀ xs ys, xs.length = n → ys.length = n → ∃ zs ws, equality xs ys = .ok (zs, ws) ∧
    Shares n (fun i => xs.getD i 0 = ys.getD i 0) zs ws

/-- The two parties evaluate one function on their keys. -/
structure OprfAgrees (oprf : List Block → List Block → List Block × List Block)
    (F : Block → Block) (ck keys : List Block) : Prop where
  client : ∀ (p : ℕ) (key : Block), ck[p]? = some key → (oprf ck keys).1.getD p 0 = F key
  server : (oprf ck keys).2 = keys.map F

/-! ## The tables of a run -/

theorem receiverTable_inv (cfg : PsiConfig) (h : HashFamily) (vec : List Word)
    (hnb : 0 < cfg.nbins) (hnf : 0 < cfg.nfuns) :
    ∃ t, receiverTable cfg h vec = .ok t ∧ CuckooInv h t [] vec.length ∧ t.numBins = cfg.nbins ∧
      t.numOfHashFunctions = cfg.nfuns ∧ t.elements = vec := by
  obtain ⟨t, hmap, hi, hbase⟩ := mapElements_inv (h := h)
    (t := ((CuckooTable.ofNumOfBins cfg.nbins 0).setNumOfHashFunctions cfg.nfuns).insert vec)
    hnb (fun _ => hnf) rfl rfl rfl rfl
  refine ⟨t, hmap, hi, ?_, ?_, ?_⟩ <;>
  · rw [hbase]
    rfl

theorem length_eqBlocks (nbins : ℕ) (idxs : List ℕ) (decoded : List Block) :
    (eqBlocks nbins idxs decoded).length = nbins := by
  rw [eqBlocks, length_writeAll, List.length_replicate]

section Run

variable {Seed : Type} (n nf : ℕ) (okvs : Baxos Seed) (h : HashFamily) (prg : Prg Seed)
  (sub : Subprotocols Seed) (random : PsiRandomness Seed)

/-- The bins of a run with `n` bins whose cuckoo table is `t`, against a sender
with the given elements. -/
def binsOf (vec elements : List Word) (t : CuckooTable) : PsiBins :=
  psiBins n okvs prg sub random vec t (t.occupied.map Prod.snd) (t.occupied.map entryKey)
    (simpleRows h n nf elements)

variable {n nf okvs h prg sub random}

section Parts

variable {cfg : PsiConfig} {receiverSet senderSet : List Block} {vec : List Word}
  {t : CuckooTable} {idxs : List ℕ} {ck : List Block} {rows : List (List Block)}
  (hn : cfg.nbins = n) (hokvs : sub.baxos cfg.okvsItems cfg.okvsBinSize = okvs)
  (hvec : receiverVec cfg random.padding receiverSet = vec)
  (htable : receiverTable cfg h vec = .ok t) (hraw : t.asRawVectorNoID = .ok (idxs, ck))
  (hrows : senderRows cfg h n senderSet = .ok rows)

include hn hokvs hvec htable hraw hrows

/-- A run is its equality test, and then the sums. -/
theorem psiCa_eq_map : psiCa cfg h prg sub random receiverSet senderSet =
    (sub.blockEquality (psiBins n okvs prg sub random vec t idxs ck rows).eqInputs
      (psiBins n okvs prg sub random vec t idxs ck rows).randomValues).map fun answers =>
        (psiBins n okvs prg sub random vec t idxs ck rows).finish n sub random answers.1
          answers.2 := by
  rw [psiCa, hvec, hn, hokvs]
  show (receiverTable cfg h vec >>= _) = _
  rw [htable]
  show (t.asRawVectorNoID >>= _) = _
  rw [hraw]
  show (senderRows cfg h n senderSet >>= _) = _
  rw [hrows]
  rfl

theorem psiCa_of_parts {zs ws : List Byte}
    (hanswers : sub.blockEquality (psiBins n okvs prg sub random vec t idxs ck rows).eqInputs
      (psiBins n okvs prg sub random vec t idxs ck rows).randomValues = .ok (zs, ws)) :
    psiCa cfg h prg sub random receiverSet senderSet =
      .ok ((psiBins n okvs prg sub random vec t idxs ck rows).finish n sub random zs ws) := by
  rw [psiCa_eq_map hn hokvs hvec htable hraw hrows, hanswers]
  rfl

end Parts

/-- A run ends, whatever the sets. -/
theorem psiCa_ok {cfg : PsiConfig} {receiverSet senderSet : List Block} {vec elements : List Word}
    (hn : cfg.nbins = n) (hokvs : sub.baxos cfg.okvsItems cfg.okvsBinSize = okvs)
    (hvec : receiverVec cfg random.padding receiverSet = vec)
    (helements : senderVec cfg senderSet = elements) (hpos : 0 < n) (hnf : 0 < cfg.nfuns)
    (hequality : SharesEquality n sub.blockEquality) :
    ∃ t zs ws, receiverTable cfg h vec = .ok t ∧ CuckooInv h t [] vec.length ∧
      t.numBins = n ∧ t.numOfHashFunctions = cfg.nfuns ∧ t.elements = vec ∧
      Shares n (fun b =>
        (binsOf n cfg.nfuns okvs h prg sub random vec elements t).eqInputs.getD b 0 =
          (prg.genRandomBlocks (prg.fixedSeed 0) n).getD b 0) zs ws ∧
      psiCa cfg h prg sub random receiverSet senderSet =
        .ok ((binsOf n cfg.nfuns okvs h prg sub random vec elements t).finish n sub random zs
          ws) := by
  obtain ⟨t, htable, hinv, hbins, hfuns, hvecs⟩ :=
    receiverTable_inv cfg h vec (hn.symm ▸ hpos) hnf
  have hraw : t.asRawVectorNoID = .ok (t.occupied.map Prod.snd, t.occupied.map entryKey) :=
    hinv.asRawVectorNoID
  have hrows : senderRows cfg h n senderSet = .ok (simpleRows h n cfg.nfuns elements) := by
    rw [← hn, ← helements]
    exact senderRows_eq cfg h (hn.symm ▸ hpos) senderSet
  have hlen : (binsOf n cfg.nfuns okvs h prg sub random vec elements t).eqInputs.length = n :=
    length_eqBlocks ..
  obtain ⟨zs, ws, hanswers, hshares⟩ := hequality _
    (binsOf n cfg.nfuns okvs h prg sub random vec elements t).randomValues hlen
    (Prg.length_genRandomBlocks ..)
  exact ⟨t, zs, ws, htable, hinv, hbins.trans hn, hfuns, hvecs, hshares,
    psiCa_of_parts hn hokvs hvec htable hraw hrows hanswers⟩

/-- A run ends with the error of its equality test, whatever the sets. -/
theorem psiCa_error {cfg : PsiConfig} {receiverSet senderSet : List Block} (hpos : 0 < cfg.nbins)
    (hnf : 0 < cfg.nfuns) {message : String}
    (hequality : ∀ inputs inputs', inputs.length = cfg.nbins →
      sub.blockEquality inputs inputs' = .error message) :
    psiCa cfg h prg sub random receiverSet senderSet = .error message := by
  obtain ⟨n, hn⟩ : ∃ n, cfg.nbins = n := ⟨_, rfl⟩
  obtain ⟨t, htable, hinv, -⟩ :=
    receiverTable_inv cfg h (receiverVec cfg random.padding receiverSet) hpos hnf
  have hrows := senderRows_eq cfg h hpos senderSet
  rw [hn] at hrows hequality
  refine (psiCa_eq_map hn rfl rfl htable hinv.asRawVectorNoID hrows).trans ?_
  exact congrArg (Except.map _) (hequality _ _ (length_eqBlocks ..))

/-! ## A bin matches when its element is the sender's -/

/-- What a run relies on in the libraries: the two parties evaluate one function
`F`, the store is exact at its keys, and at a key of an active bin that is not
programmed the decoded value plus the key's OPRF value is not the mask. -/
structure PsiBins.Ideal (okvs : Baxos Seed) (sub : Subprotocols Seed)
    (random : PsiRandomness Seed) (F : Block → Block) (bins : PsiBins) : Prop where
  oprf : OprfAgrees sub.oprf F bins.ck bins.keys
  exactOn : okvs.ExactOn bins.keys bins.values (some random.okvsSeed)
  unprogrammed : ∀ (p : ℕ) (key : Block) (b : ℕ), bins.ck[p]? = some key →
    bins.idxs[p]? = some b → key ∉ bins.keys →
    okvs.decodeKey bins.okvs key ^^^ F key ≠ bins.randomValues.getD b 0

variable {vec elements : List Word} {t : CuckooTable} {F : Block → Block}

/-- A cell of `decode_result`. -/
theorem getD_decodeResult (okvs : Baxos Seed) {keys table result : List Block} {p : ℕ}
    {key : Block} (hkey : keys[p]? = some key) :
    (decodeResult okvs keys table result).getD p 0 =
      okvs.decodeKey table key ^^^ result.getD p 0 := by
  obtain ⟨hp, -⟩ := List.getElem?_eq_some_iff.mp hkey
  have hcell : (okvs.decode keys (List.replicate keys.length 0) table)[p]? =
      some (okvs.decodeKey table key) :=
    okvs.getElem?_decode (by rw [List.length_replicate]) hkey
  rw [decodeResult, List.getD_eq_getElem?_getD]
  have hmodify := getElem?_modifyAll id (fun i b => b ^^^ result.getD i 0)
    (List.range keys.length) (okvs.decode keys (List.replicate keys.length 0) table)
    (by simpa using List.nodup_range) p (List.mem_range.mpr hp)
  rw [id, hcell] at hmodify
  rw [hmodify]
  rfl

/-- The equality input of an active bin. -/
theorem getD_eqBlocks {nbins : ℕ} {idxs : List ℕ} {decoded : List Block} (hnodup : idxs.Nodup)
    {p b : ℕ} (hp : idxs[p]? = some b) (hb : b < nbins) :
    (eqBlocks nbins idxs decoded).getD b 0 = decoded.getD p 0 := by
  obtain ⟨hlt, hget⟩ := getElem?_eq_some_iff_getD.mp hp
  have hkeys : ((List.range idxs.length).map fun i => idxs.getD i 0) = idxs := by
    apply List.ext_getElem
    · simp
    · intro i hi _
      rw [List.length_map, List.length_range] at hi
      simp [List.getD_eq_getElem?_getD, hi]
  have hcell := getElem?_writeAll (fun i => idxs.getD i 0) (fun i => decoded.getD i 0)
    (List.replicate nbins 0) (hkeys.symm ▸ hnodup) (List.mem_range.mpr hlt)
    (by rw [hget, List.length_replicate]; exact hb)
  rw [hget] at hcell
  rw [eqBlocks, List.getD_eq_getElem?_getD, hcell]
  rfl

/-- A key of the store has the fold of some sender block in its low word. -/
theorem low_mem_of_mem_keys {nb nf : ℕ} {elements : List Word} {key : Block}
    (hkey : key ∈ (simpleRows h nb nf elements).flatten) : key.low ∈ elements := by
  obtain ⟨row, hrow, hkey⟩ := List.mem_flatten.mp hkey
  obtain ⟨b, hb⟩ := List.mem_iff_getElem?.mp hrow
  obtain ⟨hlt, -⟩ := List.getElem?_eq_some_iff.mp hb
  have hlt' : b < nb := by simpa [simpleRows] using hlt
  have hmem : key ∈ (simpleRows h nb nf elements)[b]?.getD [] := by rwa [hb]
  obtain ⟨f, -, v, hv, -, rfl⟩ := (mem_simpleRows_iff h elements hlt' key).mp hmem
  rwa [low_makeBlock]

/-- A key whose element the sender does not have is not programmed. -/
theorem entryKey_not_mem_keys {nb nf : ℕ} {elements : List Word} {e : HashTableEntry × ℕ}
    (hout : e.1.value ∉ elements) : entryKey e ∉ (simpleRows h nb nf elements).flatten := by
  intro hkey
  exact hout (by simpa [entryKey] using low_mem_of_mem_keys hkey)

variable (okvs prg random vec) in
theorem length_values
    (hoprf : OprfAgrees sub.oprf F (t.occupied.map entryKey) (simpleRows h n nf elements).flatten) :
    (binsOf n nf okvs h prg sub random vec elements t).values.length =
      (binsOf n nf okvs h prg sub random vec elements t).keys.length := by
  show (maskValues _ _ (sub.oprf _ (simpleRows h n nf elements).flatten).2).length =
    (simpleRows h n nf elements).flatten.length
  rw [hoprf.server, length_maskValues]

section Bin

variable {p b : ℕ} {e : HashTableEntry} (hp : t.occupied[p]? = some (e, b))

include hp

theorem getElem?_entryKey : (t.occupied.map entryKey)[p]? = some (entryKey (e, b)) := by
  rw [List.getElem?_map, hp]
  rfl

theorem getElem?_activeBin : (t.occupied.map Prod.snd)[p]? = some b := by
  rw [List.getElem?_map, hp]
  rfl

/-- What the receiver decodes at an active bin, less the OPRF value of its key. -/
theorem getD_decoded
    (hoprf : OprfAgrees sub.oprf F (t.occupied.map entryKey) (simpleRows h n nf elements).flatten) :
    (binsOf n nf okvs h prg sub random vec elements t).decoded.getD p 0 =
      okvs.decodeKey (binsOf n nf okvs h prg sub random vec elements t).okvs (entryKey (e, b)) ^^^
        F (entryKey (e, b)) := by
  refine (getD_decodeResult _ (getElem?_entryKey hp)).trans ?_
  exact congrArg _ (hoprf.client p _ (getElem?_entryKey hp))

/-- At the key of an active bin whose element the sender has, the receiver
decodes the mask of the bin. -/
theorem getD_decoded_of_mem {k : ℕ} (hinv : CuckooInv h t [] k) (hn : 0 < n)
    (hbins : t.numBins = n) (hfuns : t.numOfHashFunctions = nf) (hnf : nf ≤ 2 ^ 64)
    (hfolds : elements.Nodup)
    (hoprf : OprfAgrees sub.oprf F (t.occupied.map entryKey) (simpleRows h n nf elements).flatten)
    (hexact : okvs.ExactOn (binsOf n nf okvs h prg sub random vec elements t).keys
      (binsOf n nf okvs h prg sub random vec elements t).values (some random.okvsSeed))
    (hin : e.value ∈ elements) :
    (binsOf n nf okvs h prg sub random vec elements t).decoded.getD p 0 =
      (prg.genRandomBlocks (prg.fixedSeed 0) n).getD b 0 := by
  let rows := simpleRows h n nf elements
  let masks := prg.genRandomBlocks (prg.fixedSeed 0) n
  have hrow := key_mem_row_iff hinv (hbins ▸ hn) (List.mem_of_getElem? hp) elements
  rw [hbins, hfuns] at hrow
  have hserver : (sub.oprf (t.occupied.map entryKey) rows.flatten).2 = rows.flatten.map F :=
    hoprf.server
  have hexact : okvs.ExactOn rows.flatten
      (maskValues masks rows (sub.oprf (t.occupied.map entryKey) rows.flatten).2)
      (some random.okvsSeed) := hexact
  have hstore : okvs.decodeKey (okvs.solve rows.flatten
      (maskValues masks rows (sub.oprf (t.occupied.map entryKey) rows.flatten).2)
        (some random.okvsSeed)) (entryKey (e, b)) = masks.getD b 0 ^^^ F (entryKey (e, b)) := by
    rw [hserver] at hexact ⊢
    exact decodeKey_store hexact (nodup_flatten_simpleRows h _ hnf hfolds) (hrow.mpr hin)
  rw [getD_decoded hp hoprf]
  change okvs.decodeKey (okvs.solve rows.flatten (maskValues masks rows
    (sub.oprf (t.occupied.map entryKey) rows.flatten).2) _) _ ^^^ _ = masks.getD b 0
  rw [hstore, BitVec.xor_assoc, BitVec.xor_self]
  exact BitVec.xor_zero

/-- An active bin enters the equality test with the sender's mask exactly when
its element is one of the sender's. -/
theorem bin_matches_iff {k : ℕ} (hinv : CuckooInv h t [] k) (hn : 0 < n) (hbins : t.numBins = n)
    (hfuns : t.numOfHashFunctions = nf) (hnf : nf ≤ 2 ^ 64) (hfolds : elements.Nodup)
    (hideal : (binsOf n nf okvs h prg sub random vec elements t).Ideal okvs sub random F) :
    (binsOf n nf okvs h prg sub random vec elements t).eqInputs.getD b 0 =
        (prg.genRandomBlocks (prg.fixedSeed 0) n).getD b 0 ↔ e.value ∈ elements := by
  obtain ⟨hb, -, -⟩ := hinv.occupied (hbins ▸ hn) (List.mem_of_getElem? hp)
  have hinput : (binsOf n nf okvs h prg sub random vec elements t).eqInputs.getD b 0 =
      (binsOf n nf okvs h prg sub random vec elements t).decoded.getD p 0 :=
    getD_eqBlocks (occupied_idxs_nodup t) (getElem?_activeBin hp) (hbins ▸ hb)
  rw [hinput]
  constructor
  · intro heq
    by_contra hout
    rw [getD_decoded hp hideal.oprf] at heq
    exact hideal.unprogrammed p _ b (getElem?_entryKey hp) (getElem?_activeBin hp)
      (entryKey_not_mem_keys hout) heq
  · intro hin
    exact getD_decoded_of_mem hp hinv hn hbins hfuns hnf hfolds hideal.oprf hideal.exactOn hin

end Bin

/-! ## The sum counts the matches -/

theorem lookup_of_all {key w : Word} :
    ∀ {pairs : List (Word × Word)}, (∀ p, p ∈ pairs → p.2 = w) → (∃ p, p ∈ pairs ∧ p.1 = key) →
      pairs.lookup key = some w
  | [], _, h => by
      obtain ⟨p, hp, -⟩ := h
      cases hp
  | (k, v) :: pairs, hall, h => by
      rw [List.lookup_cons]
      split
      · exact congrArg some (hall (k, v) (List.mem_cons_self ..))
      · rename_i hne
        obtain ⟨p, hp, hkey⟩ := h
        rcases List.mem_cons.mp hp with rfl | hp
        · simp only at hkey
          simp [hkey] at hne
        · exact lookup_of_all (fun q hq => hall q (List.mem_cons_of_mem _ hq)) ⟨p, hp, hkey⟩

/-- Every element of the receiver has weight 1. -/
theorem mapLookup_eq_one {key : Word} (hkey : key ∈ vec) :
    mapLookup vec (List.replicate vec.length 1) key = 1 := by
  have hlookup : ((vec.zip (List.replicate vec.length (1 : Word))).reverse).lookup key =
      some 1 := by
    refine lookup_of_all ?_ ?_
    · intro p hp
      exact (List.mem_replicate.mp (List.of_mem_zip (List.mem_reverse.mp hp)).2).2
    · obtain ⟨i, hi, hget⟩ := List.mem_iff_getElem.mp hkey
      refine ⟨(key, 1), List.mem_reverse.mpr ?_, rfl⟩
      rw [List.mem_iff_getElem]
      exact ⟨i, by simpa using hi, by simp [hget]⟩
  rw [mapLookup, hlookup]
  rfl

/-- The reported number is the sum of the weights of the active bins where the
answers of the equality test differ. -/
theorem finish_blockAns (random : PsiRandomness Seed) (bins : PsiBins)
    (hot : DeliversChosen sub.iknpOt) {zs ws : List Byte}
    {P : ℕ → Prop} (hshares : Shares n P zs ws) (hsorted : bins.idxs.Pairwise (· < ·))
    (hlt : ∀ b ∈ bins.idxs, b < n) :
    (bins.finish n sub random zs ws).blockAns =
      ∑ p ∈ Finset.range bins.idxs.length,
        binWeight (mapLookup bins.vec (List.replicate bins.vec.length 1)) bins.idxs bins.ck zs
          (ws.getD · 0) p := by
  have hpad : AllBits (List.replicate (otPadding n) (0 : Byte)) :=
    allBits_of_mem fun _ hb => .inl (List.eq_of_mem_replicate hb)
  exact transferSums_blockAns hot hshares.length_right hshares.bits_left hshares.bits_right hsorted
    hlt _ _ _ (by rw [List.length_replicate, List.length_replicate])
    (by rw [List.length_replicate, List.length_replicate]) hpad

end Run

end Sectric
