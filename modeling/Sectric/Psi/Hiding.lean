import Sectric.Psi.Count

/-!
# What the receiver sees before the equality test

At the key of an active bin the receiver decodes the sender's store and takes
off the OPRF value.  If the sender has the element, the result is the mask of the
bin.  If not, it can be any block, as the seed of the store varies.

The masks come from the generator under the fixed seed and the id 0, which every
party can set up for itself.  So the receiver knows the mask of each bin, and one
comparison per bin tells it which of its elements the sender has.
-/

namespace Sectric

/-! ## Views -/

/-- A list the sender may run with. -/
structure IsSenderSet (cfg : PsiConfig) (set : List Block) : Prop where
  length_eq : set.length = cfg.realNum2
  folds : (set.map Block.fold).Nodup

/-- The store is exact on up to `n` keys, and at a key that is not programmed
some seed leads to any given block. -/
structure Baxos.FreeElsewhere {Seed : Type} (okvs : Baxos Seed) (n : ℕ) : Prop where
  exactOn : ∀ keys values prng, keys.length ≤ n → values.length = keys.length →
    okvs.ExactOn keys values prng
  free : ∀ keys values key v, keys.Nodup → keys.length ≤ n → values.length = keys.length →
    key ∉ keys → ∃ seed, okvs.decodeKey (okvs.solve keys values (some seed)) key = v

section Views

variable {Seed Key : Type} (cfg : PsiConfig) (h : HashFamily) (prg : Prg Seed)
  (sub : Key → Subprotocols Seed) (random : PsiRandomness Seed) (receiverSet : List Block)

/-- What the receiver can get at its active bin number `p`, over the sender's
private randomness: the key of the OPRF and the seed of the store. -/
def receiverViews (senderSet : List Block) (p : ℕ) : Set Block :=
  {v | ∃ K seed run, psiCa cfg h prg (sub K) { random with okvsSeed := seed } receiverSet
    senderSet = .ok run ∧ run.decoded.getD p 0 = v}

/-- What the receiver can get at an active bin does not depend on the sender's
set. -/
def HidesMembership (p : ℕ) : Prop :=
  ∀ senderSet senderSet', IsSenderSet cfg senderSet → IsSenderSet cfg senderSet' →
    receiverViews cfg h prg sub random receiverSet senderSet p =
      receiverViews cfg h prg sub random receiverSet senderSet' p

variable {cfg h prg sub random receiverSet} {n : ℕ} {okvs : Key → Baxos Seed} {vec : List Word}
  {t : CuckooTable} {F : Key → Block → Block} {senderSet : List Block} {p b : ℕ}
  {e : HashTableEntry}

section Runs

variable (hn : cfg.nbins = n)
  (hokvs : ∀ K, (sub K).baxos cfg.okvsItems cfg.okvsBinSize = okvs K)
  (hvec : receiverVec cfg random.padding receiverSet = vec) (hpos : 0 < n)
  (hnf : 0 < cfg.nfuns) (hsender : IsSenderSet cfg senderSet)
  (hequality : ∀ K, SharesEquality cfg.nbins (sub K).blockEquality)
  (htable : receiverTable cfg h vec = .ok t)

include hn hokvs hvec hpos hnf hsender hequality htable

variable (prg) in
/-- A run under given private randomness. -/
theorem psiCa_eq_finish (K : Key) (seed : Seed) :
    ∃ zs ws, psiCa cfg h prg (sub K) { random with okvsSeed := seed } receiverSet senderSet =
      .ok ((binsOf n cfg.nfuns (okvs K) h prg (sub K) { random with okvsSeed := seed } vec
        (senderSet.map Block.fold) t).finish n (sub K) { random with okvsSeed := seed } zs ws) := by
  have hvec' : receiverVec cfg ({ random with okvsSeed := seed } : PsiRandomness Seed).padding
      receiverSet = vec := hvec
  obtain ⟨t', zs, ws, htable', -, -, -, -, -, hrun⟩ :=
    psiCa_ok (h := h) hn (hokvs K) hvec' (senderVec_eq hsender.length_eq) hpos hnf
      (hn ▸ hequality K)
  rw [htable, Except.ok.injEq] at htable'
  subst htable'
  exact ⟨zs, ws, hrun⟩

/-- The masks of a run are public. -/
theorem randomValues_of_psiCa {K : Key} {seed : Seed} {run : PsiRun}
    (hrun : psiCa cfg h prg (sub K) { random with okvsSeed := seed } receiverSet senderSet =
      .ok run) : run.randomValues = prg.genRandomBlocks (prg.fixedSeed 0) n := by
  obtain ⟨zs, ws, hok⟩ := psiCa_eq_finish prg hn hokvs hvec hpos hnf hsender
    hequality htable K seed
  rw [hrun, Except.ok.injEq] at hok
  subst hok
  rfl

theorem mem_receiverViews_iff {v : Block} :
    v ∈ receiverViews cfg h prg sub random receiverSet senderSet p ↔
      ∃ K seed, (binsOf n cfg.nfuns (okvs K) h prg (sub K) { random with okvsSeed := seed } vec
        (senderSet.map Block.fold) t).decoded.getD p 0 = v := by
  have hrun := psiCa_eq_finish prg hn hokvs hvec hpos hnf hsender hequality htable
  constructor
  · rintro ⟨K, seed, run, hok, rfl⟩
    obtain ⟨zs, ws, hrun⟩ := hrun K seed
    rw [hok, Except.ok.injEq] at hrun
    subst hrun
    exact ⟨K, seed, rfl⟩
  · rintro ⟨K, seed, rfl⟩
    obtain ⟨zs, ws, hrun⟩ := hrun K seed
    exact ⟨K, seed, _, hrun, rfl⟩

end Runs

section Stores

variable (hnf : cfg.nfuns ≤ 2 ^ 64) (hsender : IsSenderSet cfg senderSet)
  (hoprf : ∀ K ck keys, OprfAgrees (sub K).oprf (F K) ck keys)
  (hfree : ∀ K, (okvs K).FreeElsewhere (cfg.realNum2 * cfg.nfuns))
  (hp : t.occupied[p]? = some (e, b))

include hnf hsender

theorem length_keys_le (n : ℕ) :
    (simpleRows h n cfg.nfuns (senderSet.map Block.fold)).flatten.length ≤
      cfg.realNum2 * cfg.nfuns := by
  have hle := length_flatten_simpleRows_le h n hnf hsender.folds
  rwa [List.length_map, hsender.length_eq] at hle

include hoprf hfree hp

variable (prg random) in
/-- With an element of the sender in the bin, the receiver gets the mask. -/
theorem getD_decoded_member (hinv : CuckooInv h t [] vec.length) (hpos : 0 < n)
    (hbins : t.numBins = n) (hfuns : t.numOfHashFunctions = cfg.nfuns)
    (hin : e.value ∈ senderSet.map Block.fold) (K : Key) (seed : Seed) :
    (binsOf n cfg.nfuns (okvs K) h prg (sub K) { random with okvsSeed := seed } vec
      (senderSet.map Block.fold) t).decoded.getD p 0 =
        (prg.genRandomBlocks (prg.fixedSeed 0) n).getD b 0 :=
  getD_decoded_of_mem hp hinv hpos hbins hfuns hnf hsender.folds (hoprf K _ _)
    ((hfree K).exactOn _ _ _ (length_keys_le hnf hsender n)
      (length_values (okvs K) prg _ vec (hoprf K _ _))) hin

variable (prg random vec) in
/-- Otherwise the receiver gets any block under some seed. -/
theorem getD_decoded_nonmember (hout : e.value ∉ senderSet.map Block.fold) (K : Key) (v : Block) :
    ∃ seed, (binsOf n cfg.nfuns (okvs K) h prg (sub K) { random with okvsSeed := seed } vec
      (senderSet.map Block.fold) t).decoded.getD p 0 = v := by
  obtain ⟨seed, hseed⟩ := (hfree K).free _ _ (entryKey (e, b)) (v ^^^ F K (entryKey (e, b)))
    (nodup_flatten_simpleRows h n hnf hsender.folds) (length_keys_le hnf hsender n)
    (length_values (okvs K) prg random vec (hoprf K _ _))
    (entryKey_not_mem_keys hout)
  refine ⟨seed, ?_⟩
  rw [getD_decoded hp (hoprf K _ _)]
  refine (congrArg (· ^^^ F K (entryKey (e, b))) hseed).trans ?_
  rw [BitVec.xor_assoc, BitVec.xor_self]
  exact BitVec.xor_zero

end Stores

end Views

/-! ## Membership shows -/

/-- The blocks that fold to the `k` words from `v + offset` on. -/
def foldRun (v : Word) (offset k : ℕ) : List Block :=
  (List.range k).map fun i => makeBlock 0 (v + BitVec.ofNat 64 (offset + i))

theorem map_fold_foldRun (v : Word) (offset k : ℕ) :
    (foldRun v offset k).map Block.fold =
      (List.range k).map fun i => v + BitVec.ofNat 64 (offset + i) := by
  rw [foldRun, List.map_map]
  refine List.map_congr_left fun i _ => ?_
  rw [Function.comp_apply, Block.fold, low_makeBlock, high_makeBlock]
  exact BitVec.xor_zero

theorem foldRun_folds (v : Word) {offset k : ℕ} (hk : offset + k ≤ 2 ^ 64) :
    ((foldRun v offset k).map Block.fold).Nodup := by
  rw [map_fold_foldRun]
  refine List.Nodup.map_on ?_ List.nodup_range
  intro i hi j hj hij
  rw [List.mem_range] at hi hj
  have hnat := congrArg BitVec.toNat (add_left_cancel hij)
  rw [BitVec.toNat_ofNat, BitVec.toNat_ofNat, Nat.mod_eq_of_lt (by omega),
    Nat.mod_eq_of_lt (by omega)] at hnat
  omega

theorem not_mem_foldRun (v : Word) {k : ℕ} (hk : k < 2 ^ 64) :
    v ∉ (foldRun v 1 k).map Block.fold := by
  rw [map_fold_foldRun, List.mem_map]
  rintro ⟨i, hi, heq⟩
  rw [List.mem_range] at hi
  have hnat := congrArg BitVec.toNat (add_eq_left.mp heq)
  rw [BitVec.toNat_ofNat, Nat.mod_eq_of_lt (by omega)] at hnat
  have hzero : (0 : Word).toNat = 0 := rfl
  omega

/-- For any element there are sender sets with it and sender sets without it. -/
theorem exists_senderSets {cfg : PsiConfig} (hnum : 0 < cfg.realNum2) (v : Word) :
    ∃ senderSet senderSet', IsSenderSet cfg senderSet ∧ IsSenderSet cfg senderSet' ∧
      v ∈ senderSet.map Block.fold ∧ v ∉ senderSet'.map Block.fold := by
  have hlt : cfg.realNum2 < 2 ^ 64 := Nat.mod_lt _ (by decide)
  refine ⟨foldRun v 0 cfg.realNum2, foldRun v 1 cfg.realNum2, ⟨by simp [foldRun], ?_⟩,
    ⟨by simp [foldRun], ?_⟩, ?_, not_mem_foldRun v hlt⟩
  · exact foldRun_folds v (by omega)
  · exact foldRun_folds v (by omega)
  · rw [map_fold_foldRun, List.mem_map]
    exact ⟨0, List.mem_range.mpr hnum, BitVec.add_zero v⟩

theorem singleton_ne_univ (v : Block) : ({v} : Set Block) ≠ Set.univ := by
  intro hall
  have hne : (0 : Block) ≠ 1 := by decide
  have hzero : (0 : Block) ∈ Set.univ := Set.mem_univ 0
  have hone : (1 : Block) ∈ Set.univ := Set.mem_univ 1
  rw [← hall, Set.mem_singleton_iff] at hzero hone
  exact hne (hzero.trans hone.symm)

section Membership

variable {Seed Key : Type} (cfg : PsiConfig) (h : HashFamily) (prg : Prg Seed)
  (sub : Key → Subprotocols Seed) (random : PsiRandomness Seed) (receiverSet : List Block)
  (F : Key → Block → Block) (K : Key) (hsquare : 0 < cfg.square) (hnf : 0 < cfg.nfuns)
  (hnf' : cfg.nfuns ≤ 2 ^ 64)
  (hequality : ∀ K, SharesEquality cfg.nbins (sub K).blockEquality)
  (hoprf : ∀ K ck keys, OprfAgrees (sub K).oprf (F K) ck keys)
  (hfree : ∀ K, ((sub K).baxos cfg.okvsItems cfg.okvsBinSize).FreeElsewhere
    (cfg.realNum2 * cfg.nfuns))

include hsquare hnf hnf' hequality hoprf hfree K

/-- The view of an active bin is one public block if the sender has the element,
and every block otherwise. -/
theorem receiverViews_cases :
    ∃ t, receiverTable cfg h (receiverVec cfg random.padding receiverSet) = .ok t ∧
      (∀ senderSet, IsSenderSet cfg senderSet → ∀ K seed run,
        psiCa cfg h prg (sub K) { random with okvsSeed := seed } receiverSet senderSet = .ok run →
          run.randomValues = prg.genRandomBlocks (prg.fixedSeed 0) cfg.nbins) ∧
      ∀ p e b, t.occupied[p]? = some (e, b) → ∀ senderSet, IsSenderSet cfg senderSet →
        receiverViews cfg h prg sub random receiverSet senderSet p =
          if e.value ∈ senderSet.map Block.fold then
            {(prg.genRandomBlocks (prg.fixedSeed 0) cfg.nbins).getD b 0}
          else Set.univ := by
  obtain ⟨n, hn⟩ : ∃ n, cfg.nbins = n := ⟨_, rfl⟩
  obtain ⟨vec, hvec⟩ : ∃ vec, receiverVec cfg random.padding receiverSet = vec := ⟨_, rfl⟩
  obtain ⟨okvs, hokvs⟩ : ∃ okvs : Key → Baxos Seed,
    ∀ K, (sub K).baxos cfg.okvsItems cfg.okvsBinSize = okvs K := ⟨_, fun _ => rfl⟩
  have hpos : 0 < n := hn ▸ cfg.nbins_pos hsquare
  simp only [hokvs] at hfree
  obtain ⟨t, htable, hinv, hbins, hfuns, helements⟩ :=
    receiverTable_inv cfg h vec (hn.symm ▸ hpos) hnf
  rw [hvec]
  rw [hn] at hbins ⊢
  refine ⟨t, htable, ?_, ?_⟩
  · intro senderSet hsender K seed run hrun
    exact randomValues_of_psiCa hn hokvs hvec hpos hnf hsender hequality htable hrun
  · intro p e b hp senderSet hsender
    ext v
    rw [mem_receiverViews_iff hn hokvs hvec hpos hnf hsender hequality htable]
    split
    · rename_i hin
      have hview := getD_decoded_member prg random hnf' hsender hoprf hfree hp hinv
        hpos hbins hfuns hin
      rw [Set.mem_singleton_iff]
      constructor
      · rintro ⟨K, seed, rfl⟩
        exact hview K seed
      · rintro rfl
        exact ⟨K, random.okvsSeed, hview K _⟩
    · rename_i hout
      have hview := getD_decoded_nonmember prg random vec (n := n) (h := h) hnf'
        hsender hoprf hfree hp hout K v
      exact ⟨fun _ => Set.mem_univ v, fun _ => ⟨K, hview⟩⟩

/-- The masks are those of a generator that everyone can run, and the view of
every active bin shows whether the sender has its element. -/
theorem receiverViews_show_membership (hnum : 0 < cfg.realNum2) :
    (∀ senderSet, IsSenderSet cfg senderSet → ∀ K seed run,
      psiCa cfg h prg (sub K) { random with okvsSeed := seed } receiverSet senderSet = .ok run →
        run.randomValues = prg.genRandomBlocks (prg.fixedSeed 0) cfg.nbins) ∧
    ∃ t, receiverTable cfg h (receiverVec cfg random.padding receiverSet) = .ok t ∧
      ∀ p e b, t.occupied[p]? = some (e, b) →
        (∀ senderSet senderSet', IsSenderSet cfg senderSet → IsSenderSet cfg senderSet' →
          e.value ∈ senderSet.map Block.fold → e.value ∉ senderSet'.map Block.fold →
          receiverViews cfg h prg sub random receiverSet senderSet p ≠
            receiverViews cfg h prg sub random receiverSet senderSet' p) ∧
        ¬ HidesMembership cfg h prg sub random receiverSet p := by
  obtain ⟨t, htable, hmasks, hviews⟩ := receiverViews_cases cfg h prg sub random receiverSet F K
    hsquare hnf hnf' hequality hoprf hfree
  refine ⟨hmasks, t, htable, ?_⟩
  intro p e b hp
  have hdiffer : ∀ senderSet senderSet', IsSenderSet cfg senderSet → IsSenderSet cfg senderSet' →
      e.value ∈ senderSet.map Block.fold → e.value ∉ senderSet'.map Block.fold →
      receiverViews cfg h prg sub random receiverSet senderSet p ≠
        receiverViews cfg h prg sub random receiverSet senderSet' p := by
    intro senderSet senderSet' hsender hsender' hin hout
    rw [hviews p e b hp _ hsender, hviews p e b hp _ hsender', if_pos hin, if_neg hout]
    exact singleton_ne_univ _
  refine ⟨hdiffer, ?_⟩
  intro hhides
  obtain ⟨senderSet, senderSet', hsender, hsender', hin, hout⟩ := exists_senderSets hnum e.value
  exact hdiffer _ _ hsender hsender' hin hout (hhides _ _ hsender hsender')

end Membership

/-! ## Instances -/

theorem pairStore_freeElsewhere (n : ℕ) : (pairStore n).FreeElsewhere n where
  exactOn _ _ prng hlen hvalues := pairStore_exactOn prng hlen hvalues
  free _ _ _ v _ hlen hvalues hkey := ⟨v, pairStore_unprogrammed (some v) hlen hvalues hkey⟩

theorem receiverViews_show_membership_on_threeEntries :
    ∃ t, receiverTable twoVertices shiftHash
        (receiverVec twoVertices countingPadding.padding threeEntries) = .ok t ∧
      ∀ p e b, t.occupied[p]? = some (e, b) →
        ¬ HidesMembership twoVertices shiftHash onesPrg (fun _ : Unit => idealSubprotocols)
          countingPadding threeEntries p := by
  obtain ⟨-, t, htable, hviews⟩ := receiverViews_show_membership twoVertices shiftHash onesPrg
    (fun _ : Unit => idealSubprotocols) countingPadding threeEntries (fun _ _ => 2) () (by decide)
    (by decide) (by decide) (fun _ => twoVertices_blockEquality)
    (fun _ => idealSubprotocols_oprf) (fun _ => pairStore_freeElsewhere 12) (by decide)
  exact ⟨t, htable, fun p e b hp => (hviews p e b hp).2⟩

/-- The second active bin holds the element 5.  Against the sender's set 5, 6, 7, 8 the
receiver gets the mask there, against 105 to 108 it can get any block. -/
theorem receiverViews_differ_on_threeEntries :
    receiverViews twoVertices shiftHash onesPrg (fun _ : Unit => idealSubprotocols) countingPadding
        threeEntries fourEntries 1 = {1} ∧
      receiverViews twoVertices shiftHash onesPrg (fun _ : Unit => idealSubprotocols)
        countingPadding threeEntries [105, 106, 107, 108] 1 = Set.univ ∧
      ¬ HidesMembership twoVertices shiftHash onesPrg (fun _ : Unit => idealSubprotocols)
        countingPadding threeEntries 1 := by
  obtain ⟨t, htable, -, hviews⟩ := receiverViews_cases twoVertices shiftHash onesPrg
    (fun _ : Unit => idealSubprotocols) countingPadding threeEntries (fun _ _ => 2) () (by decide)
    (by decide) (by decide) (fun _ => twoVertices_blockEquality)
    (fun _ => idealSubprotocols_oprf) (fun _ => pairStore_freeElsewhere 12)
  have hentry : (receiverTable twoVertices shiftHash
      (receiverVec twoVertices countingPadding.padding threeEntries)).map
        (fun t => t.occupied[1]?.map fun e => (e.1.value, e.2)) = .ok (some (5, 5)) := by
    decide +kernel
  rw [htable] at hentry
  obtain ⟨⟨e, b⟩, hp, heq⟩ := Option.map_eq_some_iff.mp (Except.ok.inj hentry)
  obtain ⟨hvalue, hbin⟩ := Prod.mk.inj heq
  have hin : e.value ∈ fourEntries.map Block.fold := by
    rw [show e.value = 5 from hvalue]
    decide
  have hout : e.value ∉ ([105, 106, 107, 108] : List Block).map Block.fold := by
    rw [show e.value = 5 from hvalue]
    decide
  have hmask : (onesPrg.genRandomBlocks (onesPrg.fixedSeed 0) twoVertices.nbins).getD b 0 = 1 := by
    rw [show b = 5 from hbin]
    decide +kernel
  have hsender : IsSenderSet twoVertices fourEntries := ⟨by decide, by decide⟩
  have hsender' : IsSenderSet twoVertices [105, 106, 107, 108] := ⟨by decide, by decide⟩
  have hview := hviews 1 e b hp _ hsender
  have hview' := hviews 1 e b hp _ hsender'
  rw [if_pos hin, hmask] at hview
  rw [if_neg hout] at hview'
  refine ⟨hview, hview', ?_⟩
  intro hhides
  have hsame := hhides _ _ hsender hsender'
  rw [hview, hview'] at hsame
  exact singleton_ne_univ 1 hsame

end Sectric
