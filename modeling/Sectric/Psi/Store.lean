import Sectric.Psi.Model

/-!
# The sender's store

The keys are the rows of the simple table one after the other.  The flat
counter of the value loop runs through the same order, so the value programmed
at a key of bin `b` is the mask of that bin plus the key's OPRF value.
-/

namespace Sectric

/-! ## The value loop -/

/-- The inner loop on a row changes the row's cells of the flat vector. -/
theorem maskRow_eq (change : Block → Block) :
    ∀ (row before after : List Block),
      (List.range row.length).foldl (fun (s : ℕ × List Block) _ =>
          (s.1 + 1, s.2.modify s.1 change)) (before.length, before ++ row ++ after) =
        (before.length + row.length, before ++ row.map change ++ after)
  | [], before, after => by simp
  | x :: row, before, after => by
      have ih := maskRow_eq change row (before ++ [change x]) after
      have hcell : (before ++ x :: row ++ after).modify before.length change =
          before ++ [change x] ++ row ++ after := by
        have htail := List.modifyTailIdx_add (List.modifyHead change) 0 before (x :: row ++ after)
        rw [List.append_assoc, List.modify]
        simpa using htail
      rw [List.length_cons, List.range_succ_eq_map, List.foldl_cons, List.foldl_map, hcell]
      rw [List.length_append, List.length_singleton] at ih
      rw [ih]
      simp [Nat.add_assoc, Nat.add_comm 1]

/-- The pairs of key and value the store is built from, with the first row that
of bin `b`. -/
def storePairs (mask : ℕ → Block) (F : Block → Block) : ℕ → List (List Block) →
    List (Block × Block)
  | _, [] => []
  | b, row :: rows => (row.map fun key => (key, mask b ^^^ F key)) ++ storePairs mask F (b + 1) rows

theorem map_fst_storePairs (mask : ℕ → Block) (F : Block → Block) :
    ∀ b rows, (storePairs mask F b rows).map Prod.fst = rows.flatten
  | _, [] => rfl
  | b, row :: rows => by
      rw [storePairs, List.map_append, map_fst_storePairs mask F (b + 1) rows, List.map_map,
        List.flatten_cons]
      congr 1
      exact List.map_id row

/-- The value loop, from any row on, computes the values of the pairs. -/
theorem maskRows_eq (randomValues : List Block) (F : Block → Block) :
    ∀ (rows : List (List Block)) (b : ℕ) (before : List Block),
      ((rows.zipIdx b).foldl (fun s row =>
          (List.range row.1.length).foldl (fun s _ =>
            (s.1 + 1, s.2.modify s.1 fun x => randomValues.getD row.2 0 ^^^ x)) s)
        (before.length, before ++ rows.flatten.map F)).2 =
      before ++ (storePairs (randomValues.getD · 0) F b rows).map Prod.snd
  | [], b, before => by simp [storePairs]
  | row :: rows, b, before => by
      have hrow := maskRow_eq (fun x => randomValues.getD b 0 ^^^ x) (row.map F) before
        (rows.flatten.map F)
      have ih := maskRows_eq randomValues F rows (b + 1)
        (before ++ (row.map F).map fun x => randomValues.getD b 0 ^^^ x)
      rw [List.length_map] at hrow
      rw [List.length_append, List.length_map, List.length_map] at ih
      rw [List.zipIdx_cons, List.foldl_cons, List.flatten_cons, List.map_append,
        ← List.append_assoc, hrow, ih, storePairs, List.map_append, List.map_map, List.map_map,
        List.append_assoc]
      rfl

/-- The values the sender hands to the store. -/
theorem maskValues_eq (randomValues : List Block) (F : Block → Block) (rows : List (List Block)) :
    maskValues randomValues rows (rows.flatten.map F) =
      (storePairs (randomValues.getD · 0) F 0 rows).map Prod.snd := by
  have hloop := maskRows_eq randomValues F rows 0 []
  rwa [List.nil_append, List.nil_append] at hloop

theorem mem_storePairs_iff {mask : ℕ → Block} {F : Block → Block} {p : Block × Block} :
    ∀ {rows : List (List Block)} {b : ℕ}, p ∈ storePairs mask F b rows ↔
      ∃ i, p.1 ∈ rows[i]?.getD [] ∧ p.2 = mask (b + i) ^^^ F p.1
  | [], b => by simp [storePairs]
  | row :: rows, b => by
      have hrow : p ∈ (row.map fun key => (key, mask b ^^^ F key)) ↔
          p.1 ∈ row ∧ p.2 = mask b ^^^ F p.1 := by
        rw [List.mem_map]
        constructor
        · rintro ⟨key, hkey, rfl⟩
          exact ⟨hkey, rfl⟩
        · rintro ⟨hkey, hvalue⟩
          exact ⟨p.1, hkey, Prod.ext rfl hvalue.symm⟩
      rw [storePairs, List.mem_append, hrow, mem_storePairs_iff]
      constructor
      · rintro (hhead | ⟨i, hkey, hvalue⟩)
        · exact ⟨0, hhead⟩
        · exact ⟨i + 1, hkey, by rwa [show b + (i + 1) = b + 1 + i by omega]⟩
      · rintro ⟨_ | i, hkey, hvalue⟩
        · exact .inl ⟨hkey, hvalue⟩
        · exact .inr ⟨i, hkey, by rwa [show b + 1 + i = b + (i + 1) by omega]⟩

theorem mem_storePairs (mask : ℕ → Block) {F : Block → Block} {key : Block}
    {rows : List (List Block)} {b i : ℕ} (h : key ∈ rows[i]?.getD []) :
    (key, mask (b + i) ^^^ F key) ∈ storePairs mask F b rows :=
  mem_storePairs_iff.mpr ⟨i, h, rfl⟩

theorem zip_maskValues (randomValues : List Block) (F : Block → Block) (rows : List (List Block)) :
    rows.flatten.zip (maskValues randomValues rows (rows.flatten.map F)) =
      storePairs (randomValues.getD · 0) F 0 rows :=
  (List.zip_of_prod (map_fst_storePairs _ F 0 rows) (maskValues_eq randomValues F rows).symm).symm

section SimpleRows

variable (h : HashFamily) {nbins nf : ℕ} (hnb : 0 < nbins) (mask : ℕ → Block) (F : Block → Block)
  {elements : List Word}

include hnb

/-- The rows of the simple table make a pair of every element and function id. -/
theorem mem_storePairs_simpleRows {p : Block × Block} :
    p ∈ storePairs mask F 0 (simpleRows h nbins nf elements) ↔
      ∃ q ∈ filedPairs nf elements,
        (pairBlock q, mask (h q.1 q.2 % nbins) ^^^ F (pairBlock q)) = p := by
  obtain ⟨key, value⟩ := p
  rw [mem_storePairs_iff]
  constructor
  · rintro ⟨b, hkey, hvalue⟩
    have hb : b < nbins := by
      by_contra hge
      rw [List.getElem?_eq_none (by simpa [simpleRows] using not_lt.mp hge)] at hkey
      cases hkey
    obtain ⟨f, hf, v, hv, rfl, rfl⟩ := (mem_simpleRows_iff h _ hb key).mp hkey
    refine ⟨(f, v), mem_filedPairs.mpr ⟨hf, hv⟩, Prod.ext rfl ?_⟩
    rw [hvalue, Nat.zero_add]
    rfl
  · rintro ⟨q, hq, hpair⟩
    obtain ⟨rfl, rfl⟩ := Prod.mk.inj hpair
    obtain ⟨hf, hv⟩ := mem_filedPairs.mp hq
    refine ⟨h q.1 q.2 % nbins, ?_, by rw [Nat.zero_add]⟩
    exact (mem_simpleRows_iff h _ (Nat.mod_lt _ hnb) _).mpr ⟨q.1, hf, q.2, hv, rfl, rfl⟩

/-- If the elements are distinct it makes one. -/
theorem perm_storePairs_simpleRows (hnf : nf ≤ 2 ^ 64) (hnodup : elements.Nodup) :
    (storePairs mask F 0 (simpleRows h nbins nf elements)).Perm
      ((filedPairs nf elements).map fun q =>
        (pairBlock q, mask (h q.1 q.2 % nbins) ^^^ F (pairBlock q))) := by
  have hpairs : (storePairs mask F 0 (simpleRows h nbins nf elements)).Nodup := by
    refine List.Nodup.of_map Prod.fst ?_
    rw [map_fst_storePairs]
    exact nodup_flatten_simpleRows h nbins hnf hnodup
  have hinj : ∀ p ∈ filedPairs nf elements, ∀ q ∈ filedPairs nf elements,
      (pairBlock p, mask (h p.1 p.2 % nbins) ^^^ F (pairBlock p)) =
        (pairBlock q, mask (h q.1 q.2 % nbins) ^^^ F (pairBlock q)) → p = q := by
    intro p hp q hq hpq
    have hp := (mem_filedPairs.mp hp).1
    have hq := (mem_filedPairs.mp hq).1
    exact pairBlock_inj (by omega) (by omega) (Prod.mk.inj hpq).1
  refine (List.perm_ext_iff_of_nodup hpairs
    (List.Nodup.map_on hinj (nodup_filedPairs hnodup))).mpr ?_
  intro p
  rw [mem_storePairs_simpleRows h hnb, List.mem_map]

end SimpleRows

/-! ## Decoding -/

/-- The store returns the programmed value at every key, provided the keys are
distinct. -/
def Baxos.ExactOn {Seed : Type} (okvs : Baxos Seed) (keys values : List Block)
    (prng : Option Seed) : Prop :=
  keys.Nodup → ∀ (p : ℕ) (key value : Block), keys[p]? = some key → values[p]? = some value →
    okvs.decodeKey (okvs.solve keys values prng) key = value

theorem length_maskValues (randomValues : List Block) (F : Block → Block)
    (rows : List (List Block)) :
    (maskValues randomValues rows (rows.flatten.map F)).length = rows.flatten.length := by
  rw [maskValues_eq, List.length_map, ← map_fst_storePairs (randomValues.getD · 0) F 0 rows,
    List.length_map]

/-- At a key of row `b` the store yields the mask of bin `b` plus the key's OPRF
value. -/
theorem decodeKey_store {Seed : Type} {okvs : Baxos Seed} {prng : Option Seed}
    {randomValues : List Block} {F : Block → Block} {rows : List (List Block)}
    (hexact : okvs.ExactOn rows.flatten (maskValues randomValues rows (rows.flatten.map F)) prng)
    (hnodup : rows.flatten.Nodup) {b : ℕ} {key : Block} (hkey : key ∈ rows[b]?.getD []) :
    okvs.decodeKey
        (okvs.solve rows.flatten (maskValues randomValues rows (rows.flatten.map F)) prng) key =
      randomValues.getD b 0 ^^^ F key := by
  have hmem := mem_storePairs (randomValues.getD · 0) (F := F) (b := 0) hkey
  rw [Nat.zero_add] at hmem
  obtain ⟨p, hp⟩ := List.mem_iff_getElem?.mp hmem
  refine hexact hnodup p key _ ?_ ?_
  · rw [← map_fst_storePairs (randomValues.getD · 0) F 0 rows, List.getElem?_map, hp]
    rfl
  · rw [maskValues_eq, List.getElem?_map, hp]
    rfl

/-! ## What the sender programs -/

theorem senderVec_eq {cfg : PsiConfig} {set : List Block} (hlen : set.length = cfg.realNum2) :
    senderVec cfg set = set.map Block.fold := by
  have hcopy := congrArg (List.map Block.fold) (Lib.map_getD_range set 0)
  rwa [List.map_map, hlen] at hcopy

theorem senderRows_eq (cfg : PsiConfig) (h : HashFamily) {nbins : ℕ} (hnb : 0 < nbins)
    (set : List Block) :
    senderRows cfg h nbins set =
      .ok (simpleRows h nbins cfg.nfuns (senderVec cfg set)) := by
  have hrows := asRaw2DVectorNoID_eq h
    (((SimpleTable.ofNumOfBins nbins 0).setNumOfHashFunctions cfg.nfuns).insert
      (senderVec cfg set)) hnb
  rw [senderRows, hrows]
  rfl

/-- The two lists `psi_ca_sender` hands to `send_baxos`.  `oprfKey` is the output
of `Server1`. -/
def senderStore {Seed : Type} (cfg : PsiConfig) (h : HashFamily) (prg : Prg Seed) (pp : PP Seed)
    (oprfKey : List Byte) (nbins : ℕ) (set : List Block) :
    Except String (List Block × List Block) := do
  let rows ← senderRows cfg h nbins set
  let keys := rows.flatten
  return (keys, maskValues (prg.genRandomBlocks (prg.fixedSeed 0) nbins) rows
    (evaluate1 pp oprfKey keys keys.length))

/-- In a run the sender hands over what the receiver's bins are decoded from. -/
theorem senderStore_eq_psiBins {Seed : Type} {cfg : PsiConfig} {h : HashFamily} {prg : Prg Seed}
    {pp : PP Seed} {oprfKey : List Byte} {nbins : ℕ} {set : List Block} {rows : List (List Block)}
    {sub : Subprotocols Seed} {ck : List Block} (baxos : Baxos Seed) (random : PsiRandomness Seed)
    (vec : List Word) (table : CuckooTable) (idxs : List ℕ)
    (hrows : senderRows cfg h nbins set = .ok rows)
    (hoprf : (sub.oprf ck rows.flatten).2 =
      evaluate1 pp oprfKey rows.flatten rows.flatten.length) :
    let bins := psiBins nbins baxos prg sub random vec table idxs ck rows
    senderStore cfg h prg pp oprfKey nbins set = .ok (bins.keys, bins.values) := by
  rw [senderStore, hrows]
  show Except.ok _ = _
  rw [← hoprf]
  rfl

/-- The pair for a function id and an element. -/
def storePair {Seed : Type} (h : HashFamily) (prg : Prg Seed) (pp : PP Seed) (oprfKey : List Byte)
    (nbins : ℕ) (p : ℕ × Word) : Block × Block :=
  (pairBlock p, (prg.genRandomBlocks (prg.fixedSeed 0) nbins).getD (h p.1 p.2 % nbins) 0 ^^^
    pp.okvs.decodeKey (byteToBlock oprfKey) (pairBlock p))

/-- The keys and values of the sender are distinct keys, and one pair for every
fold of its list and every function id. -/
theorem senderStore_pairs {Seed : Type} (cfg : PsiConfig) (h : HashFamily) (prg : Prg Seed)
    (pp : PP Seed) (oprfKey : List Byte) {nbins : ℕ} (hnb : 0 < nbins) (hnf : cfg.nfuns ≤ 2 ^ 64)
    {set : List Block} (hset : set.length = cfg.realNum2)
    (hfolds : (set.map Block.fold).Nodup) :
    ∃ keys values, senderStore cfg h prg pp oprfKey nbins set = .ok (keys, values) ∧
      keys.length = values.length ∧ keys.Nodup ∧
      (keys.zip values).Perm (((set.map Block.fold).flatMap fun e =>
        (List.range cfg.nfuns).map fun f => (f, e)).map (storePair h prg pp oprfKey nbins)) := by
  let masks := prg.genRandomBlocks (prg.fixedSeed 0) nbins
  let F := pp.okvs.decodeKey (byteToBlock oprfKey)
  let rows := simpleRows h nbins cfg.nfuns (set.map Block.fold)
  have hrows : senderRows cfg h nbins set = .ok rows := by
    rw [senderRows_eq cfg h hnb, senderVec_eq hset]
  refine ⟨rows.flatten, maskValues masks rows (rows.flatten.map F), ?_,
    (length_maskValues masks F rows).symm, nodup_flatten_simpleRows h nbins hnf hfolds, ?_⟩
  · rw [senderStore, hrows]
    show Except.ok _ = _
    rw [evaluate1_eq_map]
  · rw [zip_maskValues]
    exact perm_storePairs_simpleRows h hnb (masks.getD · 0) F hnf hfolds

/-- A generator that counts on from its seed. -/
def countingPrg : Prg Block where
  fixedSeed idx := BitVec.ofNat 128 (1000 * idx)
  block seed i := seed + BitVec.ofNat 128 i

theorem senderStore_pairs_on_fourFolds :
    ∃ keys values, senderStore ⟨2, 2, 3⟩ shiftHash countingPrg ninePP [] 8 [5, 6, 7, 8] =
        .ok (keys, values) ∧ keys.Nodup ∧
      (keys.zip values).Perm ((([5, 6, 7, 8] : List Word).flatMap fun e =>
        (List.range 3).map fun f => (f, e)).map (storePair shiftHash countingPrg ninePP [] 8)) := by
  have hlen : ([5, 6, 7, 8] : List Block).length = (⟨2, 2, 3⟩ : PsiConfig).realNum2 := by decide
  obtain ⟨keys, values, hok, _, hnodup, hpairs⟩ := senderStore_pairs ⟨2, 2, 3⟩ shiftHash
    countingPrg ninePP [] (show 0 < 8 by decide) (by decide) hlen (by decide)
  exact ⟨keys, values, hok, hnodup, hpairs⟩

/-! ## An instance -/

/-- A list cut or filled up to `n` cells. -/
def fillTo (n : ℕ) (fill : Block) (xs : List Block) : List Block :=
  xs.take n ++ List.replicate (n - xs.length) fill

theorem length_fillTo (n : ℕ) (fill : Block) (xs : List Block) : (fillTo n fill xs).length = n := by
  rw [fillTo, List.length_append, List.length_take, List.length_replicate]
  omega

theorem getD_fillTo {n : ℕ} {fill : Block} {xs : List Block} (hlen : xs.length ≤ n) {i : ℕ}
    (hi : i < n) : (fillTo n fill xs).getD i 0 = xs.getD i fill := by
  rw [fillTo, List.take_of_length_le hlen, List.getD_eq_getElem?_getD, List.getElem?_append,
    List.getElem?_replicate, List.getD_eq_getElem?_getD]
  split
  · rename_i hlt
    rw [List.getElem?_eq_getElem hlt]
    rfl
  · rename_i hge
    rw [List.getElem?_eq_none (not_lt.mp hge), if_pos (by omega)]
    rfl

/-- A store that lists up to `n` keys, then their values, then its seed. -/
def pairStore (n : ℕ) : Baxos Block where
  outputSize := n + (n + 1)
  seed := 0
  solveUnder _ keys values prng := fillTo n 0 keys ++ fillTo (n + 1) (prng.getD 0) values
  decodeUnder _ table key := table.getD (n + (table.take n).idxOf key) 0
  length_solveUnder _ _ _ _ := by rw [List.length_append, length_fillTo, length_fillTo]

section PairStore

variable {n : ℕ} {keys values : List Block} (prng : Option Block) (hlen : keys.length ≤ n)
  (hvalues : values.length = keys.length)

include hlen hvalues

/-- The value at a key is that of its first occurrence. -/
theorem decodeKey_pairStore (key : Block) :
    (pairStore n).decodeKey ((pairStore n).solve keys values prng) key =
      values.getD ((fillTo n 0 keys).idxOf key) (prng.getD 0) := by
  have hidx : (fillTo n 0 keys).idxOf key < n + 1 := by
    have hle := List.idxOf_le_length (l := fillTo n 0 keys) (a := key)
    rw [length_fillTo] at hle
    omega
  show (fillTo n 0 keys ++ fillTo (n + 1) (prng.getD 0) values).getD
    (n + ((fillTo n 0 keys ++ fillTo (n + 1) (prng.getD 0) values).take n).idxOf key) 0 = _
  rw [List.take_left' (length_fillTo n 0 keys), List.getD_eq_getElem?_getD,
    List.getElem?_append_right (by rw [length_fillTo]; omega), length_fillTo,
    Nat.add_sub_cancel_left, ← List.getD_eq_getElem?_getD,
    getD_fillTo (by omega) hidx]

theorem pairStore_exactOn : (pairStore n).ExactOn keys values prng := by
  intro hnodup p key value hkey hvalue
  obtain ⟨hp, rfl⟩ := List.getElem?_eq_some_iff.mp hkey
  rw [decodeKey_pairStore prng hlen hvalues, fillTo, List.take_of_length_le hlen,
    List.idxOf_append_of_mem (List.getElem_mem hp), hnodup.idxOf_getElem,
    List.getD_eq_getElem?_getD, hvalue]
  rfl

theorem pairStore_unprogrammed {key : Block} (hkey : key ∉ keys) :
    (pairStore n).decodeKey ((pairStore n).solve keys values prng) key = prng.getD 0 := by
  have hge : values.length ≤ (fillTo n 0 keys).idxOf key := by
    rw [fillTo, List.take_of_length_le hlen, List.idxOf_append_of_notMem hkey, hvalues]
    omega
  rw [decodeKey_pairStore prng hlen hvalues, List.getD_eq_getElem?_getD,
    List.getElem?_eq_none hge]
  rfl

end PairStore

end Sectric
