import Mathlib.Data.List.Perm.Subperm
import Sectric.Psi.BinComparison

/-!
# The mask table

In the second comparison mode the client sends, for every bin, a nonce and a row
of four slots.  It draws nonces until the masks of the bin have different slots
under the nonce, notes the mask of every slot, and then fills the row: a slot of a
mask with the mask plus the content of the bin, any other with a dummy.  The server
looks its own mask up under the same nonce.

The slots are noted in bytes.  A slot of no mask keeps the number of slots, 4, and
the loop that fills the row takes a slot for one of no mask if its byte is -1, which
no byte is.  So with fewer than four masks the row is filled from beyond the masks.
Besides, the number of all slots has to be one of an `int`.
`maskTable_wellFormed_iff` says that these are the only cases.
-/

namespace Sectric

open Lib

/-! ## The model -/

section Model

variable (hashToPosition : Word → Block → Word)

/-- `bitaddress`: the low two bits of the address of a mask, which is hashed by its
low word. -/
def bitaddress (nonce mask : Block) : Byte := (hashToPosition mask.low nonce &&& 3).setWidth 8

/-- The loop that notes the masks from number `j` on, up to the first one whose slot
is taken. -/
def noteMasks : List Byte → ℕ → List Byte → Option (List Byte)
  | [], _, bitindex => some bitindex
  | a :: addresses, j, bitindex =>
      if bitindex.getD a.toNat 0 ≠ 4 then none
      else noteMasks addresses (j + 1) (bitindex.set a.toNat (BitVec.ofNat 8 j))

/-- One attempt: `bitindex`, where `uniqueMap` stays true. -/
def bitindexOf (masks : List Block) (nonce : Block) : Option (List Byte) :=
  noteMasks (masks.map (bitaddress hashToPosition nonce)) 0 (List.replicate 4 4)

/-- The attempts for a bin from nonce `k` on, if one of as many as given succeeds:
the nonce, `bitindex`, and the next nonce. -/
def searchNonce (nonces : ℕ → Block) (masks : List Block) : ℕ → ℕ → Option (Block × List Byte × ℕ)
  | 0, _ => none
  | rounds + 1, k =>
      match bitindexOf hashToPosition masks (nonces k) with
      | some bitindex => some (nonces k, bitindex, k + 1)
      | none => searchNonce nonces masks rounds (k + 1)

/-- The index into the masks of the bin that slot `j` is filled with, or `none` for a
dummy.  The byte is compared as an `int`. -/
def maskIndex (bitindex : List Byte) (j : ℕ) : Option ℕ :=
  let index := bitindex.getD j 0
  if (index.toNat : ℤ) ≠ -1 then some index.toNat else none

/-- What is written to a slot, and the dummies drawn after it.  A value read behind
the masks is `none`. -/
def slotValue (masks : List Block) (content : Word) (dummies : ℕ → Word) (drawn : ℕ) :
    Option ℕ → Option Word × ℕ
  | some index => (masks[index]?.map fun mask => mask.low ^^^ content, drawn)
  | none => (some (dummies drawn), drawn + 1)

/-- The four slots of a bin, from slot `j` on. -/
def fillSlots (masks : List Block) (content : Word) (dummies : ℕ → Word) (bitindex : List Byte) :
    List ℕ → ℕ → List (Option Word) × ℕ
  | [], drawn => ([], drawn)
  | j :: slots, drawn =>
      let (value, drawn) := slotValue masks content dummies drawn (maskIndex bitindex j)
      let (values, drawn) := fillSlots masks content dummies bitindex slots drawn
      (value :: values, drawn)

/-- What the client has for a bin: a row of `table_masks`, and the content. -/
structure MaskedBin where
  masks : List Block
  content : Word

/-- What it makes of it: the nonce, `bitindex` when the search ends, and the row of
`table_opprf`. -/
structure MaskRow where
  nonce : Block
  bitindex : List Byte
  slots : List (Option Word)

/-- The loop over the bins, with nonce `k` and dummy `drawn` next, if the search for
every bin ends within the given number of attempts. -/
def maskRows (nonces : ℕ → Block) (dummies : ℕ → Word) (rounds : ℕ) :
    List MaskedBin → ℕ → ℕ → Option (List MaskRow)
  | [], _, _ => some []
  | bin :: bins, k, drawn => do
      let (nonce, bitindex, k) ← searchNonce hashToPosition nonces bin.masks rounds k
      let (slots, drawn) :=
        fillSlots bin.masks bin.content dummies bitindex (List.range 4) drawn
      let rows ← maskRows nonces dummies rounds bins k drawn
      return { nonce := nonce, bitindex := bitindex, slots := slots } :: rows

/-- The nonces and the table the client makes, for a number of comparisons.  It first
reserves `ts * num_cmps` slots. -/
def maskTable (nonces : ℕ → Block) (dummies : ℕ → Word) (rounds numCmps : ℕ)
    (bins : List MaskedBin) : Except String (List MaskRow) :=
  if SizeType.int.Holds (4 * numCmps) then
    match maskRows hashToPosition nonces dummies rounds bins 0 0 with
    | some rows => .ok rows
    | none => .error "no nonce"
  else overflow

/-- `actual_contents_of_bins` for a mask of the server. -/
def MaskRow.lookUp (row : MaskRow) (mask : Block) : Option Word :=
  (row.slots.getD (bitaddress hashToPosition row.nonce mask).toNat none).map (mask.low ^^^ ·)

/-! ## Well-formed rows -/

/-- The row of a bin, with `fresh` the number of the dummy a slot may hold. -/
structure MaskRow.WellFormed (dummies : ℕ → Word) (fresh : ℕ → ℕ) (bin : MaskedBin)
    (row : MaskRow) : Prop where
  distinct : (bin.masks.map (bitaddress hashToPosition row.nonce)).Nodup
  addressed : ∀ mask ∈ bin.masks,
    row.slots[(bitaddress hashToPosition row.nonce mask).toNat]? =
      some (some (mask.low ^^^ bin.content))
  others : ∀ s < 4, (∀ mask ∈ bin.masks, (bitaddress hashToPosition row.nonce mask).toNat ≠ s) →
    row.slots[s]? = some (some (dummies (fresh s)))
  indices : ∀ s < 4, ∀ index, maskIndex row.bitindex s = some index → index < bin.masks.length
  recovers : ∀ mask ∈ bin.masks, row.lookUp hashToPosition mask = some bin.content

/-- Every row is well formed, and no dummy is used twice. -/
def MaskTableWellFormed (dummies : ℕ → Word) (bins : List MaskedBin) (rows : List MaskRow) : Prop :=
  ∃ fresh : ℕ → ℕ → ℕ, Function.Injective2 fresh ∧
    ∀ i bin row, bins[i]? = some bin → rows[i]? = some row →
      MaskRow.WellFormed hashToPosition dummies (fresh i) bin row

end Model

/-! ## Noting the masks -/

section Search

variable {hashToPosition : Word → Block → Word}

variable (hashToPosition) in
theorem bitaddress_lt (nonce mask : Block) : (bitaddress hashToPosition nonce mask).toNat < 4 := by
  have hmod : (hashToPosition mask.low nonce &&& 3).toNat =
      (hashToPosition mask.low nonce).toNat % 4 :=
    (BitVec.toNat_and _ _).trans (Nat.and_two_pow_sub_one_eq_mod _ 2)
  rw [bitaddress, BitVec.toNat_setWidth, hmod]
  omega

theorem getD_set_self {xs : List Byte} {p : ℕ} (hp : p < xs.length) (b : Byte) :
    (xs.set p b).getD p 0 = b := by
  simp [List.getD_eq_getElem?_getD, hp]

theorem getD_set_of_ne (xs : List Byte) {p q : ℕ} (h : p ≠ q) (b : Byte) :
    (xs.set p b).getD q 0 = xs.getD q 0 := by
  simp [List.getD_eq_getElem?_getD, h]

/-- The slots are noted with the numbers of their masks and differ; the others stay. -/
theorem noteMasks_spec :
    ∀ {addresses : List Byte} {j : ℕ} {bitindex bitindex' : List Byte},
      j + addresses.length ≤ 4 → (∀ a ∈ addresses, a.toNat < bitindex.length) →
      noteMasks addresses j bitindex = some bitindex' →
      addresses.Nodup ∧ (∀ a ∈ addresses, bitindex.getD a.toNat 0 = 4) ∧
        (∀ p a, addresses[p]? = some a → bitindex'.getD a.toNat 0 = BitVec.ofNat 8 (j + p)) ∧
        ∀ s, (∀ a ∈ addresses, a.toNat ≠ s) → bitindex'.getD s 0 = bitindex.getD s 0 := by
  intro addresses
  induction addresses with
  | nil =>
      intro j bitindex bitindex' _ _ h
      cases h
      simp
  | cons a addresses ih =>
      intro j bitindex bitindex' hfit hroom h
      rw [List.length_cons] at hfit
      have ha := hroom a (List.mem_cons_self ..)
      rw [noteMasks] at h
      split at h
      · cases h
      · rename_i hfree
        have hroom' : ∀ a' ∈ addresses,
            a'.toNat < (bitindex.set a.toNat (BitVec.ofNat 8 j)).length := by
          intro a' ha'
          rw [List.length_set]
          exact hroom a' (List.mem_cons_of_mem _ ha')
        obtain ⟨hnodup, hwas, hnoted, hkept⟩ := ih (by omega) hroom' h
        -- the number just noted is below 4, so the slot is not free any more
        have hself := getD_set_self ha (BitVec.ofNat 8 j)
        have hnew : ∀ a' ∈ addresses, a'.toNat ≠ a.toNat := by
          intro a' ha' heq
          have h4 := hwas a' ha'
          rw [heq, hself] at h4
          have hnat := congrArg BitVec.toNat h4
          rw [BitVec.toNat_ofNat, Nat.mod_eq_of_lt (by omega)] at hnat
          change j = 4 at hnat
          omega
        refine ⟨?_, ?_, ?_, ?_⟩
        · exact List.nodup_cons.mpr ⟨fun hmem => hnew a hmem rfl, hnodup⟩
        · intro a' ha'
          cases ha' with
          | head => exact not_not.mp hfree
          | tail _ ha' =>
              rw [← hwas a' ha', getD_set_of_ne _ (hnew a' ha').symm]
        · intro p a' hp
          cases p with
          | zero =>
              cases hp
              rw [hkept a.toNat hnew, hself, Nat.add_zero]
          | succ p =>
              rw [hnoted p a' hp]
              congr 1
              omega
        · intro s hs
          rw [hkept s fun a' ha' => hs a' (List.mem_cons_of_mem _ ha'),
            getD_set_of_ne _ (hs a (List.mem_cons_self ..))]

/-- What `bitindex` says when the search for a bin ends. -/
structure Noted (hashToPosition : Word → Block → Word) (masks : List Block) (nonce : Block)
    (bitindex : List Byte) : Prop where
  distinct : (masks.map (bitaddress hashToPosition nonce)).Nodup
  noted : ∀ (p : ℕ) mask, masks[p]? = some mask →
    bitindex.getD (bitaddress hashToPosition nonce mask).toNat 0 = BitVec.ofNat 8 p
  others : ∀ s < 4, (∀ mask ∈ masks, (bitaddress hashToPosition nonce mask).toNat ≠ s) →
    bitindex.getD s 0 = 4

theorem bitindexOf_spec {masks : List Block} {nonce : Block} {bitindex : List Byte}
    (hfit : masks.length ≤ 4) (h : bitindexOf hashToPosition masks nonce = some bitindex) :
    Noted hashToPosition masks nonce bitindex := by
  have hroom : ∀ a ∈ masks.map (bitaddress hashToPosition nonce),
      a.toNat < (List.replicate 4 (4 : Byte)).length := by
    intro a ha
    obtain ⟨mask, -, rfl⟩ := List.mem_map.mp ha
    exact bitaddress_lt hashToPosition nonce mask
  obtain ⟨hdistinct, -, hnoted, hkept⟩ := noteMasks_spec (by simpa using hfit) hroom h
  refine ⟨hdistinct, ?_, ?_⟩
  · intro p mask hp
    have hp' : (masks.map (bitaddress hashToPosition nonce))[p]? =
        some (bitaddress hashToPosition nonce mask) := by
      rw [List.getElem?_map, hp]
      rfl
    rw [hnoted p _ hp', Nat.zero_add]
  · intro s hs hnone
    rw [hkept s (by simpa using hnone), List.getD_eq_getElem?_getD, List.getElem?_replicate,
      if_pos hs]
    rfl

/-- The nonce a search ends with has different slots. -/
theorem searchNonce_eq_some {nonces : ℕ → Block} {masks : List Block} :
    ∀ {rounds k k' : ℕ} {nonce : Block} {bitindex : List Byte},
      searchNonce hashToPosition nonces masks rounds k = some (nonce, bitindex, k') →
      bitindexOf hashToPosition masks nonce = some bitindex := by
  intro rounds
  induction rounds with
  | zero =>
      intro k k' nonce bitindex h
      cases h
  | succ rounds ih =>
      intro k k' nonce bitindex h
      rw [searchNonce] at h
      cases hattempt : bitindexOf hashToPosition masks (nonces k) with
      | none =>
          rw [hattempt] at h
          exact ih h
      | some found =>
          rw [hattempt] at h
          cases h
          exact hattempt

end Search

/-! ## Filling the slots -/

/-- A byte is not -1, so every slot is filled from a mask. -/
theorem maskIndex_eq (bitindex : List Byte) (j : ℕ) :
    maskIndex bitindex j = some (bitindex.getD j 0).toNat := by
  have hnonneg : ((bitindex.getD j 0).toNat : ℤ) ≠ -1 := by omega
  rw [maskIndex]
  exact if_pos hnonneg

theorem fillSlots_eq (masks : List Block) (content : Word) (dummies : ℕ → Word)
    (bitindex : List Byte) (drawn : ℕ) :
    ∀ slots : List ℕ, fillSlots masks content dummies bitindex slots drawn =
      (slots.map fun j => masks[(bitindex.getD j 0).toNat]?.map fun mask => mask.low ^^^ content,
        drawn) := by
  intro slots
  induction slots with
  | nil => rfl
  | cons j slots ih => simp only [fillSlots, maskIndex_eq, slotValue, ih, List.map_cons]

/-- The row the loop makes for a bin. -/
structure MaskRow.Filled (hashToPosition : Word → Block → Word) (bin : MaskedBin)
    (row : MaskRow) : Prop where
  ended : bitindexOf hashToPosition bin.masks row.nonce = some row.bitindex
  slots : row.slots = (List.range 4).map fun j =>
    bin.masks[(row.bitindex.getD j 0).toNat]?.map fun mask => mask.low ^^^ bin.content

section Rows

variable {hashToPosition : Word → Block → Word}

/-- Run lemma: every bin has its row. -/
theorem maskRows_filled {nonces : ℕ → Block} {dummies : ℕ → Word} {rounds : ℕ} :
    ∀ {bins : List MaskedBin} {k drawn : ℕ} {rows : List MaskRow},
      maskRows hashToPosition nonces dummies rounds bins k drawn = some rows →
      List.Forall₂ (MaskRow.Filled hashToPosition) bins rows := by
  intro bins
  induction bins with
  | nil =>
      intro k drawn rows h
      cases h
      exact .nil
  | cons bin bins ih =>
      intro k drawn rows h
      rw [maskRows, Option.bind_eq_bind, Option.bind_eq_some_iff] at h
      obtain ⟨⟨nonce, bitindex, k'⟩, hsearch, h⟩ := h
      simp only [fillSlots_eq] at h
      rw [Option.bind_eq_bind, Option.bind_eq_some_iff] at h
      obtain ⟨rest, hrest, h⟩ := h
      cases h
      exact .cons ⟨searchNonce_eq_some hsearch, rfl⟩ (ih hrest)

/-- Distinct numbers below `n` are all of them exactly if there are `n`. -/
theorem forall_lt_mem_iff {n : ℕ} {l : List ℕ} (hnodup : l.Nodup) (hlt : ∀ a ∈ l, a < n) :
    (∀ s < n, s ∈ l) ↔ n ≤ l.length := by
  have hsub : l ⊆ List.range n := fun a ha => List.mem_range.mpr (hlt a ha)
  constructor
  · intro hall
    have hrange : List.range n ⊆ l := fun s hs => hall s (List.mem_range.mp hs)
    simpa using (List.subperm_of_subset List.nodup_range hrange).length_le
  · intro hle s hs
    have hperm := (List.subperm_of_subset hnodup hsub).perm_of_length_le (by simpa using hle)
    exact hperm.mem_iff.mpr (List.mem_range.mpr hs)

/-- Every slot is the slot of a mask exactly if there are four masks. -/
theorem Noted.all_addressed_iff {masks : List Block} {nonce : Block} {bitindex : List Byte}
    (h : Noted hashToPosition masks nonce bitindex) :
    (∀ s < 4, ∃ mask ∈ masks, (bitaddress hashToPosition nonce mask).toNat = s) ↔
      4 ≤ masks.length := by
  let slots := masks.map fun mask => (bitaddress hashToPosition nonce mask).toNat
  have hslots : slots = (masks.map (bitaddress hashToPosition nonce)).map BitVec.toNat := by
    rw [List.map_map]
    rfl
  have hnodup : slots.Nodup := by
    rw [hslots]
    exact h.distinct.map fun _ _ => BitVec.eq_of_toNat_eq
  have hlt : ∀ a ∈ slots, a < 4 := by
    intro a ha
    obtain ⟨mask, -, rfl⟩ := List.mem_map.mp ha
    exact bitaddress_lt hashToPosition nonce mask
  have hall := forall_lt_mem_iff hnodup hlt
  rw [List.length_map] at hall
  rw [← hall]
  simp only [slots, List.mem_map]

variable {bin : MaskedBin} {row : MaskRow} (h : row.Filled hashToPosition bin)

include h

/-- The slot of a mask holds the mask and the content. -/
theorem MaskRow.Filled.slot (hfit : bin.masks.length ≤ 4) {mask : Block}
    (hmask : mask ∈ bin.masks) :
    row.slots[(bitaddress hashToPosition row.nonce mask).toNat]? =
      some (some (mask.low ^^^ bin.content)) := by
  obtain ⟨p, hp⟩ := List.mem_iff_getElem?.mp hmask
  have hplt : p < bin.masks.length := (List.getElem?_eq_some_iff.mp hp).1
  have hnoted := (bitindexOf_spec hfit h.ended).noted p mask hp
  have hnat : (BitVec.ofNat 8 p).toNat = p := by
    rw [BitVec.toNat_ofNat, Nat.mod_eq_of_lt (by omega)]
  have hlt := bitaddress_lt hashToPosition row.nonce mask
  rw [h.slots, List.getElem?_map, List.getElem?_range hlt, Option.map_some, hnoted, hnat, hp]
  rfl

/-- With four masks the row of a bin is well formed, whatever the dummies are. -/
theorem MaskRow.Filled.wellFormed (hfour : bin.masks.length = 4) (dummies : ℕ → Word)
    (fresh : ℕ → ℕ) : row.WellFormed hashToPosition dummies fresh bin := by
  have hnoted := bitindexOf_spec hfour.le h.ended
  have hall := hnoted.all_addressed_iff.mpr hfour.ge
  have hslot := fun mask (hmask : mask ∈ bin.masks) => h.slot hfour.le hmask
  refine ⟨hnoted.distinct, hslot, ?_, ?_, ?_⟩
  · intro s hs hnone
    obtain ⟨mask, hmask, heq⟩ := hall s hs
    exact absurd heq (hnone mask hmask)
  · intro s hs index hindex
    obtain ⟨mask, hmask, rfl⟩ := hall s hs
    obtain ⟨p, hp⟩ := List.mem_iff_getElem?.mp hmask
    have hplt : p < bin.masks.length := (List.getElem?_eq_some_iff.mp hp).1
    rw [maskIndex_eq, hnoted.noted p mask hp, BitVec.toNat_ofNat, Option.some.injEq] at hindex
    omega
  · intro mask hmask
    rw [MaskRow.lookUp, List.getD_eq_getElem?_getD, hslot mask hmask, Option.getD_some,
      Option.map_some, ← BitVec.xor_assoc, BitVec.xor_self, BitVec.zero_xor]

/-- With fewer the slot of no mask is filled from behind the masks. -/
theorem MaskRow.Filled.not_wellFormed (hless : bin.masks.length < 4) (dummies : ℕ → Word)
    (fresh : ℕ → ℕ) : ¬ row.WellFormed hashToPosition dummies fresh bin := by
  intro hwell
  have hnoted := bitindexOf_spec hless.le h.ended
  have hsome : ¬ ∀ s < 4, ∃ mask ∈ bin.masks,
      (bitaddress hashToPosition row.nonce mask).toNat = s := by
    rw [hnoted.all_addressed_iff]
    omega
  push Not at hsome
  obtain ⟨s, hs, hnone⟩ := hsome
  have hindex := hwell.indices s hs _ (maskIndex_eq row.bitindex s)
  rw [hnoted.others s hs hnone] at hindex
  change 4 < bin.masks.length at hindex
  omega

end Rows

theorem maskTable_eq {hashToPosition : Word → Block → Word} {nonces : ℕ → Block}
    {dummies : ℕ → Word} {rounds numCmps : ℕ} {bins : List MaskedBin} {rows : List MaskRow}
    (hfits : 4 * numCmps < 2 ^ 31)
    (hrows : maskRows hashToPosition nonces dummies rounds bins 0 0 = some rows) :
    maskTable hashToPosition nonces dummies rounds numCmps bins = .ok rows := by
  have hheld : SizeType.int.Holds (4 * numCmps) := hfits
  rw [maskTable, if_pos hheld, hrows]

theorem maskTable_eq_error {hashToPosition : Word → Block → Word} {nonces : ℕ → Block}
    {dummies : ℕ → Word} {rounds numCmps : ℕ} {bins : List MaskedBin}
    (hfits : 4 * numCmps < 2 ^ 31)
    (hrows : maskRows hashToPosition nonces dummies rounds bins 0 0 = none) :
    maskTable hashToPosition nonces dummies rounds numCmps bins = .error "no nonce" := by
  have hheld : SizeType.int.Holds (4 * numCmps) := hfits
  rw [maskTable, if_pos hheld, hrows]

/-- Where the search for every bin ends, there are tables and they are well formed
exactly if every bin has four masks and the number of slots has a place in an `int`,
or there is no bin. -/
theorem maskTable_wellFormed_iff (hashToPosition : Word → Block → Word) (nonces : ℕ → Block)
    (dummies : ℕ → Word) {ffuns : ℕ} (hffuns : ffuns ≤ 4) {bins : List MaskedBin}
    (hbins : ∀ bin ∈ bins, bin.masks.length = ffuns) {rounds : ℕ} {rows : List MaskRow}
    (hrows : maskRows hashToPosition nonces dummies rounds bins 0 0 = some rows) :
    (maskTable hashToPosition nonces dummies rounds (Psm.numCmps bins.length) bins = .ok rows ∧
        MaskTableWellFormed hashToPosition dummies bins rows) ↔
      (ffuns = 4 ∧ 4 * Psm.numCmps bins.length < 2 ^ 31) ∨ bins = [] := by
  have hfilled := maskRows_filled hrows
  constructor
  · rintro ⟨hmade, fresh, -, hwell⟩
    have hheld : 4 * Psm.numCmps bins.length < 2 ^ 31 := by
      by_contra hlost
      have hover : maskTable hashToPosition nonces dummies rounds (Psm.numCmps bins.length) bins =
          overflow := if_neg hlost
      rw [hover] at hmade
      cases hmade
    cases hfilled with
    | nil => exact .inr rfl
    | @cons bin row _ _ hrow _ =>
        have hlen := hbins bin (List.mem_cons_self ..)
        refine .inl ⟨?_, hheld⟩
        by_contra hne
        exact hrow.not_wellFormed (by omega) dummies (fresh 0) (hwell 0 bin row rfl rfl)
  · intro hcase
    have hheld : 4 * Psm.numCmps bins.length < 2 ^ 31 := by
      rcases hcase with ⟨-, hheld⟩ | hnone
      · exact hheld
      · rw [hnone]
        decide
    refine ⟨maskTable_eq hheld hrows, Nat.pair, fun _ _ _ _ => Nat.pair_eq_pair.mp, ?_⟩
    intro i bin row hbin hrow
    have hmem := List.mem_of_getElem? hbin
    cases hcase with
    | inl hfour =>
        have hlen := hbins bin hmem
        obtain ⟨hi, rfl⟩ := List.getElem?_eq_some_iff.mp hbin
        obtain ⟨hi', rfl⟩ := List.getElem?_eq_some_iff.mp hrow
        exact MaskRow.Filled.wellFormed (hfilled.get hi hi') (hlen.trans hfour.1) dummies _
    | inr hnone =>
        rw [hnone] at hmem
        cases hmem

/-- A bin of `ffuns` masks with the addresses 0, 1 and so on. -/
def countedBin (ffuns : ℕ) : MaskedBin where
  masks := (List.range ffuns).map fun j => makeBlock 0 (BitVec.ofNat 64 j)
  content := 5

theorem maskTable_wellFormed_of_four :
    ∃ rows, maskTable (fun w _ => w) (fun _ => 0) (fun _ => 0) 1 (Psm.numCmps 1) [countedBin 4] =
        .ok rows ∧
      MaskTableWellFormed (fun w _ => w) (fun _ => 0) [countedBin 4] rows := by
  have hrows : maskRows (fun w _ => w) (fun _ => 0) (fun _ => 0) 1 [countedBin 4] 0 0 =
      some [⟨0, [0, 1, 2, 3], [some 5, some 4, some 7, some 6]⟩] := by rfl
  have hbins : ∀ bin ∈ [countedBin 4], bin.masks.length = 4 := by
    intro bin hbin
    rw [List.mem_singleton.mp hbin]
    rfl
  exact ⟨_, (maskTable_wellFormed_iff (fun w _ => w) (fun _ => 0) (fun _ => 0) le_rfl hbins
    hrows).mpr (.inl ⟨rfl, by decide⟩)⟩

/-- With three masks slot 3 is filled from a fourth. -/
theorem maskTable_of_three_not_wellFormed :
    ∃ rows, maskTable (fun w _ => w) (fun _ => 0) (fun _ => 0) 1 (Psm.numCmps 1) [countedBin 3] =
        .ok rows ∧
      ¬ MaskTableWellFormed (fun w _ => w) (fun _ => 0) [countedBin 3] rows := by
  refine ⟨[⟨0, [0, 1, 2, 4], [some 5, some 4, some 7, none]⟩],
    maskTable_eq (by decide) rfl, ?_⟩
  rintro ⟨fresh, -, hwell⟩
  have hindex := (hwell 0 (countedBin 3) _ rfl rfl).indices 3 (by decide) 4 rfl
  change 4 < 3 at hindex
  omega

end Sectric
