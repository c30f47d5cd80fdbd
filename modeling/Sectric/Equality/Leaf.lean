import Sectric.Equality.Tree
import Sectric.Lib.Digits

/-!
# The leaves share the agreement of digits

BOB receives ALICE's mask bit, flipped where the digits agree, so the two hold
shares of the agreement.  The digits of a word agree when the words do modulo
`2 ^ l`; with the tree of products the whole comparison follows.
-/

namespace Sectric

open Lib

/-! ## Digits of a word -/

namespace Equality

variable (eq : Equality)

/-- The bounds `assert`ed by the constructor, and a digit width that is not 0. -/
structure Valid : Prop where
  beta_pos : 0 < eq.beta
  beta_le : eq.beta ≤ 8
  l_pos : 0 < eq.l
  l_le : eq.l ≤ 64

/-- The number of bits digit `i` keeps. -/
def digitWidth (i : ℕ) : ℕ := if i = eq.numDigits - 1 ∧ eq.r ≠ 0 then eq.r else eq.beta

variable {eq}

theorem Valid.numDigits_eq (h : eq.Valid) :
    eq.numDigits = if eq.r = 0 then eq.l / eq.beta else eq.l / eq.beta + 1 := by
  have hpos := h.beta_pos
  have hdiv := Nat.div_add_mod eq.l eq.beta
  have hmod := Nat.mod_lt eq.l hpos
  rw [numDigits, r]
  split
  · rename_i hr
    refine Nat.div_eq_of_lt_le ?_ ?_
    · rw [Nat.mul_comm]
      omega
    · rw [Nat.succ_mul, Nat.mul_comm]
      omega
  · rename_i hr
    refine Nat.div_eq_of_lt_le ?_ ?_
    · rw [Nat.succ_mul, Nat.mul_comm]
      omega
    · rw [Nat.succ_mul, Nat.succ_mul, Nat.mul_comm]
      omega

theorem Valid.numDigits_pos (h : eq.Valid) : 0 < eq.numDigits :=
  Nat.div_pos (by have := h.l_pos; omega) h.beta_pos

theorem Valid.digitWidth_le (h : eq.Valid) (i : ℕ) : eq.digitWidth i ≤ eq.beta := by
  rw [digitWidth]
  split
  · exact (Nat.mod_lt _ h.beta_pos).le
  · exact le_rfl

/-- A digit below the top one is whole. -/
theorem digitWidth_of_lt {i : ℕ} (hi : i + 1 < eq.numDigits) : eq.digitWidth i = eq.beta := by
  rw [digitWidth, if_neg fun htop => by omega]

/-- Without a remainder every digit is whole. -/
theorem digitWidth_of_r_eq_zero (hr : eq.r = 0) (i : ℕ) : eq.digitWidth i = eq.beta := by
  rw [digitWidth, if_neg fun htop => htop.2 hr]

theorem digitWidth_top (hr : eq.r ≠ 0) {k : ℕ} (hk : eq.numDigits = k + 1) :
    eq.digitWidth k = eq.r := by
  rw [digitWidth, if_pos ⟨by rw [hk, Nat.add_sub_cancel], hr⟩]

theorem toNat_ofNat_two_pow_sub_one {w : ℕ} (h : w ≤ 8) :
    (BitVec.ofNat 8 (2 ^ w - 1)).toNat = 2 ^ w - 1 := by
  have hle : 2 ^ w ≤ 2 ^ 8 := Nat.pow_le_pow_right (by decide) h
  have hpos := Nat.two_pow_pos w
  rw [BitVec.toNat_ofNat, Nat.mod_eq_of_lt (by omega)]

theorem maskBeta_eq : eq.maskBeta = BitVec.ofNat 8 (2 ^ eq.beta - 1) := by
  rw [maskBeta]
  split
  · rename_i h8
    rw [h8]
    decide
  · rfl

/-- A digit is a digit of the word. -/
theorem Valid.toNat_digit (h : eq.Valid) (data : List Word) (i j : ℕ) :
    (eq.digit data i j).toNat =
      (data.getD j 0).toNat / 2 ^ (i * eq.beta) % 2 ^ eq.digitWidth i := by
  have hwidth := (h.digitWidth_le i).trans h.beta_le
  have hmask : eq.digit data i j =
      (data.getD j 0 >>> (i * eq.beta)).setWidth 8 &&&
        BitVec.ofNat 8 (2 ^ eq.digitWidth i - 1) := by
    rw [digit, digitWidth]
    split
    · rfl
    · rw [maskBeta_eq]
  rw [hmask, BitVec.toNat_and, toNat_ofNat_two_pow_sub_one hwidth,
    Nat.and_two_pow_sub_one_eq_mod, BitVec.toNat_setWidth, BitVec.toNat_ushiftRight,
    Nat.shiftRight_eq_div_pow, Nat.mod_mod_of_dvd _ (Nat.pow_dvd_pow 2 hwidth)]

/-- All digits agree exactly when the words agree modulo `2 ^ l`. -/
theorem Valid.digits_agree_iff (h : eq.Valid) (xs ys : List Word) (a b : ℕ) :
    (∀ i < eq.numDigits, eq.digit xs i a = eq.digit ys i b) ↔
      (xs.getD a 0).toNat % 2 ^ eq.l = (ys.getD b 0).toNat % 2 ^ eq.l := by
  simp only [← BitVec.toNat_inj, h.toNat_digit]
  have hdiv := Nat.div_add_mod eq.l eq.beta
  rw [h.numDigits_eq]
  split
  · rename_i hr
    have hl : eq.l = eq.l / eq.beta * eq.beta := by
      rw [r] at hr
      rw [Nat.mul_comm]
      omega
    conv_rhs => rw [hl, ← digits_eq_iff]
    exact forall₂_congr fun i _ => by rw [digitWidth_of_r_eq_zero hr]
  · rename_i hr
    have hnd : eq.numDigits = eq.l / eq.beta + 1 := by rw [h.numDigits_eq, if_neg hr]
    have hfull : ∀ i < eq.l / eq.beta, eq.digitWidth i = eq.beta :=
      fun i hi => digitWidth_of_lt (by omega)
    have htop := digitWidth_top hr hnd
    have hl : eq.l = eq.l / eq.beta * eq.beta + eq.r := by
      rw [r, Nat.mul_comm]
      exact hdiv.symm
    conv_rhs => rw [hl, Nat.pow_add, mod_mul_eq_iff (Nat.two_pow_pos _), ← digits_eq_iff]
    constructor
    · intro hall
      refine ⟨fun i hi => ?_, ?_⟩
      · have hdigit := hall i (by omega)
        rwa [hfull i hi] at hdigit
      · rw [← htop]
        exact hall _ (by omega)
    · rintro ⟨hlow, hhigh⟩ i hi
      rcases Nat.lt_succ_iff_lt_or_eq.mp hi with hi | rfl
      · rw [hfull i hi]
        exact hlow i hi
      · rw [htop]
        exact hhigh

end Equality

/-! ## The transfers -/

/-- A 1-out-of-`N` transfer of single bits: the receiver gets the message its
choice selects. -/
def SelectsMessage (N : ℕ) (ot : List (List Byte) → List Byte → List Byte) : Prop :=
  ∀ messages choices, messages.length = choices.length →
    (∀ row, row ∈ messages → row.length = N ∧ AllBits row) →
    (∀ p < choices.length, (choices.getD p 0).toNat < N) →
    ot messages choices = List.zipWith (fun row c => row.getD c.toNat 0) messages choices

/-- Every transfer of the pack selects among as many messages as its name says. -/
structure OtPack.Lawful (ot : OtPack) (betaPow : ℕ) : Prop where
  kkotBeta : SelectsMessage betaPow ot.kkotBeta
  kkot4 : SelectsMessage 4 ot.kkot4
  kkot8 : SelectsMessage 8 ot.kkot8
  kkot16 : SelectsMessage 16 ot.kkot16
  iknpStraight : SelectsMessage 2 ot.iknpStraight

/-- A 1-out-of-`N` transfer of rows of one kind.  That of single bits is
`SelectsMessage`. -/
def SelectsRow (kind : List Byte → Prop) (N : ℕ) (ot : List (List Byte) → List Byte → List Byte) :
    Prop :=
  ∀ messages choices, messages.length = choices.length →
    (∀ row, row ∈ messages → row.length = N ∧ kind row) →
    (∀ p < choices.length, (choices.getD p 0).toNat < N) →
    ot messages choices = List.zipWith (fun row c => row.getD c.toNat 0) messages choices

/-- Every transfer of the pack selects among as many messages as its name says,
in rows of one kind. -/
structure OtPack.Selects (kind : List Byte → Prop) (ot : OtPack) (betaPow : ℕ) : Prop where
  kkotBeta : SelectsRow kind betaPow ot.kkotBeta
  kkot4 : SelectsRow kind 4 ot.kkot4
  kkot8 : SelectsRow kind 8 ot.kkot8
  kkot16 : SelectsRow kind 16 ot.kkot16
  iknpStraight : SelectsRow kind 2 ot.iknpStraight

theorem OtPack.Lawful.selects {ot : OtPack} {betaPow : ℕ} (h : ot.Lawful betaPow) :
    ot.Selects AllBits betaPow :=
  ⟨h.kkotBeta, h.kkot4, h.kkot8, h.kkot16, h.iknpStraight⟩

/-- A transfer for a list of items: for each of them the receiver gets the message
of its row that it chose. -/
theorem SelectsRow.map {κ : Type*} {kind : List Byte → Prop} {N : ℕ}
    {ot : List (List Byte) → List Byte → List Byte} (hot : SelectsRow kind N ot) (ks : List κ)
    {message : κ → List Byte} {choice : κ → Byte}
    (hrow : ∀ k ∈ ks, (message k).length = N ∧ kind (message k))
    (hchoice : ∀ k ∈ ks, (choice k).toNat < N) :
    ot (ks.map message) (ks.map choice) = ks.map fun k => (message k).getD (choice k).toNat 0 := by
  rw [hot _ _ (by rw [List.length_map, List.length_map]), List.zipWith_map, List.zipWith_self]
  · intro row hmem
    obtain ⟨k, hk, rfl⟩ := List.mem_map.mp hmem
    exact hrow k hk
  · intro p hp
    rw [List.getD_eq_getElem _ _ hp]
    obtain ⟨k, hk, h⟩ := List.mem_map.mp (List.getElem_mem hp)
    rw [← h]
    exact hchoice k hk

theorem isBit_xor {a b : Byte} (ha : IsBit a) (hb : IsBit b) : IsBit (a ^^^ b) := by
  rcases ha with rfl | rfl <;> rcases hb with rfl | rfl <;> simp [IsBit]

theorem getD_map_boolByte (masks : List Bool) (p : ℕ) :
    (masks.map boolByte).getD p 0 = boolByte (masks.getD p false) :=
  List.getD_map masks false boolByte

namespace Equality

theorem setLeafOtMessages_bits (digit : Byte) (N : ℕ) (mask : Bool) :
    AllBits (setLeafOtMessages digit N (boolByte mask)) := by
  refine allBits_of_mem ?_
  intro b hb
  obtain ⟨k, _, rfl⟩ := List.mem_map.mp hb
  exact isBit_xor (isBit_boolByte _) (isBit_boolByte _)

/-- The selected message of a row. -/
theorem getD_setLeafOtMessages {digit choice mask : Byte} {N : ℕ} (h : choice.toNat < N) :
    (setLeafOtMessages digit N mask).getD choice.toNat 0 =
      boolByte (decide (digit = choice)) ^^^ mask := by
  have hdec : (digit.toNat == choice.toNat) = decide (digit = choice) := by
    rw [Bool.eq_iff_iff]
    simp [BitVec.toNat_inj]
  rw [setLeafOtMessages, getD_map_range _ _ h, hdec]

variable {eq : Equality}

/-- The number of messages of a row of digit `i`. -/
def rowSize (eq : Equality) (wan : Bool) (i : ℕ) : ℕ :=
  if wan then 2 ^ eq.beta else 2 ^ eq.digitWidth i

/-- The three cases a row of messages is set in. -/
theorem ite_rowSize {α : Type} (row : ℕ → α) (wan : Bool) (i : ℕ) :
    (if i = eq.numDigits - 1 ∧ 0 < eq.r then
      if wan then row eq.betaPow else row (2 ^ eq.r)
    else row eq.betaPow) = row (eq.rowSize wan i) := by
  simp only [rowSize, digitWidth, betaPow, Nat.pos_iff_ne_zero]
  cases wan with
  | true =>
      simp only [if_true]
      split <;> rfl
  | false =>
      simp only [Bool.false_eq_true, if_false]
      split <;> rfl

theorem leafOtMessages_eq (wan : Bool) (data : List Word) (masks : List Bool) :
    eq.leafOtMessages wan (eq.digits data) (masks.map boolByte) =
      rowMajor eq.numDigits eq.numCmps fun i j =>
        setLeafOtMessages (eq.digit data i j) (eq.rowSize wan i)
          (boolByte (masks.getD (i * eq.numCmps + j) false)) := by
  refine rowMajor_congr ?_
  intro i hi j hj
  have hdigit : (eq.digits data).getD (i * eq.numCmps + j) 0 = eq.digit data i j :=
    getD_rowMajor _ _ hi hj
  simp only [getD_map_boolByte, hdigit]
  exact ite_rowSize (fun N => setLeafOtMessages (eq.digit data i j) N
    (boolByte (masks.getD (i * eq.numCmps + j) false))) wan i

theorem Valid.toNat_digit_lt (h : eq.Valid) (data : List Word) (i j : ℕ) :
    (eq.digit data i j).toNat < 2 ^ eq.digitWidth i := by
  rw [h.toNat_digit]
  exact Nat.mod_lt _ (Nat.two_pow_pos _)

/-- The leaf a digit gets: whether the digits agree, masked. -/
def leafValue (eq : Equality) (dataAlice dataBob : List Word) (masks : List Bool) (i j : ℕ) :
    Byte :=
  boolByte (decide (eq.digit dataAlice i j = eq.digit dataBob i j)) ^^^
    boolByte (masks.getD (i * eq.numCmps + j) false)

section Transfers

variable {kind : List Byte → Prop} {ot : OtPack} (hot : ot.Selects kind (2 ^ eq.beta))
  {message : ℕ → ℕ → List Byte} {choice : ℕ → ℕ → Byte}

include hot in
/-- The transfer of the top digit, where it is narrower. -/
theorem leafOts_top (hpos : 0 < eq.r) (hle : eq.r ≤ 4) (messages : List (List Byte))
    (choices : List Byte) :
    ∃ top, SelectsRow kind (2 ^ eq.r) top ∧ eq.leafOts false ot messages choices =
      .ok (ot.kkotBeta (messages.take (eq.numCmps * (eq.numDigits - 1)))
          (choices.take (eq.numCmps * (eq.numDigits - 1))) ++
        top (messages.drop (eq.numCmps * (eq.numDigits - 1)))
          (choices.drop (eq.numCmps * (eq.numDigits - 1)))) := by
  have hcases : eq.r = 1 ∨ eq.r = 2 ∨ eq.r = 3 ∨ eq.r = 4 := by omega
  rcases hcases with hr | hr | hr | hr
  · exact ⟨ot.iknpStraight, by rw [hr]; exact hot.iknpStraight, by simp [leafOts, hr]⟩
  · exact ⟨ot.kkot4, by rw [hr]; exact hot.kkot4, by simp [leafOts, hr]⟩
  · exact ⟨ot.kkot8, by rw [hr]; exact hot.kkot8, by simp [leafOts, hr]⟩
  · exact ⟨ot.kkot16, by rw [hr]; exact hot.kkot16, by simp [leafOts, hr]⟩

variable (h : eq.Valid) {wan : Bool}
  (hrow : ∀ i < eq.numDigits, ∀ j < eq.numCmps,
    (message i j).length = eq.rowSize wan i ∧ kind (message i j))
  (hchoice : ∀ i j, (choice i j).toNat < 2 ^ eq.digitWidth i)

theorem Valid.lt_rowSize (h : eq.Valid) {i : ℕ} {c : Byte} (hc : c.toNat < 2 ^ eq.digitWidth i)
    (wan : Bool) : c.toNat < eq.rowSize wan i := by
  cases wan with
  | true => exact hc.trans_le (Nat.pow_le_pow_right (by decide) (h.digitWidth_le i))
  | false => exact hc

include h hot hrow hchoice

/-- The transfer of the digits below `rows` at once, each with all `beta_pow`
messages. -/
theorem kkotBeta_rows {rows : ℕ} (hrows : rows ≤ eq.numDigits)
    (hsize : ∀ i < rows, eq.rowSize wan i = 2 ^ eq.beta) :
    ot.kkotBeta (rowMajor rows eq.numCmps message) (rowMajor rows eq.numCmps choice) =
      rowMajor rows eq.numCmps fun i j => (message i j).getD (choice i j).toNat 0 := by
  rw [rowMajor_eq_map, rowMajor_eq_map _ _ choice,
    rowMajor_eq_map _ _ fun i j => (message i j).getD (choice i j).toNat 0]
  refine hot.kkotBeta.map _ ?_ ?_
  · intro p hp
    obtain ⟨i, hi, j, hj, rfl⟩ := mem_rowMajor.mp hp
    rw [← hsize i hi]
    exact hrow i (by omega) j hj
  · intro p hp
    obtain ⟨i, hi, j, hj, rfl⟩ := mem_rowMajor.mp hp
    rw [← hsize i hi]
    exact h.lt_rowSize (hchoice i j) wan

/-- Both builds do the same transfers: where the default build has a transfer
for the top digit, it selects among as many messages as are set. -/
theorem leafOts_rows (hr : wan = true ∨ eq.r ≤ 4) :
    eq.leafOts wan ot (rowMajor eq.numDigits eq.numCmps message)
        (rowMajor eq.numDigits eq.numCmps choice) =
      .ok (rowMajor eq.numDigits eq.numCmps fun i j =>
        (message i j).getD (choice i j).toNat 0) := by
  cases wan with
  | true =>
      have hall := kkotBeta_rows hot h hrow hchoice le_rfl fun i _ => rfl
      rw [leafOts, if_pos rfl, hall]
  | false =>
      have hr4 : eq.r ≤ 4 := hr.resolve_left Bool.false_ne_true
      rcases Nat.eq_zero_or_pos eq.r with hr0 | hrpos
      · have hsize : ∀ i < eq.numDigits, eq.rowSize false i = 2 ^ eq.beta := by
          intro i _
          rw [rowSize, if_neg Bool.false_ne_true, digitWidth_of_r_eq_zero hr0]
        have hall := kkotBeta_rows hot h hrow hchoice le_rfl hsize
        simp [leafOts, hr0, hall]
      · obtain ⟨top, htop, hleaf⟩ := leafOts_top hot hrpos hr4
          (rowMajor eq.numDigits eq.numCmps message) (rowMajor eq.numDigits eq.numCmps choice)
        obtain ⟨k, hk⟩ : ∃ k, eq.numDigits = k + 1 :=
          ⟨eq.numDigits - 1, by have := h.numDigits_pos; omega⟩
        have hlow : ∀ i < k, eq.rowSize false i = 2 ^ eq.beta := by
          intro i hi
          rw [rowSize, if_neg Bool.false_ne_true, digitWidth_of_lt (by omega)]
        have hwidth := digitWidth_top (Nat.pos_iff_ne_zero.mp hrpos) hk
        have htopSize : eq.rowSize false k = 2 ^ eq.r := by
          rw [rowSize, if_neg Bool.false_ne_true, hwidth]
        -- both arrays split at the same place, the first cell of the top digit
        have hcells : eq.numCmps * (eq.numDigits - 1) = k * eq.numCmps := by
          rw [hk, Nat.add_sub_cancel, Nat.mul_comm]
        have hhead := kkotBeta_rows hot h hrow hchoice (by omega) hlow
        have htail : top ((List.range eq.numCmps).map (message k))
            ((List.range eq.numCmps).map (choice k)) =
              (List.range eq.numCmps).map fun j => (message k j).getD (choice k j).toNat 0 :=
          htop.map _ (fun j hj => htopSize ▸ hrow k (by omega) j (List.mem_range.mp hj))
            fun j _ => hwidth ▸ hchoice k j
        rw [hleaf, hcells, hk, take_rowMajor, take_rowMajor, drop_rowMajor, drop_rowMajor, hhead,
          htail, rowMajor_succ]

end Transfers

/-- The leaf transfers: BOB gets the leaves. -/
theorem leafOts_eq (h : eq.Valid) {ot : OtPack} (hot : ot.Lawful (2 ^ eq.beta))
    (dataAlice dataBob : List Word) (masks : List Bool) {wan : Bool}
    (hr : wan = true ∨ eq.r ≤ 4) :
    eq.leafOts wan ot (eq.leafOtMessages wan (eq.digits dataAlice) (masks.map boolByte))
        (eq.digits dataBob) =
      .ok (rowMajor eq.numDigits eq.numCmps (eq.leafValue dataAlice dataBob masks)) := by
  have hchoice : ∀ i j, (eq.digit dataBob i j).toNat < 2 ^ eq.digitWidth i :=
    h.toNat_digit_lt dataBob
  rw [leafOtMessages_eq, digits, leafOts_rows hot.selects h ?_ hchoice hr]
  · congr 1
    refine rowMajor_congr fun i _ j _ => ?_
    exact getD_setLeafOtMessages (h.lt_rowSize (hchoice i j) wan)
  · intro i _ j _
    exact ⟨by simp [setLeafOtMessages], setLeafOtMessages_bits _ _ _⟩

end Equality

/-! ## The comparison -/

/-- Two arrays of `n` bits share the truth values of a property. -/
structure Shares (n : ℕ) (P : ℕ → Prop) (xs ys : List Byte) : Prop where
  length_left : xs.length = n
  length_right : ys.length = n
  bits_left : AllBits xs
  bits_right : AllBits ys
  shared : ∀ c < n, (sharedBit xs ys c = true ↔ P c)

theorem Shares.symm {n : ℕ} {P : ℕ → Prop} {xs ys : List Byte} (h : Shares n P xs ys) :
    Shares n P ys xs where
  length_left := h.length_right
  length_right := h.length_left
  bits_left := h.bits_right
  bits_right := h.bits_left
  shared c hc := by rw [sharedBit_comm, h.shared c hc]

theorem Shares.congr {n : ℕ} {P Q : ℕ → Prop} {xs ys : List Byte} (h : Shares n P xs ys)
    (hiff : ∀ c < n, (P c ↔ Q c)) : Shares n Q xs ys where
  length_left := h.length_left
  length_right := h.length_right
  bits_left := h.bits_left
  bits_right := h.bits_right
  shared c hc := (h.shared c hc).trans (hiff c hc)

/-- The randomness fits the objects: a mask for every leaf, and products in
every triple. -/
structure EqualityRandomness.Valid (random : EqualityRandomness) (eq : Equality) : Prop where
  length_masks : random.masks.length = eq.numDigits * eq.numCmps
  triples : ValidTriples random.triplesAlice random.triplesBob (eq.numTriples * eq.numCmps / 8)

/-- Masking by a bit is undone by the mask. -/
theorem bitAt_xor_mask (agree mask : Bool) :
    ((boolByte mask != 0) ^^ (boolByte agree ^^^ boolByte mask != 0)) = agree := by
  cases agree <;> cases mask <;> decide

/-- The two leaf arrays share the agreement of the digits. -/
theorem Equality.leaf_shares {eq : Equality} (dataAlice dataBob : List Word) (masks : List Bool)
    {i j : ℕ} (hi : i < eq.numDigits) (hj : j < eq.numCmps) :
    sharedBit (masks.map boolByte)
        (rowMajor eq.numDigits eq.numCmps (eq.leafValue dataAlice dataBob masks))
        (i * eq.numCmps + j) =
      decide (eq.digit dataAlice i j = eq.digit dataBob i j) := by
  have hleaf : (rowMajor eq.numDigits eq.numCmps (eq.leafValue dataAlice dataBob masks)).getD
      (i * eq.numCmps + j) 0 = eq.leafValue dataAlice dataBob masks i j :=
    getD_rowMajor _ _ hi hj
  rw [sharedBit, bitAt, bitAt, getD_map_boolByte, hleaf, leafValue, bitAt_xor_mask]

/-- Where the sizes are held, a comparison ends once the leaf transfers do: the
outputs share, for every word, whether all its leaves agree. -/
theorem Equality.run_of_leaves {eq : Equality} (hnd : 0 < eq.numDigits) {sizes : SizeType}
    (hfits : sizes.Holds (eq.l * eq.numCmps)) {wan : Bool} {packing : BitPacking}
    (hpacking : packing.Lawful) {ot : OtPack} {random : EqualityRandomness}
    (hrandom : random.Valid eq) (h8 : 8 ∣ eq.numCmps) {dataAlice dataBob : List Word}
    {received : List Byte}
    (hleaf : eq.leafOts wan ot
      (eq.leafOtMessages wan (eq.digits dataAlice) (random.masks.map boolByte))
      (eq.digits dataBob) = .ok received)
    (hlen : received.length = eq.numDigits * eq.numCmps) (hbits : AllBits received) :
    ∃ zAlice zBob, eq.run sizes wan packing ot random dataAlice dataBob = .ok (zAlice, zBob) ∧
      Shares eq.numCmps (fun c => ∀ i < eq.numDigits,
        sharedBit (random.masks.map boolByte) received (i * eq.numCmps + c) = true)
        zAlice zBob := by
  have hmaskBits : AllBits (random.masks.map boolByte) := allBits_map_boolByte _
  obtain ⟨hla, hlb, hba, hbb, hshared⟩ := traverseAndComputeANDs_shares hpacking hnd h8
    hrandom.triples ((List.length_map ..).trans hrandom.length_masks) hlen hmaskBits hbits
  refine ⟨_, _, ?_, ⟨hla, hlb, hba, hbb, hshared⟩⟩
  rw [Equality.run, if_pos hfits, Equality.computeLeafOTs, hleaf]
  rfl

/-- A comparison ends, and shares for every word whether it agrees with the
other party's modulo `2 ^ l`. -/
theorem Equality.run_shares {eq : Equality} (h : eq.Valid) {sizes : SizeType}
    (hfits : sizes.Holds (eq.l * eq.numCmps)) {wan : Bool} (hr : wan = true ∨ eq.r ≤ 4)
    {packing : BitPacking} (hpacking : packing.Lawful) {ot : OtPack}
    (hot : ot.Lawful (2 ^ eq.beta)) {random : EqualityRandomness} (hrandom : random.Valid eq)
    (h8 : 8 ∣ eq.numCmps) (dataAlice dataBob : List Word) :
    ∃ zAlice zBob, eq.run sizes wan packing ot random dataAlice dataBob = .ok (zAlice, zBob) ∧
      Shares eq.numCmps (fun c => (dataAlice.getD c 0).toNat % 2 ^ eq.l =
        (dataBob.getD c 0).toNat % 2 ^ eq.l) zAlice zBob := by
  have hbits : AllBits (rowMajor eq.numDigits eq.numCmps
      (eq.leafValue dataAlice dataBob random.masks)) := by
    refine allBits_of_mem ?_
    intro b hb
    obtain ⟨i, _, j, _, rfl⟩ := mem_rowMajor.mp hb
    exact isBit_xor (isBit_boolByte _) (isBit_boolByte _)
  obtain ⟨zAlice, zBob, hrun, hshares⟩ := Equality.run_of_leaves h.numDigits_pos hfits hpacking
    hrandom h8 (Equality.leafOts_eq h hot dataAlice dataBob random.masks hr) (length_rowMajor ..)
    hbits
  refine ⟨zAlice, zBob, hrun, hshares.congr ?_⟩
  intro c hc
  rw [← h.digits_agree_iff dataAlice dataBob c c]
  refine forall₂_congr fun i hi => ?_
  rw [Equality.leaf_shares dataAlice dataBob random.masks hi hc, decide_eq_true_eq]

/-- Two arrays that share a property hold bits, and their exclusive or at `c` is 1
exactly when the property holds of `c`. -/
theorem Shares.xor_eq_one_iff {n : ℕ} {P : ℕ → Prop} {xs ys : List Byte} (h : Shares n P xs ys)
    {c : ℕ} (hc : c < n) : xs.getD c 0 ^^^ ys.getD c 0 = 1 ↔ P c := by
  rw [eq_one_iff_shared (h.bits_left c) (h.bits_right c)]
  exact h.shared c hc

/-- Where a size is not held, nothing is compared. -/
theorem Equality.run_overflow {eq : Equality} {sizes : SizeType}
    (h : ¬ sizes.Holds (eq.l * eq.numCmps)) (wan : Bool) (packing : BitPacking) (ot : OtPack)
    (random : EqualityRandomness) (dataAlice dataBob : List Word) :
    eq.run sizes wan packing ot random dataAlice dataBob = overflow :=
  if_neg h

/-- For every digit width both builds end, and the exclusive or of the outputs at
`j` is 1 exactly when the words at `j` agree modulo `2 ^ l`, in one build as in the
other, exactly if `l * num_cmps` has a place in an `int`. -/
theorem Equality.run_agrees_mod_iff {eq : Equality} (h : eq.Valid) (hr : eq.r ≤ 4)
    (h8 : 8 ∣ eq.numCmps) {packing : BitPacking} (hpacking : packing.Lawful) {ot otWan : OtPack}
    (hot : ot.Lawful (2 ^ eq.beta)) (hotWan : otWan.Lawful (2 ^ eq.beta))
    {random randomWan : EqualityRandomness} (hrandom : random.Valid eq)
    (hrandomWan : randomWan.Valid eq) (dataAlice dataBob : List Word) :
    (∃ zAlice zBob zAliceWan zBobWan,
      eq.run .int false packing ot random dataAlice dataBob = .ok (zAlice, zBob) ∧
      eq.run .int true packing otWan randomWan dataAlice dataBob = .ok (zAliceWan, zBobWan) ∧
      zAlice.length = eq.numCmps ∧ zBob.length = eq.numCmps ∧
      ∀ j < eq.numCmps,
        (zAlice.getD j 0 ^^^ zBob.getD j 0 = 1 ↔
          (dataAlice.getD j 0).toNat % 2 ^ eq.l = (dataBob.getD j 0).toNat % 2 ^ eq.l) ∧
        zAliceWan.getD j 0 ^^^ zBobWan.getD j 0 = zAlice.getD j 0 ^^^ zBob.getD j 0) ↔
      eq.l * eq.numCmps < 2 ^ 31 := by
  constructor
  · rintro ⟨zAlice, zBob, _, _, hrun, -⟩
    by_contra hlarge
    have hlost : ¬ SizeType.int.Holds (eq.l * eq.numCmps) := hlarge
    rw [Equality.run_overflow hlost] at hrun
    cases hrun
  · intro hsmall
    have hfits : SizeType.int.Holds (eq.l * eq.numCmps) := hsmall
    have hdefault : false = true ∨ eq.r ≤ 4 := .inr hr
    have hwan : true = true ∨ eq.r ≤ 4 := .inl rfl
    obtain ⟨zAlice, zBob, hrun, hshares⟩ := Equality.run_shares h hfits hdefault hpacking hot
      hrandom h8 dataAlice dataBob
    obtain ⟨zAliceWan, zBobWan, hrunWan, hsharesWan⟩ := Equality.run_shares h hfits hwan
      hpacking hotWan hrandomWan h8 dataAlice dataBob
    refine ⟨zAlice, zBob, zAliceWan, zBobWan, hrun, hrunWan, hshares.length_left,
      hshares.length_right, ?_⟩
    intro j hj
    refine ⟨hshares.xor_eq_one_iff hj, ?_⟩
    have hbit := isBit_xor (hshares.bits_left j) (hshares.bits_right j)
    have hbitWan := isBit_xor (hsharesWan.bits_left j) (hsharesWan.bits_right j)
    have hsame := (hsharesWan.xor_eq_one_iff hj).trans (hshares.xor_eq_one_iff hj).symm
    -- both are bits, and one is 1 exactly when the other is
    rcases hbit with hz | hz <;> rcases hbitWan with hw | hw <;> rw [hz, hw] at hsame ⊢
    · exact absurd (hsame.mp rfl) (by decide)
    · exact absurd (hsame.mpr rfl) (by decide)

/-! ## An instance -/

/-- Least significant bit first. -/
def lsbPacking : BitPacking where
  boolToUint8 cells :=
    (List.range 8).foldl (fun z k => if bitAt cells k then z ||| 1#8 <<< k else z) 0
  uint8ToBool z := (List.range 8).map fun k => boolByte (z.getLsbD k)

theorem lsbPacking_lawful : lsbPacking.Lawful where
  boolToUint8 cells k _ hk := by
    have hall : ∀ b : Fin 8 → Bool, ∀ k : Fin 8,
        ((List.finRange 8).foldl (fun z k => if b k then z ||| 1#8 <<< k.val else z) 0).getLsbD k =
          b k := by decide +kernel
    have h := hall (fun k => bitAt cells k) ⟨k, hk⟩
    exact h
  uint8ToBool _ := rfl

/-- A transfer that hands out the selected messages. -/
def selectOt (messages : List (List Byte)) (choices : List Byte) : List Byte :=
  List.zipWith (fun row c => row.getD c.toNat 0) messages choices

def selectPack : OtPack where
  kkotBeta := selectOt
  kkot4 := selectOt
  kkot8 := selectOt
  kkot16 := selectOt
  iknpStraight := selectOt

theorem selectPack_lawful (betaPow : ℕ) : selectPack.Lawful betaPow where
  kkotBeta _ _ _ _ _ := rfl
  kkot4 _ _ _ _ _ := rfl
  kkot8 _ _ _ _ _ := rfl
  kkot16 _ _ _ _ _ := rfl
  iknpStraight _ _ _ _ _ := rfl

/-- Triples of the products of two all-ones words. -/
def onesTriples (bytes : ℕ) : Triple × Triple :=
  ({ ai := List.replicate bytes 0x0f
     bi := List.replicate bytes 0x33
     ci := List.replicate bytes 0x55 },
   { ai := List.replicate bytes 0xf0
     bi := List.replicate bytes 0xcc
     ci := List.replicate bytes 0xaa })

theorem onesTriples_valid (bytes : ℕ) :
    ValidTriples (onesTriples bytes).1 (onesTriples bytes).2 bytes where
  length_alice := by simp [onesTriples]
  length_bob := by simp [onesTriples]
  valid p hp := by
    have hget : ∀ b : Byte, (List.replicate bytes b).getD p 0 = b := by
      intro b
      rw [List.getD_eq_getElem?_getD, List.getElem?_replicate, if_pos hp]
      rfl
    simp only [onesTriples, hget]
    rfl

/-- Masks and triples for a comparison. -/
def sampleEquality (eq : Equality) : EqualityRandomness where
  masks := List.replicate (eq.numDigits * eq.numCmps) true
  triplesAlice := (onesTriples (eq.numTriples * eq.numCmps / 8)).1
  triplesBob := (onesTriples (eq.numTriples * eq.numCmps / 8)).2

theorem sampleEquality_valid (eq : Equality) : (sampleEquality eq).Valid eq where
  length_masks := List.length_replicate
  triples := onesTriples_valid _

/-- Ten bits in digits of three, the last of one bit. -/
def tenBits : Equality where
  l := 10
  beta := 3
  numCmps := 8

theorem Equality.run_agrees_mod_of_tenBits :
    ∃ zAlice zBob, tenBits.run .int false lsbPacking selectPack (sampleEquality tenBits)
        [1, 2, 3, 4, 5, 6, 7, 8] [1025, 2, 4, 3, 5, 6, 8, 7] = .ok (zAlice, zBob) ∧
      ∀ j < 8, (zAlice.getD j 0 ^^^ zBob.getD j 0 = 1 ↔
        (([1, 2, 3, 4, 5, 6, 7, 8] : List Word).getD j 0).toNat % 2 ^ 10 =
          (([1025, 2, 4, 3, 5, 6, 8, 7] : List Word).getD j 0).toNat % 2 ^ 10) := by
  have hvalid : tenBits.Valid := ⟨by decide, by decide, by decide, by decide⟩
  obtain ⟨zAlice, zBob, _, _, hrun, _, _, _, hagree⟩ :=
    (Equality.run_agrees_mod_iff hvalid (by decide) (by decide) lsbPacking_lawful
      (selectPack_lawful _) (selectPack_lawful _) (sampleEquality_valid tenBits)
      (sampleEquality_valid tenBits) [1, 2, 3, 4, 5, 6, 7, 8]
      [1025, 2, 4, 3, 5, 6, 8, 7]).mpr (by decide)
  exact ⟨zAlice, zBob, hrun, fun j hj => (hagree j hj).1⟩

/-- Words of 64 bits in digits of one, `2 ^ 25` of them. -/
def wideWords : Equality where
  l := 64
  beta := 1
  numCmps := 2 ^ 25

/-- The length of `digits` is `2 ^ 31`, and no array of it exists. -/
theorem Equality.run_overflows_of_wideWords :
    wideWords.Valid ∧ wideWords.r ≤ 4 ∧ 8 ∣ wideWords.numCmps ∧
      (sampleEquality wideWords).Valid wideWords ∧
      ¬ ∃ zAlice zBob, wideWords.run .int false lsbPacking selectPack (sampleEquality wideWords)
        (List.replicate wideWords.numCmps 0) (List.replicate wideWords.numCmps 0) =
          .ok (zAlice, zBob) := by
  refine ⟨⟨by decide, by decide, by decide, by decide⟩, by decide, by decide,
    sampleEquality_valid _, ?_⟩
  rintro ⟨zAlice, zBob, hrun⟩
  rw [Equality.run_overflow (by decide)] at hrun
  cases hrun

end Sectric
