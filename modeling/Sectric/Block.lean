import Mathlib.Data.BitVec
import Mathlib.Tactic

/-!
# 128-bit blocks

A block is an `__m128i`.  The program reads it as two 64-bit words
(`((uint64_t *)&b)[0]` is `low`, `[1]` is `high`), and the SSE2 code below
reads it as four 32-bit words.

`addWithCarry` and `subWithBorrow` are the two operations on masks and sums.
They are built from lane instructions: a 64-bit lane sum, and a comparison that
recovers the carry out of the low lane.  `addWithCarry_eq` and
`subWithBorrow_eq` say that they are addition and subtraction modulo `2 ^ 128`.
-/

namespace Sectric

/-- `uint8_t`. -/
abbrev Byte := BitVec 8

/-- `uint64_t`. -/
abbrev Word := BitVec 64

/-- The tests for membership of words share this instance. -/
instance : LawfulBEq Word := inferInstance

/-- `__m128i`. -/
abbrev Block := BitVec 128

/-! ## Words of a block -/

/-- `Block::MakeBlock`, which is `_mm_set_epi64x`. -/
def makeBlock (high low : Word) : Block := high ++ low

/-- `((uint64_t *)&b)[1]`. -/
def Block.high (b : Block) : Word := b.extractLsb' 64 64

/-- `((uint64_t *)&b)[0]`. -/
def Block.low (b : Block) : Word := b.extractLsb' 0 64

@[simp] theorem high_makeBlock (high low : Word) : Block.high (makeBlock high low) = high := by
  rw [Block.high, makeBlock, BitVec.extractLsb'_append_eq_of_le (by omega)]
  simp

theorem high_xor (a b : Block) : Block.high (a ^^^ b) = Block.high a ^^^ Block.high b :=
  BitVec.extractLsb'_xor ..

@[simp] theorem low_makeBlock (high low : Word) : Block.low (makeBlock high low) = low := by
  rw [Block.low, makeBlock, BitVec.extractLsb'_append_eq_of_add_le (by omega)]
  simp

@[simp] theorem makeBlock_high_low (b : Block) : makeBlock b.high b.low = b := by
  apply BitVec.eq_of_getLsbD_eq
  intro i hi
  rw [makeBlock, BitVec.getLsbD_append, Block.high, Block.low]
  by_cases h : i < 64
  · simp [h]
  · have hlt : i - 64 < 64 := by omega
    simp [h, hlt, show 64 + (i - 64) = i by omega]

theorem makeBlock_inj {h₁ l₁ h₂ l₂ : Word} :
    makeBlock h₁ l₁ = makeBlock h₂ l₂ ↔ h₁ = h₂ ∧ l₁ = l₂ := by
  constructor
  · intro h
    exact ⟨by simpa using congrArg Block.high h, by simpa using congrArg Block.low h⟩
  · rintro ⟨rfl, rfl⟩
    rfl

/-- Two blocks agree when both words do. -/
theorem Block.ext_iff_words {x y : Block} : x = y ↔ x.high = y.high ∧ x.low = y.low := by
  rw [← makeBlock_high_low x, ← makeBlock_high_low y, makeBlock_inj]
  simp

theorem toNat_makeBlock (high low : Word) :
    (makeBlock high low).toNat = high.toNat * 2 ^ 64 + low.toNat := by
  rw [makeBlock, BitVec.toNat_append, Nat.shiftLeft_eq, Nat.mul_comm,
    ← Nat.two_pow_add_eq_or_of_lt low.isLt]

/-- The value of a block in terms of its words. -/
theorem Block.toNat_eq (b : Block) : b.toNat = b.high.toNat * 2 ^ 64 + b.low.toNat := by
  conv_lhs => rw [← makeBlock_high_low b]
  rw [toNat_makeBlock]

theorem low_ofNat (n : ℕ) : (Block.low (BitVec.ofNat 128 n)).toNat = n % 2 ^ 64 := by
  rw [Block.low, BitVec.extractLsb'_toNat, BitVec.toNat_ofNat]
  omega

/-- The 64-bit key of a block in the hash tables, `low ^ high`. -/
def Block.fold (b : Block) : Word := b.low ^^^ b.high

/-! ## SSE2 lane instructions -/

/-- The four dwords of a block, least significant first. -/
def Block.dword (b : Block) (i : ℕ) : BitVec 32 := b.extractLsb' (32 * i) 32

/-- A block from its four dwords, most significant first as in `_mm_set_epi32`. -/
def setEpi32 (d₃ d₂ d₁ d₀ : BitVec 32) : Block :=
  makeBlock (d₃ ++ d₂ : BitVec 64) (d₁ ++ d₀ : BitVec 64)

/-- `_mm_set1_epi32`. -/
def set1Epi32 (d : BitVec 32) : Block := setEpi32 d d d d

/-- `_mm_add_epi64`: lane sums, no carry between lanes. -/
def addEpi64 (x y : Block) : Block := makeBlock (x.high + y.high) (x.low + y.low)

/-- `_mm_sub_epi64`. -/
def subEpi64 (x y : Block) : Block := makeBlock (x.high - y.high) (x.low - y.low)

/-- `_mm_unpacklo_epi64`: the two low lanes, the first operand's below. -/
def unpackloEpi64 (x y : Block) : Block := makeBlock y.low x.low

/-- All ones or all zeros, as a lane comparison yields. -/
def maskOf {w : ℕ} (b : Bool) : BitVec w := if b then BitVec.allOnes w else 0#w

/-- A lane comparison on dwords. -/
def cmpEpi32 (r : BitVec 32 → BitVec 32 → Bool) (x y : Block) : Block :=
  setEpi32 (maskOf (r (x.dword 3) (y.dword 3))) (maskOf (r (x.dword 2) (y.dword 2)))
    (maskOf (r (x.dword 1) (y.dword 1))) (maskOf (r (x.dword 0) (y.dword 0)))

/-- `_mm_cmpeq_epi32`. -/
def cmpeqEpi32 (x y : Block) : Block := cmpEpi32 (fun a b => a == b) x y

/-- `_mm_cmpgt_epi32`, a signed comparison. -/
def cmpgtEpi32 (x y : Block) : Block := cmpEpi32 (fun a b => b.slt a) x y

/-- `_mm_shuffle_epi32`: dword `i` of the result is the dword of `x` that bits
`2 * i` and `2 * i + 1` of the immediate select. -/
def shuffleEpi32 (x : Block) (imm : ℕ) : Block :=
  setEpi32 (x.dword (imm / 64 % 4)) (x.dword (imm / 16 % 4)) (x.dword (imm / 4 % 4))
    (x.dword (imm % 4))

/-! ## The program's arithmetic -/

/-- `unsigned_lessthan`, the SSE2 branch.  The operands are named crosswise
there, so `bigger` compares `b` above `a`. -/
def unsignedLessthan (a b : Block) : Block :=
  let sign32 := set1Epi32 0x80000000#32
  let aflip := b ^^^ sign32
  let bflip := a ^^^ sign32
  let equal := cmpeqEpi32 b a
  let bigger := cmpgtEpi32 aflip bflip
  let biggerl := shuffleEpi32 bigger 0xA0
  let eqbig := equal &&& biggerl
  let hibig := bigger ||| eqbig
  shuffleEpi32 hibig 0xF5

/-- `add_with_carry`. -/
def addWithCarry (x y : Block) : Block :=
  let z := addEpi64 x y
  let c := unpackloEpi64 0#128 (unsignedLessthan z x)
  subEpi64 z c

/-- `invert_block`. -/
def invertBlock (a : Block) : Block := a ^^^ cmpeqEpi32 0#128 0#128

/-- `sub_with_borrow`. -/
def subWithBorrow (x y : Block) : Block :=
  addWithCarry x (addWithCarry (invertBlock y) (makeBlock 0 1))

/-! ## The lane comparison is the unsigned one -/

@[simp] theorem maskOf_or {w : ℕ} (a b : Bool) :
    (maskOf a ||| maskOf b : BitVec w) = maskOf (a || b) := by
  cases a <;> cases b <;> simp [maskOf]

@[simp] theorem maskOf_and {w : ℕ} (a b : Bool) :
    (maskOf a &&& maskOf b : BitVec w) = maskOf (a && b) := by
  cases a <;> cases b <;> simp [maskOf]

@[simp] theorem maskOf_append (b : Bool) :
    (maskOf b : BitVec 32) ++ (maskOf b : BitVec 32) = (maskOf b : BitVec 64) := by
  cases b <;> decide

@[simp] theorem dword_or (x y : Block) (i : ℕ) :
    Block.dword (x ||| y) i = x.dword i ||| y.dword i := by
  simp [Block.dword, BitVec.extractLsb'_or]

@[simp] theorem dword_and (x y : Block) (i : ℕ) :
    Block.dword (x &&& y) i = x.dword i &&& y.dword i := by
  simp [Block.dword, BitVec.extractLsb'_and]

@[simp] theorem dword_xor (x y : Block) (i : ℕ) :
    Block.dword (x ^^^ y) i = x.dword i ^^^ y.dword i := by
  simp [Block.dword, BitVec.extractLsb'_xor]

@[simp] theorem dword_setEpi32 (d₃ d₂ d₁ d₀ : BitVec 32) :
    Block.dword (setEpi32 d₃ d₂ d₁ d₀) 0 = d₀ ∧ Block.dword (setEpi32 d₃ d₂ d₁ d₀) 1 = d₁ ∧
      Block.dword (setEpi32 d₃ d₂ d₁ d₀) 2 = d₂ ∧ Block.dword (setEpi32 d₃ d₂ d₁ d₀) 3 = d₃ := by
  refine ⟨?_, ?_, ?_, ?_⟩ <;>
  · apply BitVec.eq_of_getLsbD_eq
    intro i hi
    simp only [Block.dword, setEpi32, makeBlock, BitVec.getLsbD_extractLsb', hi, decide_true,
      Bool.true_and, BitVec.getLsbD_append]
    grind

/-- Flipping the sign bit turns the signed order of dwords into the unsigned one. -/
theorem slt_xor_sign (x y : BitVec 32) :
    (x ^^^ 0x80000000#32).slt (y ^^^ 0x80000000#32) = x.ult y := by
  have flip : ∀ n < 2 ^ 32, n ^^^ 2 ^ 31 = if n < 2 ^ 31 then n + 2 ^ 31 else n - 2 ^ 31 := by
    intro n hn
    have hdiv : (n ^^^ 2 ^ 31) / 2 ^ 31 = n / 2 ^ 31 ^^^ 1 := by
      rw [Nat.xor_div_two_pow]
      rfl
    have hmod : (n ^^^ 2 ^ 31) % 2 ^ 31 = n % 2 ^ 31 := by
      rw [Nat.xor_mod_two_pow]
      simp
    split
    · have h0 : n / 2 ^ 31 = 0 := by omega
      rw [h0] at hdiv
      have h1 : (0 ^^^ 1 : ℕ) = 1 := rfl
      omega
    · have h0 : n / 2 ^ 31 = 1 := by omega
      rw [h0] at hdiv
      have h1 : (1 ^^^ 1 : ℕ) = 0 := rfl
      omega
  have hx := flip x.toNat x.isLt
  have hy := flip y.toNat y.isLt
  simp only [BitVec.slt, BitVec.ult, BitVec.toInt_eq_toNat_cond, BitVec.toNat_xor,
    BitVec.toNat_ofNat, decide_eq_decide]
  have := x.isLt
  have := y.isLt
  norm_num at hx hy ⊢
  split at hx <;> split at hy <;> rw [hx, hy] <;> split <;> split <;> omega

/-- A 64-bit word compares by its high dword first. -/
theorem ult_eq_dwords (x y : Word) :
    x.ult y = ((x.extractLsb' 32 32).ult (y.extractLsb' 32 32) ||
      (x.extractLsb' 32 32 == y.extractLsb' 32 32 &&
        (x.extractLsb' 0 32).ult (y.extractLsb' 0 32))) := by
  have hx := x.isLt
  have hy := y.isLt
  rw [Bool.eq_iff_iff]
  simp only [BitVec.ult, decide_eq_true_eq, Bool.or_eq_true, Bool.and_eq_true, beq_iff_eq,
    ← BitVec.toNat_inj, BitVec.extractLsb'_toNat, Nat.shiftRight_eq_div_pow]
  omega

theorem dword_eq_word (b : Block) :
    b.dword 0 = b.low.extractLsb' 0 32 ∧ b.dword 1 = b.low.extractLsb' 32 32 ∧
      b.dword 2 = b.high.extractLsb' 0 32 ∧ b.dword 3 = b.high.extractLsb' 32 32 := by
  refine ⟨?_, ?_, ?_, ?_⟩ <;>
  · apply BitVec.eq_of_getLsbD_eq
    intro i hi
    simp only [Block.dword, Block.low, Block.high, BitVec.getLsbD_extractLsb', hi, decide_true,
      Bool.true_and]
    grind

/-- Each lane of `unsignedLessthan` is all ones exactly when the lane of the
first operand is below that of the second. -/
theorem unsignedLessthan_eq (a b : Block) :
    unsignedLessthan a b = makeBlock (maskOf (a.high.ult b.high)) (maskOf (a.low.ult b.low)) := by
  obtain ⟨ha0, ha1, ha2, ha3⟩ := dword_eq_word a
  obtain ⟨hb0, hb1, hb2, hb3⟩ := dword_eq_word b
  simp only [unsignedLessthan, shuffleEpi32, cmpgtEpi32, cmpeqEpi32, cmpEpi32, set1Epi32,
    Nat.reduceDiv, Nat.reduceMod, dword_or, dword_and, dword_xor, dword_setEpi32, slt_xor_sign,
    maskOf_and, maskOf_or]
  have hcomm : ∀ u v : BitVec 32, (u == v) = (v == u) := fun u v => BEq.comm
  rw [setEpi32, maskOf_append, maskOf_append, ult_eq_dwords a.high, ult_eq_dwords a.low,
    ha0, ha1, ha2, ha3, hb0, hb1, hb2, hb3, hcomm (b.high.extractLsb' 32 32),
    hcomm (b.low.extractLsb' 32 32)]

/-! ## Sums modulo `2 ^ 128` -/

/-- `add_with_carry` is addition of 128-bit numbers. -/
theorem addWithCarry_eq (x y : Block) : addWithCarry x y = x + y := by
  apply BitVec.eq_of_toNat_eq
  have hsum : (x + y).toNat = (x.toNat + y.toNat) % 2 ^ 128 := BitVec.toNat_add x y
  rw [hsum, Block.toNat_eq x, Block.toNat_eq y, addWithCarry, unsignedLessthan_eq,
    unpackloEpi64, subEpi64, addEpi64, toNat_makeBlock]
  simp only [high_makeBlock, low_makeBlock, BitVec.toNat_add, BitVec.toNat_sub]
  have hxh := x.high.isLt
  have hxl := x.low.isLt
  have hyh := y.high.isLt
  have hyl := y.low.isLt
  have hzero : (Block.low 0#128).toNat = 0 := by decide
  rw [hzero]
  by_cases hc : (x.low + y.low).ult x.low = true
  · rw [hc]
    simp only [BitVec.ult, decide_eq_true_eq, BitVec.toNat_add] at hc
    have hones : (maskOf true : BitVec 64).toNat = 2 ^ 64 - 1 := by decide
    rw [hones]
    omega
  · rw [Bool.not_eq_true] at hc
    rw [hc]
    simp only [BitVec.ult, decide_eq_false_iff_not, BitVec.toNat_add] at hc
    have hzeros : (maskOf false : BitVec 64).toNat = 0 := by decide
    rw [hzeros]
    omega

theorem invertBlock_eq (a : Block) : invertBlock a = ~~~a := by
  have hmask : cmpeqEpi32 0#128 0#128 = BitVec.allOnes 128 := by decide
  rw [invertBlock, hmask, BitVec.xor_allOnes]

/-- `sub_with_borrow` is subtraction of 128-bit numbers. -/
theorem subWithBorrow_eq (x y : Block) : subWithBorrow x y = x - y := by
  have hone : makeBlock 0 1 = 1#128 := by decide
  rw [subWithBorrow, addWithCarry_eq, addWithCarry_eq, invertBlock_eq, hone,
    ← BitVec.neg_eq_not_add, BitVec.sub_eq_add_neg]

theorem maskOf_ult (x y : Word) :
    (maskOf (x.ult y) : Word) = if x.toNat < y.toNat then BitVec.allOnes 64 else 0 := by
  simp only [maskOf, BitVec.ult, decide_eq_true_eq]
  rfl

theorem toNat_addWithCarry (x y : Block) :
    (addWithCarry x y).toNat = (x.toNat + y.toNat) % 2 ^ 128 := by
  rw [addWithCarry_eq, BitVec.toNat_add]

theorem toNat_subWithBorrow (x y : Block) :
    ((subWithBorrow x y).toNat : ℤ) = ((x.toNat : ℤ) - y.toNat) % 2 ^ 128 := by
  have hx := x.isLt
  have hy := y.isLt
  rw [subWithBorrow_eq, BitVec.toNat_sub]
  omega

/-! ## Folds of sums -/

theorem foldl_addWithCarry (xs : List Block) (z : Block) :
    xs.foldl addWithCarry z = z + xs.sum := by
  induction xs generalizing z with
  | nil => exact (add_zero z).symm
  | cons x xs ih => rw [List.foldl_cons, ih, addWithCarry_eq, List.sum_cons, add_assoc]

theorem foldl_subWithBorrow (xs : List Block) (z : Block) :
    xs.foldl subWithBorrow z = z - xs.sum := by
  induction xs generalizing z with
  | nil => exact (sub_zero z).symm
  | cons x xs ih => rw [List.foldl_cons, ih, subWithBorrow_eq, List.sum_cons, sub_sub]

/-- The lane code computes modulo `2 ^ 128`: the comparison marks the lanes where
`x` is below `y`, sums and differences are those of the 128-bit numbers, a fold of
sums does not depend on the order, and differences undo it. -/
theorem lanes_modular :
    (∀ x y : Block,
      (unsignedLessthan x y).high =
          (if x.high.toNat < y.high.toNat then BitVec.allOnes 64 else 0) ∧
        (unsignedLessthan x y).low =
          (if x.low.toNat < y.low.toNat then BitVec.allOnes 64 else 0) ∧
        (addWithCarry x y).toNat = (x.toNat + y.toNat) % 2 ^ 128 ∧
        ((subWithBorrow x y).toNat : ℤ) = ((x.toNat : ℤ) - y.toNat) % 2 ^ 128) ∧
    ∀ xs ys : List Block, xs.Perm ys →
      xs.foldl addWithCarry 0 = ys.foldl addWithCarry 0 ∧
        ∀ z, ys.foldl subWithBorrow (xs.foldl addWithCarry z) = z ∧
          subWithBorrow (xs.foldl addWithCarry z) (ys.foldl addWithCarry 0) = z := by
  constructor
  · intro x y
    refine ⟨?_, ?_, toNat_addWithCarry x y, toNat_subWithBorrow x y⟩
    · rw [unsignedLessthan_eq, high_makeBlock, maskOf_ult]
    · rw [unsignedLessthan_eq, low_makeBlock, maskOf_ult]
  · intro xs ys hperm
    have hsum : xs.sum = ys.sum := hperm.sum_eq
    refine ⟨?_, fun z => ⟨?_, ?_⟩⟩
    · rw [foldl_addWithCarry, foldl_addWithCarry, hsum]
    · rw [foldl_subWithBorrow, foldl_addWithCarry, hsum, add_sub_cancel_right]
    · rw [subWithBorrow_eq, foldl_addWithCarry, foldl_addWithCarry, hsum, zero_add,
        add_sub_cancel_right]

theorem lanes_modular_carry :
    ([BitVec.allOnes 128, 1, 2] : List Block).foldl addWithCarry 0 =
      [2, BitVec.allOnes 128, 1].foldl addWithCarry 0 :=
  (lanes_modular.2 [BitVec.allOnes 128, 1, 2] [2, BitVec.allOnes 128, 1] (by decide)).1

end Sectric
