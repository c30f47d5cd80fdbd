import Mathlib.Algebra.BigOperators.Group.Finset.Basic
import Sectric.Equality.BlockEquality
import Sectric.Psi.Model

/-!
# The sum by transfer

Row `i` of the two message lists holds the mask at the receiver's own bit and,
at the other bit, the mask plus the weight of the bin.  So a sender's bit that
differs from the receiver's adds the weight of the bin, and nothing if the bin
is not active.  The loop finds the active bins with a second variable that runs
through the increasing list of them.
-/

namespace Sectric

open Lib

/-! ## Folds of sums -/

theorem sumBlocks_eq (n : ℕ) (x : ℕ → Block) : sumBlocks n x = ∑ i ∈ Finset.range n, x i := by
  induction n with
  | zero => rfl
  | succ n ih =>
      rw [sumBlocks, List.range_succ, List.foldl_append, ← sumBlocks, ih, Finset.sum_range_succ,
        List.foldl_cons, List.foldl_nil, addWithCarry_eq]

/-! ## One row -/

theorem otPush_both {a : Byte} (ha : IsBit a) (ot : List Block × List Block) (x y : Block) :
    otPush (otPush ot a x) (1 - a) y =
      if a = 0 then (ot.1 ++ [x], ot.2 ++ [y]) else (ot.1 ++ [y], ot.2 ++ [x]) := by
  rcases ha with rfl | rfl <;> simp [otPush]

section Row

variable {ot : List Block × List Block} {k : ℕ} (h₁ : ot.1.length = k) (h₂ : ot.2.length = k)
  {a : Byte} (ha : IsBit a) (x y : Block)

include h₁ h₂ ha

theorem length_otPush_both :
    (otPush (otPush ot a x) (1 - a) y).1.length = k + 1 ∧
      (otPush (otPush ot a x) (1 - a) y).2.length = k + 1 := by
  rw [otPush_both ha]
  split <;> simp [h₁, h₂]

/-- Earlier rows keep their messages. -/
theorem otCell_otPush_both_of_lt (bit : Byte) {i : ℕ} (hi : i < k) :
    otCell (otPush (otPush ot a x) (1 - a) y) bit i = otCell ot bit i := by
  have hleft : ∀ (xs : List Block) (z : Block), xs.length = k →
      (xs ++ [z]).getD i 0 = xs.getD i 0 := by
    intro xs z hxs
    rw [List.getD_eq_getElem?_getD, List.getElem?_append_left (by omega),
      ← List.getD_eq_getElem?_getD]
  rw [otPush_both ha, otCell, otCell]
  split <;> split <;> simp only [hleft _ _ h₁, hleft _ _ h₂]

/-- The new row has the first message at the receiver's bit and the second one
at the other. -/
theorem otCell_otPush_both {bit : Byte} (hbit : IsBit bit) :
    otCell (otPush (otPush ot a x) (1 - a) y) bit k = if a = bit then x else y := by
  have hlast : ∀ (xs : List Block) (z : Block), xs.length = k → (xs ++ [z]).getD k 0 = z := by
    intro xs z hxs
    rw [List.getD_eq_getElem?_getD, ← hxs, List.getElem?_concat_length]
    rfl
  have hne : ((1 : Byte) = 0) = False := by decide
  have hne' : ((0 : Byte) = 1) = False := by decide
  rw [otPush_both ha, otCell]
  rcases ha with rfl | rfl <;> rcases hbit with rfl | rfl <;>
    simp only [hne, hne', if_true, if_false, hlast _ _ h₁, hlast _ _ h₂]

end Row

/-! ## The second variable -/

theorem getElem?_eq_some_iff_getD {xs : List ℕ} {p b : ℕ} :
    xs[p]? = some b ↔ p < xs.length ∧ xs.getD p 0 = b := by
  rw [List.getElem?_eq_some_iff, List.getD_eq_getElem?_getD]
  constructor
  · rintro ⟨hp, rfl⟩
    exact ⟨hp, by rw [List.getElem?_eq_getElem hp]; rfl⟩
  · rintro ⟨hp, h⟩
    rw [List.getElem?_eq_getElem hp] at h
    exact ⟨hp, h⟩

theorem getD_mem {xs : List ℕ} {p : ℕ} (hp : p < xs.length) : xs.getD p 0 ∈ xs := by
  rw [List.getD_eq_getElem _ _ hp]
  exact List.getElem_mem hp

theorem getD_lt_getD {xs : List ℕ} (hsorted : xs.Pairwise (· < ·)) {p q : ℕ} (hpq : p < q)
    (hq : q < xs.length) : xs.getD p 0 < xs.getD q 0 := by
  rw [List.getD_eq_getElem _ _ hq, List.getD_eq_getElem _ _ (hpq.trans hq)]
  exact List.pairwise_iff_getElem.mp hsorted p q (by omega) hq hpq

/-- Before round `k` the second variable stands at the first active bin that is
not below `k`. -/
structure PointerAt (idxs : List ℕ) (k j : ℕ) : Prop where
  le : j ≤ idxs.length
  below : ∀ p < j, idxs.getD p 0 < k
  above : ∀ p, j ≤ p → p < idxs.length → k ≤ idxs.getD p 0

section Pointer

variable {idxs : List ℕ} {k j : ℕ}

theorem PointerAt.zero (idxs : List ℕ) : PointerAt idxs 0 0 where
  le := Nat.zero_le _
  below p hp := absurd hp (Nat.not_lt_zero p)
  above _ _ _ := Nat.zero_le _

theorem PointerAt.hit (h : PointerAt idxs k j) (hsorted : idxs.Pairwise (· < ·))
    (hmatch : idxs[j]? = some k) : PointerAt idxs (k + 1) (j + 1) := by
  obtain ⟨hj, hget⟩ := getElem?_eq_some_iff_getD.mp hmatch
  refine ⟨hj, ?_, ?_⟩
  · intro p hp
    rcases Nat.lt_succ_iff_lt_or_eq.mp hp with hp | rfl
    · exact Nat.lt_succ_of_lt (h.below p hp)
    · omega
  · intro p hp hlen
    have := getD_lt_getD hsorted hp hlen
    omega

theorem PointerAt.miss (h : PointerAt idxs k j) (hsorted : idxs.Pairwise (· < ·))
    (hmiss : idxs[j]? ≠ some k) : PointerAt idxs (k + 1) j := by
  refine ⟨h.le, fun p hp => Nat.lt_succ_of_lt (h.below p hp), ?_⟩
  intro p hp hlen
  have hge := h.above p hp hlen
  -- equality would be a match, at the pointer or past a smaller entry
  have hne : idxs.getD p 0 ≠ k := by
    intro he
    rcases Nat.lt_or_ge j p with hlt | hge'
    · have hfirst := h.above j le_rfl (by omega)
      have := getD_lt_getD hsorted hlt hlen
      omega
    · have hp' : p = j := by omega
      subst hp'
      exact hmiss (getElem?_eq_some_iff_getD.mpr ⟨hlen, he⟩)
  omega

/-- With every active bin below `k` the second variable is at the end. -/
theorem PointerAt.eq_length (h : PointerAt idxs k j) (hlt : ∀ b ∈ idxs, b < k) :
    j = idxs.length := by
  rcases Nat.lt_or_ge j idxs.length with hj | hj
  · have hge := h.above _ le_rfl hj
    have := hlt _ (getD_mem hj)
    omega
  · exact le_antisymm h.le hj

end Pointer

/-! ## The loop -/

section Merge

variable (weight : Word → Word) (idxs : List ℕ) (ck : List Block) (ans : List Byte)
  (otR : ℕ → Block)

/-- What an active bin adds to the sum, for a sender with the given bits. -/
def binWeight (choice : ℕ → Byte) (p : ℕ) : Block :=
  if ans.getD (idxs.getD p 0) 0 = choice (idxs.getD p 0) then 0
  else makeBlock 0 (weight (ck.getD p 0).low)

/-- The invariant after `k` rounds: the second variable has passed the active
bins below `k`, every row holds the mask at the receiver's bit, and the rows add
up to the masks plus the weights of the bins passed. -/
structure MergeInv (k : ℕ) (s : ℕ × (List Block × List Block)) : Prop where
  le : s.1 ≤ idxs.length
  below : ∀ p < s.1, idxs.getD p 0 < k
  above : ∀ p, s.1 ≤ p → p < idxs.length → k ≤ idxs.getD p 0
  length_fst : s.2.1.length = k
  length_snd : s.2.2.length = k
  own : ∀ i < k, otCell s.2 (ans.getD i 0) i = otR i
  sums : ∀ choice : ℕ → Byte, (∀ i, IsBit (choice i)) →
    ∑ i ∈ Finset.range k, (otCell s.2 (choice i) i - otR i) =
      ∑ p ∈ Finset.range s.1, binWeight weight idxs ck ans choice p

variable {weight idxs ck ans otR}

theorem MergeInv.pointer {k : ℕ} {s : ℕ × (List Block × List Block)}
    (hs : MergeInv weight idxs ck ans otR k s) : PointerAt idxs k s.1 :=
  ⟨hs.le, hs.below, hs.above⟩

/-- A round with the second message `y`, when the variable `j` stands at `j'`
after it. -/
theorem MergeInv.step {k : ℕ} {s : ℕ × (List Block × List Block)}
    (hs : MergeInv weight idxs ck ans otR k s) (hbits : AllBits ans) {j' : ℕ} {y : Block}
    (hpointer : PointerAt idxs (k + 1) j')
    (hsum : ∀ choice : ℕ → Byte,
      ∑ p ∈ Finset.range j', binWeight weight idxs ck ans choice p =
        (∑ p ∈ Finset.range s.1, binWeight weight idxs ck ans choice p) +
          ((if ans.getD k 0 = choice k then otR k else y) - otR k)) :
    MergeInv weight idxs ck ans otR (k + 1)
      (j', otPush (otPush s.2 (ans.getD k 0) (otR k)) (1 - ans.getD k 0) y) := by
  have ha := hbits k
  obtain ⟨hlen₁, hlen₂⟩ := length_otPush_both hs.length_fst hs.length_snd ha (otR k) y
  have hold := fun bit i hi => otCell_otPush_both_of_lt hs.length_fst hs.length_snd ha (otR k) y
    bit (i := i) hi
  refine ⟨hpointer.le, hpointer.below, hpointer.above, hlen₁, hlen₂, ?_, ?_⟩
  · intro i hi
    rcases Nat.lt_succ_iff_lt_or_eq.mp hi with hi | rfl
    · rw [hold _ _ hi]
      exact hs.own i hi
    · rw [otCell_otPush_both hs.length_fst hs.length_snd ha _ _ ha, if_pos rfl]
  · intro choice hchoice
    rw [Finset.sum_range_succ, hsum choice, ← hs.sums choice hchoice,
      otCell_otPush_both hs.length_fst hs.length_snd ha _ _ (hchoice k)]
    congr 1
    exact Finset.sum_congr rfl fun i hi => by rw [hold _ _ (Finset.mem_range.mp hi)]

/-- One round of the loop keeps the invariant. -/
theorem otMessages_step (hsorted : idxs.Pairwise (· < ·)) (hbits : AllBits ans) {k : ℕ}
    {s : ℕ × (List Block × List Block)} (hs : MergeInv weight idxs ck ans otR k s) :
    MergeInv weight idxs ck ans otR (k + 1)
      (if idxs[s.1]? = some k then
        (s.1 + 1, otPush (otPush s.2 (ans.getD k 0) (otR k)) (1 - ans.getD k 0)
          (addWithCarry (otR k) (makeBlock 0 (weight (ck.getD s.1 0).low))))
      else
        (s.1, otPush (otPush s.2 (ans.getD k 0) (otR k)) (1 - ans.getD k 0)
          (addWithCarry (otR k) 0))) := by
  split
  · rename_i hmatch
    obtain ⟨-, hget⟩ := getElem?_eq_some_iff_getD.mp hmatch
    refine hs.step hbits (hs.pointer.hit hsorted hmatch) ?_
    intro choice
    rw [Finset.sum_range_succ, binWeight, hget]
    congr 1
    split
    · rw [sub_self]
    · rw [addWithCarry_eq, add_sub_cancel_left]
  · rename_i hmiss
    refine hs.step hbits (hs.pointer.miss hsorted hmiss) ?_
    intro choice
    rw [addWithCarry_eq, add_zero, ite_self, sub_self, add_zero]

variable (weight ck otR) in
/-- The loop keeps the invariant. -/
theorem otMessages_inv (hsorted : idxs.Pairwise (· < ·)) (hbits : AllBits ans) (n : ℕ) :
    MergeInv weight idxs ck ans otR n (otMessages n weight idxs ck ans otR) := by
  induction n with
  | zero =>
      obtain ⟨hle, hbelow, habove⟩ := PointerAt.zero idxs
      refine ⟨hle, hbelow, habove, rfl, rfl, ?_, ?_⟩
      · intro i hi
        exact absurd hi (Nat.not_lt_zero i)
      · intro choice _
        rfl
  | succ n ih =>
      have hstep := otMessages_step hsorted hbits ih
      rw [otMessages, List.range_succ, List.foldl_append, ← otMessages, List.foldl_cons,
        List.foldl_nil]
      exact hstep

/-- The difference of the two parties' sums: the weights of the active bins
where their bits differ. -/
theorem sum_difference (hsorted : idxs.Pairwise (· < ·)) (hbits : AllBits ans) {n : ℕ}
    (hlt : ∀ b ∈ idxs, b < n) {choice : ℕ → Byte} (hchoice : ∀ i, IsBit (choice i)) :
    let ot := (otMessages n weight idxs ck ans otR).2
    sumBlocks n (fun i => otCell ot (choice i) i) -
        sumBlocks n (fun i => otCell ot (ans.getD i 0) i) =
      ∑ p ∈ Finset.range idxs.length, binWeight weight idxs ck ans choice p := by
  intro ot
  have hinv := otMessages_inv weight ck otR hsorted hbits n
  have hend : (otMessages n weight idxs ck ans otR).1 = idxs.length :=
    hinv.pointer.eq_length hlt
  rw [← hend, ← hinv.sums choice hchoice, sumBlocks_eq, sumBlocks_eq, ← Finset.sum_sub_distrib]
  exact Finset.sum_congr rfl fun i hi => by rw [hinv.own i (Finset.mem_range.mp hi)]

end Merge

end Sectric
