import Sectric.Psi.Sum

/-!
# The sum of the weights

The receiver's message lists go through the transfer with padding rows behind
them, and the two parties' sums run over the bins only.  Their difference is the
sum of the weights of the active bins where the parties' bits differ, for any
weights and whatever the padding rows hold.
-/

namespace Sectric

open Lib

/-- The transfer delivers the chosen messages. -/
def DeliversChosen (ot : List Block → List Block → List Byte → List Block) : Prop :=
  ∀ m₀ m₁ choices, m₀.length = choices.length → m₁.length = choices.length → AllBits choices →
    ∀ i < choices.length, (ot m₀ m₁ choices).getD i 0 = otCell (m₀, m₁) (choices.getD i 0) i

/-! ## The exchange of the sums -/

/-- The transfer and the sums of both parties. -/
structure TransferSums where
  ot : List Block × List Block
  choices : List Byte
  received : List Block
  psiCaTmp : Block
  psiCaAns : Block
  blockAns : Block

/-- From the shares of the answers to the difference of the sums, for any
weights, any padding rows `pad` and any choices `padChoices` for them. -/
def transferSums (iknpOt : List Block → List Block → List Byte → List Block) (nbins : ℕ)
    (weight : Word → Word) (idxs : List ℕ) (ck : List Block) (ansReceiver ansSender : List Byte)
    (otR : ℕ → Block) (pad : List Block × List Block) (padChoices : List Byte) : TransferSums :=
  let messages := (otMessages nbins weight idxs ck ansReceiver otR).2
  let ot := (messages.1 ++ pad.1, messages.2 ++ pad.2)
  let choices := ansSender ++ padChoices
  let received := iknpOt ot.1 ot.2 choices
  let psiCaTmp := sumBlocks nbins fun i => received.getD i 0
  let psiCaAns := sumBlocks nbins fun i => otCell ot (ansReceiver.getD i 0) i
  { ot := ot
    choices := choices
    received := received
    psiCaTmp := psiCaTmp
    psiCaAns := psiCaAns
    blockAns := subWithBorrow psiCaTmp psiCaAns }

/-- A run exchanges its sums with its own weights, and with zeros for padding. -/
theorem finish_eq_transferSums {Seed : Type} (nbins : ℕ) (sub : Subprotocols Seed)
    (random : PsiRandomness Seed) (bins : PsiBins) (ansReceiver ansSender : List Byte) :
    let run := bins.finish nbins sub random ansReceiver ansSender
    let padRows := List.replicate (otPadding nbins) (0 : Block)
    transferSums sub.iknpOt nbins (mapLookup bins.vec (List.replicate bins.vec.length 1)) bins.idxs
        bins.ck ansReceiver ansSender random.otR (padRows, padRows)
        (List.replicate (otPadding nbins) 0) =
      { ot := run.ot
        choices := run.choices
        received := run.received
        psiCaTmp := run.psiCaTmp
        psiCaAns := sumBlocks nbins fun i => otCell run.ot (ansReceiver.getD i 0) i
        blockAns := run.blockAns } := rfl

theorem otCell_append {m₀ m₁ pad₀ pad₁ : List Block} {bit : Byte} {i : ℕ} (h₀ : i < m₀.length)
    (h₁ : i < m₁.length) : otCell (m₀ ++ pad₀, m₁ ++ pad₁) bit i = otCell (m₀, m₁) bit i := by
  rw [otCell, otCell]
  split
  · exact congrArg (Option.getD · 0) (List.getElem?_append_left h₀)
  · exact congrArg (Option.getD · 0) (List.getElem?_append_left h₁)

theorem sumBlocks_congr {n : ℕ} {x y : ℕ → Block} (h : ∀ i < n, x i = y i) :
    sumBlocks n x = sumBlocks n y := by
  rw [sumBlocks_eq, sumBlocks_eq]
  exact Finset.sum_congr rfl fun i hi => h i (Finset.mem_range.mp hi)

section Sums

variable {iknpOt : List Block → List Block → List Byte → List Block} {n : ℕ}
  {weight : Word → Word} {idxs : List ℕ} {ck : List Block} {a b : List Byte} {otR : ℕ → Block}

/-- The difference of the sums, bin by bin. -/
theorem transferSums_blockAns (hot : DeliversChosen iknpOt) (hlen : b.length = n)
    (ha : AllBits a) (hb : AllBits b) (hsorted : idxs.Pairwise (· < ·)) (hlt : ∀ i ∈ idxs, i < n)
    (pad₀ pad₁ : List Block) (padChoices : List Byte) (hpad₀ : pad₀.length = padChoices.length)
    (hpad₁ : pad₁.length = padChoices.length) (hpad : AllBits padChoices) :
    (transferSums iknpOt n weight idxs ck a b otR (pad₀, pad₁) padChoices).blockAns =
      ∑ p ∈ Finset.range idxs.length, binWeight weight idxs ck a (b.getD · 0) p := by
  let messages := (otMessages n weight idxs ck a otR).2
  have hmessages := otMessages_inv weight ck otR hsorted ha n
  have hlen₀ : messages.1.length = n := hmessages.length_fst
  have hlen₁ : messages.2.length = n := hmessages.length_snd
  have hrows : (b ++ padChoices).length = n + padChoices.length := by
    rw [List.length_append, hlen]
  have hreceived : ∀ i < n, (iknpOt (messages.1 ++ pad₀) (messages.2 ++ pad₁)
      (b ++ padChoices)).getD i 0 = otCell messages (b.getD i 0) i := by
    intro i hi
    have hlen₀' : (messages.1 ++ pad₀).length = (b ++ padChoices).length := by
      rw [List.length_append, hrows, hlen₀, hpad₀]
    have hlen₁' : (messages.2 ++ pad₁).length = (b ++ padChoices).length := by
      rw [List.length_append, hrows, hlen₁, hpad₁]
    rw [hot _ _ _ hlen₀' hlen₁' (hb.append hpad) i (by omega), otCell_append (by omega) (by omega),
      getD_append_left (by omega)]
  have hown : ∀ i < n, otCell (messages.1 ++ pad₀, messages.2 ++ pad₁) (a.getD i 0) i =
      otCell messages (a.getD i 0) i :=
    fun i hi => otCell_append (by omega) (by omega)
  show subWithBorrow
    (sumBlocks n fun i => (iknpOt (messages.1 ++ pad₀) (messages.2 ++ pad₁)
      (b ++ padChoices)).getD i 0)
    (sumBlocks n fun i => otCell (messages.1 ++ pad₀, messages.2 ++ pad₁) (a.getD i 0) i) = _
  rw [subWithBorrow_eq, sumBlocks_congr hreceived, sumBlocks_congr hown]
  exact sum_difference hsorted ha hlt fun i => hb i

theorem makeBlock_zero_eq_natCast (w : Word) : makeBlock 0 w = ((w.toNat : ℕ) : Block) := by
  apply BitVec.eq_of_toNat_eq
  have hw := w.isLt
  have hzero : (0 : Word).toNat * 2 ^ 64 = 0 := rfl
  rw [toNat_makeBlock, hzero, Nat.zero_add, BitVec.natCast_eq_ofNat, BitVec.toNat_ofNat,
    Nat.mod_eq_of_lt (by omega)]

/-- The sum over the bins with a bit set of a weight, in blocks and in numbers. -/
theorem sum_binWeight (choice : ℕ → Byte) (ha : AllBits a) (hchoice : ∀ i, IsBit (choice i)) :
    ∑ p ∈ Finset.range idxs.length, binWeight weight idxs ck a choice p =
      BitVec.ofNat 128 (∑ p ∈ (Finset.range idxs.length).filter
        (fun p => a.getD (idxs.getD p 0) 0 ^^^ choice (idxs.getD p 0) = 1),
          (weight (ck.getD p 0).low).toNat) := by
  rw [← BitVec.natCast_eq_ofNat, Nat.cast_sum, Finset.sum_filter]
  refine Finset.sum_congr rfl fun p _ => ?_
  rw [binWeight, makeBlock_zero_eq_natCast]
  rcases ha (idxs.getD p 0) with hx | hx <;> rcases hchoice (idxs.getD p 0) with hy | hy <;>
    rw [hx, hy] <;> rfl

/-- The sender's sum less the receiver's is the sum modulo `2 ^ 128` of the
weights of the active bins where their bits differ.  No other bin and no padding
row enters it. -/
theorem transfer_weights (hot : DeliversChosen iknpOt) (hlen : b.length = n) (ha : AllBits a)
    (hb : AllBits b) (hsorted : idxs.Pairwise (· < ·)) (hlt : ∀ i ∈ idxs, i < n)
    (pad₀ pad₁ : List Block) (padChoices : List Byte) (hpad₀ : pad₀.length = padChoices.length)
    (hpad₁ : pad₁.length = padChoices.length) (hpad : AllBits padChoices) :
    (transferSums iknpOt n weight idxs ck a b otR (pad₀, pad₁) padChoices).blockAns =
      BitVec.ofNat 128 (∑ p ∈ (Finset.range idxs.length).filter
        (fun p => a.getD (idxs.getD p 0) 0 ^^^ b.getD (idxs.getD p 0) 0 = 1),
          (weight (ck.getD p 0).low).toNat) := by
  rw [transferSums_blockAns hot hlen ha hb hsorted hlt pad₀ pad₁ padChoices hpad₀ hpad₁ hpad]
  exact sum_binWeight (b.getD · 0) ha fun i => hb i

end Sums

/-! ## An instance -/

/-- A transfer that hands out the chosen messages. -/
def pickMessages (m₀ m₁ : List Block) (choices : List Byte) : List Block :=
  (List.range choices.length).map fun i => otCell (m₀, m₁) (choices.getD i 0) i

theorem pickMessages_deliversChosen : DeliversChosen pickMessages := by
  intro m₀ m₁ choices _ _ _ i hi
  rw [pickMessages, getD_map_range _ _ hi]

theorem transfer_weights_fourBins :
    (transferSums pickMessages 4 (fun key => key + 10) [1, 3] [makeBlock 0 5, makeBlock 1 6]
      [0, 1, 1, 0] [1, 1, 0, 1] (fun i => BitVec.ofNat 128 (2 ^ 128 - 1 - i)) ([7], [8])
      [1]).blockAns = BitVec.ofNat 128 16 := by
  have hweights := @transfer_weights pickMessages 4 (fun key => key + 10) [1, 3]
    [makeBlock 0 5, makeBlock 1 6] [0, 1, 1, 0] [1, 1, 0, 1]
    (fun i => BitVec.ofNat 128 (2 ^ 128 - 1 - i)) pickMessages_deliversChosen rfl
    (allBits_of_mem (by decide)) (allBits_of_mem (by decide)) (by decide) (by decide) [7] [8] [1]
    rfl rfl (allBits_of_mem (by decide))
  rw [hweights]
  decide

end Sectric
