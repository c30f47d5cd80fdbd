import Mathlib.Data.Multiset.UnionInter

/-!
# The common elements of two sorted lists

`setIntersection` walks along two sorted lists at once and keeps what stands in both.
An element that stands in the lists several times is kept as often as it stands in
either of them, so the result is the intersection of the lists as multisets.
-/

namespace Sectric.Lib

section SetIntersection

variable {α : Type*} (lt : α → α → Bool)

/-- The elements the lists have in common. -/
def setIntersection : List α → List α → List α
  | [], _ => []
  | _ :: _, [] => []
  | a :: as, b :: bs =>
      if lt a b then setIntersection as (b :: bs)
      else if lt b a then setIntersection (a :: as) bs
      else a :: setIntersection as bs
termination_by as bs => as.length + bs.length

variable {lt} (hirrefl : ∀ a, lt a a = false)
  (htotal : ∀ a b, lt a b = false → lt b a = false → a = b)

include hirrefl

/-- What comes before a sorted list is not in it. -/
theorem not_mem_of_lt {a b : α} {bs : List α}
    (hsorted : (b :: bs).Pairwise fun b c => lt c b = false) (h : lt a b = true) : a ∉ b :: bs := by
  rw [List.pairwise_cons] at hsorted
  intro hmem
  cases hmem with
  | head => exact Bool.noConfusion (h.symm.trans (hirrefl a))
  | tail _ hmem => exact Bool.noConfusion (h.symm.trans (hsorted.1 a hmem))

include htotal

theorem coe_setIntersection [DecidableEq α] (as bs : List α)
    (has : as.Pairwise fun a c => lt c a = false) (hbs : bs.Pairwise fun b c => lt c b = false) :
    (setIntersection lt as bs : Multiset α) = (as : Multiset α) ∩ bs := by
  fun_induction setIntersection lt as bs with
  | case1 bs => simp
  | case2 a as => simp
  | case3 a as b bs h ih =>
      have hout : a ∉ ((b :: bs : List α) : Multiset α) := not_mem_of_lt hirrefl hbs h
      rw [ih has.of_cons hbs, ← Multiset.cons_coe a as, Multiset.cons_inter_of_neg _ hout]
  | case4 a as b bs h h' ih =>
      have hout : b ∉ ((a :: as : List α) : Multiset α) := not_mem_of_lt hirrefl has h'
      rw [ih has hbs.of_cons, ← Multiset.cons_coe b bs, Multiset.inter_comm _ (b ::ₘ _),
        Multiset.cons_inter_of_neg _ hout, Multiset.inter_comm]
  | case5 a as b bs h h' ih =>
      have heq : a = b := htotal a b (Bool.eq_false_iff.mpr h) (Bool.eq_false_iff.mpr h')
      subst heq
      have hmem : a ∈ ((a :: bs : List α) : Multiset α) := List.mem_cons_self
      rw [← Multiset.cons_coe, ih has.of_cons hbs.of_cons, ← Multiset.cons_coe a as,
        Multiset.cons_inter_of_pos _ hmem, ← Multiset.cons_coe a bs, Multiset.erase_cons_head]

end SetIntersection

end Sectric.Lib
