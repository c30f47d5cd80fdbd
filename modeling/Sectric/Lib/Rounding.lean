import Mathlib.Algebra.Order.BigOperators.Group.List
import Mathlib.Algebra.Order.Ring.Rat
import Mathlib.Data.List.Induction

/-!
# Sums with rounding

A floating point operation is the exact one and then a rounding.  What is used of
the rounding is that it is monotone, and leaves zero and every rounded number as
they are.  A sum is made from the left, and rounded after every summand.
-/

namespace Sectric.Lib

/-- A rounding of the rational numbers. -/
structure Rounding (round : ℚ → ℚ) : Prop where
  mono : Monotone round
  zero : round 0 = 0
  idem : ∀ x, round (round x) = round x

/-- Exact arithmetic. -/
theorem rounding_id : Rounding id where
  mono := monotone_id
  zero := rfl
  idem _ := rfl

/-- The sum of a list. -/
def roundedSum (round : ℚ → ℚ) (xs : List ℚ) : ℚ := xs.foldl (fun sum x => round (sum + x)) 0

@[simp] theorem roundedSum_nil (round : ℚ → ℚ) : roundedSum round [] = 0 := rfl

theorem roundedSum_concat (round : ℚ → ℚ) (xs : List ℚ) (x : ℚ) :
    roundedSum round (xs ++ [x]) = round (roundedSum round xs + x) := by
  rw [roundedSum, List.foldl_append]
  rfl

/-- A sum is a rounded number. -/
theorem Rounding.round_roundedSum {round : ℚ → ℚ} (h : Rounding round) (xs : List ℚ) :
    round (roundedSum round xs) = roundedSum round xs := by
  induction xs using List.reverseRecOn with
  | nil => exact h.zero
  | append_singleton xs x ih => rw [roundedSum_concat, h.idem]

/-- Summands of zero do not count. -/
theorem Rounding.roundedSum_eq_zero {round : ℚ → ℚ} (h : Rounding round) {xs : List ℚ}
    (hxs : ∀ x ∈ xs, x = 0) : roundedSum round xs = 0 := by
  induction xs using List.reverseRecOn with
  | nil => rfl
  | append_singleton xs x ih =>
      rw [roundedSum_concat, ih fun y hy => hxs y (List.mem_append_left _ hy), hxs x (by simp),
        add_zero, h.zero]

/-- The exact sum. -/
theorem roundedSum_id (xs : List ℚ) : roundedSum id xs = xs.sum := by
  induction xs using List.reverseRecOn with
  | nil => rfl
  | append_singleton xs x ih =>
      rw [roundedSum_concat, ih, List.sum_append, List.sum_singleton]
      rfl

end Sectric.Lib
