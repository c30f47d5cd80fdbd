import Mathlib.Algebra.Group.Nat.Defs
import Mathlib.Data.Nat.Bits
import Mathlib.Data.Nat.Log

/-!
# Rounding to 53 significant bits

A product of two binary64 numbers is the exact product rounded to 53 significant
bits, ties to even.  On integers, and on products kept as integers by a common
scale, the rounding is a function of natural numbers.
-/

namespace Sectric.Lib

/-- The nearest number with 53 significant bits, the even one of two. -/
def roundTo53Bits (m : ℕ) : ℕ :=
  if m < 2 ^ 53 then m
  else
    let shift := Nat.log2 m - 52
    let kept := m / 2 ^ shift
    let rest := m % 2 ^ shift
    let half := 2 ^ (shift - 1)
    if half < rest ∨ (rest = half ∧ kept % 2 = 1) then (kept + 1) * 2 ^ shift
    else kept * 2 ^ shift

/-- A number that is rounded has 53 bits at least. -/
theorem le_log2_of_big {m : ℕ} (hbig : ¬ m < 2 ^ 53) : m ≠ 0 ∧ 52 ≤ Nat.log2 m := by
  have hm : m ≠ 0 := by omega
  refine ⟨hm, ?_⟩
  rw [Nat.le_log2 hm]
  omega

/-- Rounding is within one unit of the last bit kept. -/
theorem roundTo53Bits_bounds (m : ℕ) :
    roundTo53Bits m ≤ m + m / 2 ^ 52 ∧ m ≤ roundTo53Bits m + m / 2 ^ 52 := by
  rw [roundTo53Bits]
  split
  · omega
  · rename_i hbig
    obtain ⟨hm, hlog⟩ := le_log2_of_big hbig
    have hunit : 2 ^ (Nat.log2 m - 52) ≤ m / 2 ^ 52 := by
      rw [Nat.le_div_iff_mul_le (Nat.two_pow_pos _), ← Nat.pow_add, Nat.sub_add_cancel hlog]
      exact Nat.log2_self_le hm
    have hsplit := Nat.div_add_mod' m (2 ^ (Nat.log2 m - 52))
    have hrest := Nat.mod_lt m (Nat.two_pow_pos (Nat.log2 m - 52))
    dsimp only
    split
    · rw [Nat.succ_mul]
      omega
    · omega

theorem roundTo53Bits_of_lt {m : ℕ} (h : m < 2 ^ 53) : roundTo53Bits m = m := by
  rw [roundTo53Bits, if_pos h]

/-- Rounding does not go below a power of two that fits. -/
theorem two_pow_le_roundTo53Bits {m k : ℕ} (hk : k ≤ 52) (h : 2 ^ k ≤ m) :
    2 ^ k ≤ roundTo53Bits m := by
  rw [roundTo53Bits]
  split
  · exact h
  · rename_i hbig
    obtain ⟨hm, hlog⟩ := le_log2_of_big hbig
    have hkept : 2 ^ 52 ≤ m / 2 ^ (Nat.log2 m - 52) := by
      rw [Nat.le_div_iff_mul_le (Nat.two_pow_pos _), ← Nat.pow_add, Nat.add_sub_cancel' hlog]
      exact Nat.log2_self_le hm
    have hk52 : 2 ^ k ≤ 2 ^ 52 := Nat.pow_le_pow_right (by decide) hk
    have hpos := Nat.two_pow_pos (Nat.log2 m - 52)
    dsimp only
    split
    · exact (hk52.trans (hkept.trans (Nat.le_succ _))).trans (Nat.le_mul_of_pos_right _ hpos)
    · exact (hk52.trans hkept).trans (Nat.le_mul_of_pos_right _ hpos)

end Sectric.Lib
