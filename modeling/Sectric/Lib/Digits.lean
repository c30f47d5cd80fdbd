import Mathlib.Data.Nat.Digits.Defs

/-!
# Digits of a number

The digits of fixed width determine a number up to the place where they end.
-/

namespace Sectric.Lib

/-- The value of `n` base-256 digits of `m` is `m` without its higher digits. -/
theorem ofDigits_bytes (m : ℕ) :
    ∀ n, Nat.ofDigits 256 ((List.range n).map fun k => m / 256 ^ k % 256) = m % 256 ^ n
  | 0 => by simp [Nat.mod_one]
  | n + 1 => by
      rw [List.range_succ, List.map_append, Nat.ofDigits_append, ofDigits_bytes m n,
        List.length_map, List.length_range, List.map_singleton, Nat.ofDigits_singleton,
        Nat.pow_succ, Nat.mod_mul]

/-- Two numbers agree modulo `a * b` when they agree modulo `a` and so do their
quotients modulo `b`. -/
theorem mod_mul_eq_iff {a b x y : ℕ} (ha : 0 < a) :
    x % (a * b) = y % (a * b) ↔ x % a = y % a ∧ x / a % b = y / a % b := by
  rw [Nat.mod_mul, Nat.mod_mul]
  constructor
  · intro h
    have hlow : x % a = y % a := by
      have hmod := congrArg (· % a) h
      simpa using hmod
    refine ⟨hlow, ?_⟩
    rw [hlow] at h
    exact Nat.eq_of_mul_eq_mul_left ha (by omega)
  · rintro ⟨hlow, hhigh⟩
    rw [hlow, hhigh]

/-- Agreement of the first `n` digits of `width` bits. -/
theorem digits_eq_iff (width : ℕ) (x y : ℕ) :
    ∀ n, (∀ i < n, x / 2 ^ (i * width) % 2 ^ width = y / 2 ^ (i * width) % 2 ^ width) ↔
      x % 2 ^ (n * width) = y % 2 ^ (n * width)
  | 0 => by simp [Nat.mod_one]
  | n + 1 => by
      rw [Nat.succ_mul, Nat.pow_add, mod_mul_eq_iff (Nat.two_pow_pos _),
        ← digits_eq_iff width x y n]
      constructor
      · intro h
        exact ⟨fun i hi => h i (by omega), h n (by omega)⟩
      · rintro ⟨hlow, htop⟩ i hi
        rcases Nat.lt_succ_iff_lt_or_eq.mp hi with hi | rfl
        · exact hlow i hi
        · exact htop

end Sectric.Lib
