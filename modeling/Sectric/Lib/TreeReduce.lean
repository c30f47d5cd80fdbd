import Mathlib.Order.Interval.Finset.Nat
import Mathlib.Data.Finset.Lattice.Fold
import Mathlib.Tactic.Ring
import Sectric.Lib.Loop

/-!
# Meets by strides

A bottom-up tree over `n` cells in place: at stride `s` the cell `j`, for `j` a
multiple of `2 * s`, takes its meet with cell `j + s` if there is one, and the
stride doubles until it reaches `n`.  Before the level of stride `s` a cell at
a multiple of `s` holds the meet of the original cells from it up to the next
multiple, so at the end cell 0 holds the meet of all of them, for every `n`.
-/

namespace Sectric.Lib

section TreeReduce

variable {α : Type*} [SemilatticeInf α]

/-- One level of the tree. -/
def meetLevel (n stride : ℕ) (x : ℕ → α) (j : ℕ) : α :=
  if 2 * stride ∣ j ∧ j + stride < n then x j ⊓ x (j + stride) else x j

variable [OrderTop α]

/-- The cells at multiples of the stride hold the meets of their blocks. -/
def BlockMeets (n stride : ℕ) (y x : ℕ → α) : Prop :=
  ∀ j, stride ∣ j → j < n → x j = (Finset.Ico j (min (j + stride) n)).inf y

theorem blockMeets_one (n : ℕ) (y : ℕ → α) : BlockMeets n 1 y y := by
  intro j _ hj
  rw [Nat.min_eq_left (by omega), Nat.Ico_succ_singleton, Finset.inf_singleton]

theorem inf_Ico_append (y : ℕ → α) {a b c : ℕ} (hab : a ≤ b) (hbc : b ≤ c) :
    (Finset.Ico a b).inf y ⊓ (Finset.Ico b c).inf y = (Finset.Ico a c).inf y := by
  rw [← Finset.inf_union, Finset.Ico_union_Ico_eq_Ico hab hbc]

/-- A level doubles the blocks. -/
theorem BlockMeets.level {n stride : ℕ} {y x : ℕ → α} (h : BlockMeets n stride y x) :
    BlockMeets n (2 * stride) y (meetLevel n stride x) := by
  intro j hdvd hj
  have hj' : stride ∣ j := dvd_trans (Dvd.intro_left 2 rfl) hdvd
  rw [meetLevel]
  split
  · rename_i hgate
    rw [h j hj' hj, h (j + stride) (Nat.dvd_add hj' dvd_rfl) hgate.2,
      Nat.min_eq_left (by omega : j + stride ≤ n),
      inf_Ico_append y (by omega) (by omega)]
    congr 2
    omega
  · rename_i hgate
    -- the partner cell does not exist: the block ends at `n` already
    have hend : n ≤ j + stride := by
      by_contra hlt
      exact hgate ⟨hdvd, by omega⟩
    rw [h j hj' hj, Nat.min_eq_right hend, Nat.min_eq_right (by omega)]

/-- All levels, from `stride` on. -/
def meetTree (n fuel stride : ℕ) (x : ℕ → α) : ℕ → α :=
  (loopValues (fun s => decide (s < n)) (· * 2) fuel stride).foldl (fun x s => meetLevel n s x) x

theorem BlockMeets.tree {n : ℕ} {y : ℕ → α} (hn : 0 < n) :
    ∀ {fuel stride : ℕ} {x : ℕ → α}, n ≤ stride * 2 ^ fuel → BlockMeets n stride y x →
      meetTree n fuel stride x 0 = (Finset.range n).inf y := by
  intro fuel
  induction fuel with
  | zero =>
      intro stride x hfuel h
      rw [meetTree, loopValues, List.foldl_nil, h 0 (dvd_zero _) hn,
        Nat.min_eq_right (by omega), Finset.range_eq_Ico]
  | succ fuel ih =>
      intro stride x hfuel h
      rw [meetTree, loopValues]
      split
      · rw [List.foldl_cons, ← meetTree]
        have hdouble : BlockMeets n (stride * 2) y (meetLevel n stride x) := by
          rw [Nat.mul_comm]
          exact h.level
        refine ih ?_ hdouble
        rw [Nat.mul_assoc, ← Nat.pow_succ']
        exact hfuel
      · rename_i hstop
        have hle : n ≤ stride := by simpa using hstop
        rw [List.foldl_nil, h 0 (dvd_zero _) hn, Nat.min_eq_right (by omega),
          Finset.range_eq_Ico]

/-- The tree computes the meet of all cells. -/
theorem meetTree_zero {n : ℕ} (hn : 0 < n) (y : ℕ → α) :
    meetTree n n 1 y 0 = (Finset.range n).inf y := by
  refine (blockMeets_one n y).tree hn ?_
  rw [Nat.one_mul]
  exact Nat.le_of_lt Nat.lt_two_pow_self

end TreeReduce

end Sectric.Lib
