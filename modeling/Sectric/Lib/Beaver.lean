import Mathlib.Data.BitVec

/-!
# Products of shared words

A word is shared between two parties as the exclusive or of two words.  With a
shared product triple `c = a & b` at hand the parties open `e = x + a` and
`f = y + b` and get shares of `x & y` by local work; one of them, the leader,
adds `e & f`.
-/

namespace Sectric.Lib

variable {w : ℕ}

/-- The shares of `a`, `b` and `c` with `c = a & b`. -/
def ValidTriple (a₀ a₁ b₀ b₁ c₀ c₁ : BitVec w) : Prop :=
  (a₀ ^^^ a₁) &&& (b₀ ^^^ b₁) = c₀ ^^^ c₁

instance (a₀ a₁ b₀ b₁ c₀ c₁ : BitVec w) : Decidable (ValidTriple a₀ a₁ b₀ b₁ c₀ c₁) :=
  inferInstanceAs (Decidable (_ = _))

theorem ValidTriple.symm {a₀ a₁ b₀ b₁ c₀ c₁ : BitVec w} (h : ValidTriple a₀ a₁ b₀ b₁ c₀ c₁) :
    ValidTriple a₁ a₀ b₁ b₀ c₁ c₀ := by
  rw [ValidTriple, BitVec.xor_comm a₁, BitVec.xor_comm b₁, BitVec.xor_comm c₁]
  exact h

/-- Shares of the second factor do for shares of the product exactly if the
product is the second factor. -/
theorem ValidTriple.second_iff {a₀ a₁ b₀ b₁ c₀ c₁ : BitVec w}
    (h : ValidTriple a₀ a₁ b₀ b₁ c₀ c₁) :
    ValidTriple a₀ a₁ b₀ b₁ b₀ b₁ ↔ c₀ ^^^ c₁ = b₀ ^^^ b₁ := by
  rw [ValidTriple] at h ⊢
  rw [h]

/-- The share of the product that the leader, or the other party, computes. -/
def productShare (leader : Bool) (e f a b c : BitVec w) : BitVec w :=
  (if leader then e &&& f else 0) ^^^ (f &&& a) ^^^ (e &&& b) ^^^ c

/-- The two shares add up to the product of the shared words. -/
theorem productShare_xor {a₀ a₁ b₀ b₁ c₀ c₁ : BitVec w}
    (htriple : ValidTriple a₀ a₁ b₀ b₁ c₀ c₁) {x₀ x₁ y₀ y₁ e f : BitVec w}
    (he : e = (a₀ ^^^ x₀) ^^^ (a₁ ^^^ x₁)) (hf : f = (b₀ ^^^ y₀) ^^^ (b₁ ^^^ y₁)) :
    productShare true e f a₀ b₀ c₀ ^^^ productShare false e f a₁ b₁ c₁ =
      (x₀ ^^^ x₁) &&& (y₀ ^^^ y₁) := by
  apply BitVec.eq_of_getLsbD_eq
  intro i _
  have hbit := congrArg (BitVec.getLsbD · i) htriple
  simp only [BitVec.getLsbD_and, BitVec.getLsbD_xor] at hbit
  subst he hf
  simp only [productShare, if_true, Bool.false_eq_true, if_false, BitVec.getLsbD_xor,
    BitVec.getLsbD_and]
  -- bit by bit this is an identity of polynomials over two elements
  revert hbit
  have hzero : BitVec.getLsbD (0 : BitVec w) i = false := by simp
  rw [hzero]
  generalize a₀.getLsbD i = a₀, a₁.getLsbD i = a₁, b₀.getLsbD i = b₀, b₁.getLsbD i = b₁,
    c₀.getLsbD i = c₀, c₁.getLsbD i = c₁, x₀.getLsbD i = x₀, x₁.getLsbD i = x₁,
    y₀.getLsbD i = y₀, y₁.getLsbD i = y₁
  revert a₀ a₁ b₀ b₁ c₀ c₁ x₀ x₁ y₀ y₁
  decide

end Sectric.Lib
