import Mathlib.Algebra.Group.Basic
import Mathlib.Algebra.Group.Units.Equiv
import Mathlib.SetTheory.Cardinal.Finite

/-!
# Masked views

A view is masked if it is the mask plus an amount the mask does not enter.  Two
masked views are one view up to a bijection of the masks, so every event has as
many masks under the one as under the other.
-/

namespace Sectric.Lib

variable {M N X : Type*}

/-- The view is the mask plus a fixed amount. -/
def IsMasked [Add M] (view : M → M) : Prop := ∃ d, ∀ r, view r = r + d

/-- Two masked views differ by a bijection of the masks. -/
theorem IsMasked.exists_equiv [AddGroup M] {view view' : M → M} (h : IsMasked view)
    (h' : IsMasked view') : ∃ φ : M ≃ M, ∀ r, view r = view' (φ r) := by
  obtain ⟨d, hd⟩ := h
  obtain ⟨d', hd'⟩ := h'
  refine ⟨Equiv.addRight (d - d'), ?_⟩
  intro r
  rw [hd, hd', Equiv.coe_addRight, add_assoc, sub_add_cancel]

/-- Views that differ by a bijection put as many masks into every event. -/
theorem card_event_eq {view : M → X} {view' : N → X} (φ : M ≃ N)
    (h : ∀ r, view r = view' (φ r)) (V : Set X) :
    Nat.card {r // view r ∈ V} = Nat.card {r // view' r ∈ V} :=
  Nat.card_congr (φ.subtypeEquiv fun r => by rw [h r])

end Sectric.Lib
