import Mathlib.Data.List.Perm.Basic

/-!
# Exchanging an item in hand with a slot

`exchange xs i x` puts `x` in slot `i` and hands back what was there, as
`std::swap(x, xs.at(i))` does.  An exchange loses nothing: the item in hand
together with the slots is the same collection before and after.  A property
that every slot has of its own index survives when the new item has it too.
-/

namespace Sectric.Lib

variable {α : Type*}

/-- Put `x` in slot `i` and return the old content with the new slots. -/
def exchange (xs : List α) (i : ℕ) (x : α) : Option (α × List α) :=
  match xs[i]? with
  | none => none
  | some y => some (y, xs.set i x)

theorem exchange_of_lt {xs : List α} {i : ℕ} (h : i < xs.length) (x : α) :
    exchange xs i x = some (xs[i], xs.set i x) := by
  rw [exchange, List.getElem?_eq_getElem h]

/-- The item handed back and the new slots are a rearrangement of the item put
in and the old slots. -/
theorem exchange_perm {xs : List α} {i : ℕ} (h : i < xs.length) (x : α) :
    (xs[i] :: xs.set i x).Perm (x :: xs) := by
  have hperm := List.getD_set_perm_cons xs i x
  rwa [List.getElem?_eq_getElem h, Option.getD_some] at hperm

/-- What holds of every slot at its index still does, if it holds of the item
put in. -/
theorem exchange_forall {P : ℕ → α → Prop} {xs : List α} {i : ℕ} {x : α}
    (hxs : ∀ j y, xs[j]? = some y → P j y) (hx : P i x) :
    ∀ j y, (xs.set i x)[j]? = some y → P j y := by
  intro j y hy
  rw [List.getElem?_set] at hy
  by_cases hij : i = j
  · rw [if_pos hij] at hy
    subst hij
    split at hy
    · cases hy
      exact hx
    · cases hy
  · rw [if_neg hij] at hy
    exact hxs j y hy

end Sectric.Lib
