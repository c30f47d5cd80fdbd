import Mathlib.Data.List.Basic

/-!
# Agents that step in any order

Several agents take steps on one state, in any order.  Where the step of an agent
is determined, and the steps of two agents can be taken in either order with the
same outcome, the order is of no account: if some run ends in a stuck state, then
every run goes on to that state, and takes as many steps (`Independent.endsIn`).
So to know how all runs end, it is enough to have one.
-/

namespace Sectric.Lib

variable {σ Λ : Type*} {Step : σ → Λ → σ → Prop}

/-- Steps of the listed agents, one after the other. -/
inductive Run (Step : σ → Λ → σ → Prop) : σ → List Λ → σ → Prop
  | nil (s : σ) : Run Step s [] s
  | cons {s t u : σ} {l : Λ} {ls : List Λ} (first : Step s l t) (rest : Run Step t ls u) :
      Run Step s (l :: ls) u

theorem Run.append {s t u : σ} {ls ms : List Λ} (h : Run Step s ls t) (h' : Run Step t ms u) :
    Run Step s (ls ++ ms) u := by
  induction h with
  | nil s => exact h'
  | cons first _ ih => exact .cons first (ih h')

/-- What every step keeps, every run keeps. -/
theorem Run.preserves {P : σ → Prop} (hstep : ∀ {s l t}, P s → Step s l t → P t) {s t : σ}
    {ls : List Λ} (hrun : Run Step s ls t) (hs : P s) : P t := by
  induction hrun with
  | nil s => exact hs
  | cons first _ ih => exact ih (hstep hs first)

/-- A run is no longer than what its steps use up. -/
theorem Run.length_add_le (size : σ → ℕ) (hstep : ∀ {s l t}, Step s l t → size t < size s)
    {s t : σ} {ls : List Λ} (hrun : Run Step s ls t) : ls.length + size t ≤ size s := by
  induction hrun with
  | nil s => exact Nat.le_of_eq (Nat.zero_add _)
  | cons first _ ih =>
      have hlt := hstep first
      rw [List.length_cons]
      omega

/-- Steps that use something up come to the end, if there is one wherever it is not
reached. -/
theorem exists_run_of_progress (size : σ → ℕ) (Ended : σ → Prop)
    (hsize : ∀ {s l t}, Step s l t → size t < size s)
    (hprogress : ∀ s, ¬ Ended s → ∃ l t, Step s l t) (s : σ) :
    ∃ ls t, Run Step s ls t ∧ Ended t := by
  induction hn : size s using Nat.strongRecOn generalizing s with
  | ind n ih =>
      by_cases hended : Ended s
      · exact ⟨[], s, .nil s, hended⟩
      · obtain ⟨l, t, hl⟩ := hprogress s hended
        obtain ⟨ls, u, hrun, hu⟩ := ih (size t) (hn ▸ hsize hl) t rfl
        exact ⟨l :: ls, u, .cons hl hrun, hu⟩

/-- No agent has a step. -/
def Stuck (Step : σ → Λ → σ → Prop) (s : σ) : Prop := ∀ l t, ¬ Step s l t

/-- The step of an agent is determined, and two agents' steps can be exchanged. -/
structure Independent (Step : σ → Λ → σ → Prop) : Prop where
  functional : ∀ {s t u : σ} {l : Λ}, Step s l t → Step s l u → t = u
  diamond : ∀ {s t u : σ} {l m : Λ}, l ≠ m → Step s l t → Step s m u →
    ∃ v, Step t m v ∧ Step u l v

/-- Every run from `s` goes on to `t` and has `n` steps then, and `t` is stuck. -/
def EndsIn (Step : σ → Λ → σ → Prop) (n : ℕ) (s t : σ) : Prop :=
  Stuck Step t ∧
    ∀ ls u, Run Step s ls u → ∃ rest, Run Step u rest t ∧ ls.length + rest.length = n

/-- A step that any agent takes is one of those that are left. -/
theorem Independent.advance (h : Independent Step) {s t u : σ} {ls : List Λ} {l : Λ}
    (hrun : Run Step s ls t) (hstuck : Stuck Step t) (hstep : Step s l u) :
    ∃ rest, Run Step u rest t ∧ rest.length + 1 = ls.length := by
  induction hrun generalizing u with
  | nil s => exact absurd hstep (hstuck l u)
  | @cons s s' t m ls first rest ih =>
      by_cases hlm : l = m
      · subst hlm
        obtain rfl : s' = u := h.functional first hstep
        exact ⟨ls, rest, rfl⟩
      · obtain ⟨v, huv, hsv⟩ := h.diamond hlm hstep first
        obtain ⟨rest', hrest', hlen⟩ := ih hstuck hsv
        exact ⟨m :: rest', .cons huv hrest', congrArg (· + 1) hlen⟩

/-- One run that ends decides how all of them do. -/
theorem Independent.endsIn (h : Independent Step) {s t : σ} {ref : List Λ}
    (href : Run Step s ref t) (hstuck : Stuck Step t) : EndsIn Step ref.length s t := by
  refine ⟨hstuck, ?_⟩
  intro ls u hrun
  induction hrun generalizing ref with
  | nil s => exact ⟨ref, href, Nat.zero_add _⟩
  | cons first _ ih =>
      obtain ⟨rest, hrest, hlen⟩ := h.advance href hstuck first
      obtain ⟨rest', hrest', hlen'⟩ := ih hrest
      refine ⟨rest', hrest', ?_⟩
      rw [List.length_cons]
      omega

/-- A run that cannot go on has come to the end. -/
theorem EndsIn.eq_of_stuck {n : ℕ} {s t u : σ} {ls : List Λ} (h : EndsIn Step n s t)
    (hrun : Run Step s ls u) (hstuck : Stuck Step u) : u = t := by
  obtain ⟨rest, hrest, -⟩ := h.2 ls u hrun
  cases hrest with
  | nil s => rfl
  | cons first _ => exact absurd first (hstuck _ _)

/-- There is one end. -/
theorem EndsIn.unique {n n' : ℕ} {s t t' : σ} (h : EndsIn Step n s t) (h' : EndsIn Step n' s t') :
    t' = t := by
  obtain ⟨rest, hrest, -⟩ := h'.2 [] s (.nil s)
  exact h.eq_of_stuck hrest h'.1

end Sectric.Lib
