import Sectric.Lib.Loop

/-!
# Unsigned differences and signed counters

Two habits of machine integers.  A difference of unsigned numbers that would be
negative wraps around (`sub64_eq_sub_iff`).  A signed counter that would pass its
largest value has no next value: a loop that counts with an `int` up to an
unsigned bound ends exactly if the bound itself is an `int` (`pushLoop_eq_ok_iff`).
-/

namespace Sectric.Lib

/-! ## Unsigned differences -/

/-- `a - b` of two unsigned 64-bit numbers. -/
def sub64 (a b : ℕ) : ℕ := (a + (2 ^ 64 - b % 2 ^ 64)) % 2 ^ 64

theorem sub64_of_le {a b : ℕ} (h : b ≤ a) (ha : a < 2 ^ 64) : sub64 a b = a - b := by
  rw [sub64, Nat.mod_eq_of_lt (lt_of_le_of_lt h ha)]
  omega

theorem sub64_of_lt {a b : ℕ} (h : a < b) (hb : b < 2 ^ 64) : sub64 a b = 2 ^ 64 - (b - a) := by
  rw [sub64, Nat.mod_eq_of_lt hb]
  omega

/-- The difference wraps around exactly if it is negative. -/
theorem sub64_eq_sub_iff {a b : ℕ} (ha : a < 2 ^ 64) (hb : b < 2 ^ 64) :
    sub64 a b = a - b ↔ b ≤ a := by
  constructor
  · intro h
    by_contra hlt
    rw [sub64_of_lt (not_le.mp hlt) hb] at h
    omega
  · intro h
    exact sub64_of_le h ha

/-- Only the residue of the minuend matters. -/
theorem sub64_mod_left (a b : ℕ) : sub64 (a % 2 ^ 64) b = sub64 a b := by
  rw [sub64, sub64, Nat.mod_add_mod]

/-! ## Signed counters -/

section Loop

variable {σ : Type}

/-- The rounds of a loop that are left at counter `i`.  The counter is an `int`
and is incremented after every round. -/
def intRounds (body : σ → ℕ → Except String σ) : ℕ → ℕ → σ → Except String σ
  | 0, _, s => .ok s
  | rounds + 1, i, s => do
      let s ← body s i
      if i + 1 < 2 ^ 31 then intRounds body rounds (i + 1) s
      else .error "signed integer overflow"

/-- `for (int i = 0; i < bound; i++)`, with an unsigned bound. -/
def intLoop (bound : ℕ) (body : σ → ℕ → Except String σ) (s : σ) : Except String σ :=
  intRounds body bound 0 s

variable {body : σ → ℕ → Except String σ}

/-- While the counter stays an `int` the loop is one over its values. -/
theorem intRounds_eq : ∀ {rounds i : ℕ} (s : σ), i + rounds < 2 ^ 31 →
    intRounds body rounds i s = (List.range' i rounds).foldlM body s
  | 0, i, s, _ => rfl
  | rounds + 1, i, s, h => by
      rw [intRounds, List.range'_succ, List.foldlM_cons]
      congr 1
      funext s'
      rw [if_pos (by omega)]
      exact intRounds_eq s' (by omega)

/-- Past that the counter overflows, if no round fails before. -/
theorem intRounds_overflow (hbody : ∀ s, ∀ i < 2 ^ 31, ∃ s', body s i = .ok s') :
    ∀ {rounds i : ℕ} (s : σ), i < 2 ^ 31 → 2 ^ 31 ≤ i + rounds →
      intRounds body rounds i s = .error "signed integer overflow"
  | 0, i, s, hi, h => by omega
  | rounds + 1, i, s, hi, h => by
      obtain ⟨s', hs'⟩ := hbody s i hi
      rw [intRounds, hs']
      show (if i + 1 < 2 ^ 31 then intRounds body rounds (i + 1) s' else _) = _
      split
      · rename_i hnext
        exact intRounds_overflow hbody s' hnext (by omega)
      · rfl

theorem intLoop_eq {bound : ℕ} (h : bound < 2 ^ 31) (s : σ) :
    intLoop bound body s = (List.range bound).foldlM body s := by
  rw [intLoop, intRounds_eq s (by omega), List.range_eq_range']

theorem intLoop_overflow (hbody : ∀ s, ∀ i < 2 ^ 31, ∃ s', body s i = .ok s') {bound : ℕ}
    (h : 2 ^ 31 ≤ bound) (s : σ) : intLoop bound body s = .error "signed integer overflow" :=
  intRounds_overflow hbody s (by decide) (by omega)

/-- A loop that ends has kept its counter an `int`. -/
theorem intRounds_eq_ok : ∀ {rounds i : ℕ} {s t : σ}, i < 2 ^ 31 →
    intRounds body rounds i s = .ok t →
      i + rounds < 2 ^ 31 ∧ (List.range' i rounds).foldlM body s = .ok t
  | 0, i, s, t, hi, h => ⟨hi, h⟩
  | rounds + 1, i, s, t, hi, h => by
      rw [intRounds] at h
      cases hbody : body s i with
      | error e =>
          rw [hbody] at h
          cases h
      | ok s' =>
          rw [hbody] at h
          obtain ⟨hnext, h⟩ : i + 1 < 2 ^ 31 ∧ intRounds body rounds (i + 1) s' = .ok t := by
            by_cases hnext : i + 1 < 2 ^ 31
            · exact ⟨hnext, (if_pos hnext).symm.trans h⟩
            · cases (if_neg hnext).symm.trans h
          obtain ⟨hlt, hloop⟩ := intRounds_eq_ok hnext h
          refine ⟨by omega, ?_⟩
          rw [List.range'_succ, List.foldlM_cons, hbody]
          exact hloop

theorem intLoop_eq_ok_iff {bound : ℕ} {s t : σ} :
    intLoop bound body s = .ok t ↔
      bound < 2 ^ 31 ∧ (List.range bound).foldlM body s = .ok t := by
  constructor
  · intro h
    obtain ⟨hlt, hloop⟩ := intRounds_eq_ok (by decide) h
    rw [Nat.zero_add] at hlt
    rw [List.range_eq_range']
    exact ⟨hlt, hloop⟩
  · rintro ⟨hlt, hloop⟩
    rw [intLoop_eq hlt, hloop]

end Loop

/-! ## Loops that append -/

section Append

variable {α : Type} (f : ℕ → α)

/-- A counting loop that appends a value a round. -/
def pushLoop (bound : ℕ) (xs : List α) : Except String (List α) :=
  intLoop bound (fun xs i => .ok (xs ++ [f i])) xs

/-- It ends exactly if the bound is an `int`, and then it appended a value for
every number below the bound. -/
theorem pushLoop_eq_ok_iff (bound : ℕ) (xs ys : List α) :
    pushLoop f bound xs = .ok ys ↔ bound < 2 ^ 31 ∧ ys = xs ++ (List.range bound).map f := by
  by_cases h : bound < 2 ^ 31
  · have hloop : (List.range bound).foldlM (fun xs i => .ok (xs ++ [f i])) xs =
        (.ok (xs ++ (List.range bound).flatMap fun i => [f i]) : Except String (List α)) :=
      foldlM_appending id (fun i => [f i]) (List.range bound) xs fun _ _ _ => rfl
    rw [← List.map_eq_flatMap] at hloop
    rw [pushLoop, intLoop_eq h]
    constructor
    · intro hok
      exact ⟨h, (Except.ok.inj (hloop.symm.trans hok)).symm⟩
    · rintro ⟨-, rfl⟩
      exact hloop
  · rw [pushLoop, intLoop_overflow (fun s i _ => ⟨_, rfl⟩) (not_lt.mp h)]
    constructor
    · intro hok
      cases hok
    · rintro ⟨hlt, -⟩
      exact absurd hlt h

end Append

end Sectric.Lib
