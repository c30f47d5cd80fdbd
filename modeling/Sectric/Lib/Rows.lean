import Sectric.Lib.Loop

/-!
# Rows in another order

An array of rows is rearranged by a map of row numbers that is injective on the rows.
Reading a run of cells within a row and writing to cells commute with it, so a loop
over one layout is the loop over the other.
-/

namespace Sectric.Lib

section Rows

variable {ι α : Type*} (σ : ℕ → ℕ) (rows cols : ℕ) (d : α)

/-- The array with row `σ i` of `xs` in the place of row `i`. -/
def permuteRows (xs : List α) : List α := rowMajor rows cols fun i m => xs.getD (σ i * cols + m) d

@[simp] theorem length_permuteRows (xs : List α) :
    (permuteRows σ rows cols d xs).length = rows * cols :=
  length_rowMajor ..

/-- The map of row numbers stays in the array and does not join rows. -/
structure RowMap (σ : ℕ → ℕ) (rows : ℕ) : Prop where
  lt : ∀ i < rows, σ i < rows
  inj : ∀ i < rows, ∀ i' < rows, σ i = σ i' → i = i'

variable {σ rows cols d}

theorem getElem?_permuteRows (xs : List α) {i m : ℕ} (hi : i < rows) (hm : m < cols) :
    (permuteRows σ rows cols d xs)[i * cols + m]? = some (xs.getD (σ i * cols + m) d) :=
  getElem?_rowMajor cols _ hm hi

theorem getD_permuteRows (xs : List α) {i m : ℕ} (hi : i < rows) (hm : m < cols) :
    (permuteRows σ rows cols d xs).getD (i * cols + m) d = xs.getD (σ i * cols + m) d :=
  getD_rowMajor _ d hi hm

variable (hσ : RowMap σ rows)

include hσ

/-- A run of cells within a row. -/
theorem take_drop_permuteRows {xs : List α} (hlen : xs.length = rows * cols) {i m width : ℕ}
    (hi : i < rows) (hm : m + width ≤ cols) :
    ((permuteRows σ rows cols d xs).drop (i * cols + m)).take width =
      (xs.drop (σ i * cols + m)).take width := by
  apply List.ext_getElem?
  intro k
  rw [List.getElem?_take, List.getElem?_take]
  split
  · rename_i hk
    have hcell : σ i * cols + (m + k) < xs.length := hlen ▸ cell_lt (hσ.lt i hi) (by omega)
    rw [List.getElem?_drop, List.getElem?_drop, Nat.add_assoc, Nat.add_assoc,
      getElem?_permuteRows xs hi (by omega), List.getD_eq_getElem _ _ hcell,
      List.getElem?_eq_getElem hcell]
  · rfl

/-- One write. -/
theorem permuteRows_set {xs : List α} (hlen : xs.length = rows * cols) {i m : ℕ} (hi : i < rows)
    (hm : m < cols) (b : α) :
    permuteRows σ rows cols d (xs.set (σ i * cols + m) b) =
      (permuteRows σ rows cols d xs).set (i * cols + m) b := by
  apply List.ext_getElem?
  intro p
  rcases Nat.lt_or_ge p (rows * cols) with hp | hp
  · obtain ⟨i', m', hi', hm', rfl⟩ : ∃ i' m', i' < rows ∧ m' < cols ∧ i' * cols + m' = p := by
      have hcols : 0 < cols := by omega
      exact ⟨p / cols, p % cols, Nat.div_lt_of_lt_mul (Nat.mul_comm rows cols ▸ hp),
        Nat.mod_lt _ hcols, Nat.div_add_mod' p cols⟩
    have hcell : σ i * cols + m < xs.length := hlen ▸ cell_lt (hσ.lt i hi) hm
    have hcell' : i * cols + m < rows * cols := cell_lt hi hm
    rw [getElem?_permuteRows _ hi' hm', List.getElem?_set, length_permuteRows,
      List.getD_eq_getElem?_getD, List.getElem?_set, getElem?_permuteRows _ hi' hm']
    by_cases hsame : i = i' ∧ m = m'
    · obtain ⟨rfl, rfl⟩ := hsame
      simp [hcell, hcell']
    · have hne : i * cols + m ≠ i' * cols + m' := fun h => hsame (cell_inj hm hm' h)
      have hne' : σ i * cols + m ≠ σ i' * cols + m' := by
        intro h
        obtain ⟨hrow, hcol⟩ := cell_inj hm hm' h
        exact hsame ⟨hσ.inj i hi i' hi' hrow, hcol⟩
      rw [if_neg hne, if_neg hne', List.getD_eq_getElem?_getD]
  · rw [List.getElem?_eq_none (by simpa using hp), List.getElem?_eq_none (by simpa using hp)]

/-- A loop that writes. -/
theorem permuteRows_writeAll (row col : ι → ℕ) (val : ι → α) :
    ∀ {ks : List ι} {xs : List α}, xs.length = rows * cols →
      (∀ k ∈ ks, row k < rows ∧ col k < cols) →
      permuteRows σ rows cols d (writeAll (fun k => σ (row k) * cols + col k) val ks xs) =
        writeAll (fun k => row k * cols + col k) val ks (permuteRows σ rows cols d xs) := by
  intro ks
  induction ks with
  | nil =>
      intro xs _ _
      rfl
  | cons k ks ih =>
      intro xs hlen hks
      obtain ⟨hrow, hcol⟩ := hks k (List.mem_cons_self ..)
      have hrest := @ih (xs.set (σ (row k) * cols + col k) (val k))
        ((List.length_set ..).trans hlen) fun k' hk' => hks k' (List.mem_cons_of_mem _ hk')
      rw [permuteRows_set hσ hlen hrow hcol] at hrest
      exact hrest

end Rows

end Sectric.Lib
