import Mathlib.Algebra.GroupWithZero.Nat
import Mathlib.Data.List.Basic
import Mathlib.Data.List.GetD
import Mathlib.Data.List.Nodup
import Mathlib.Data.List.Range

/-!
# Counting loops and array updates

A loop `for (j = start; cond; j = next)` whose body only reads and writes
arrays is a fold over the values its variable takes.  `loopValues` lists those
values.  It takes fuel, and the two laws below say how much is enough: for a
constant stride the list is an arithmetic progression, and for a doubling
stride every value is a power of two times the start.

An array is a list.  `modifyAll` runs one in-place update per loop value.
Where the positions are pairwise distinct, the array after the loop is known
cell by cell: a visited cell holds its update, any other cell is unchanged.
`writeAll` is the case where the update ignores the old content.
-/

namespace Sectric.Lib

/-! ## Loop values -/

/-- The values of the variable of `for (j = start; cond j; j = next j)`. -/
def loopValues (cond : ℕ → Bool) (next : ℕ → ℕ) : ℕ → ℕ → List ℕ
  | 0, _ => []
  | fuel + 1, j => if cond j then j :: loopValues cond next fuel (next j) else []

theorem loopValues_of_not {cond : ℕ → Bool} {next : ℕ → ℕ} {j : ℕ} (h : cond j = false) :
    ∀ fuel, loopValues cond next fuel j = []
  | 0 => rfl
  | fuel + 1 => by simp [loopValues, h]

/-- A loop with rounds left goes on, and has one less after the next. -/
theorem cond_next {cond : ℕ → Bool} {stride rounds start : ℕ}
    (hcond : ∀ c, cond (start + c * stride) = decide (c < rounds + 1)) :
    cond start = true ∧ ∀ c, cond (start + stride + c * stride) = decide (c < rounds) := by
  constructor
  · simpa using hcond 0
  · intro c
    have h := hcond (c + 1)
    rw [Nat.add_mul, Nat.one_mul, Nat.add_comm (c * stride), ← Nat.add_assoc] at h
    simpa using h

/-- With a constant stride the values are an arithmetic progression, as long
as the bound on the number of rounds fits the fuel. -/
theorem loopValues_add {cond : ℕ → Bool} {stride rounds : ℕ} :
    ∀ {fuel start : ℕ}, (∀ c, cond (start + c * stride) = decide (c < rounds)) →
      rounds ≤ fuel →
      loopValues cond (· + stride) fuel start =
        (List.range rounds).map fun c => start + c * stride := by
  induction rounds with
  | zero =>
      intro fuel start hcond _
      rw [loopValues_of_not (by simpa using hcond 0)]
      rfl
  | succ rounds ih =>
      intro fuel start hcond hfuel
      cases fuel with
      | zero => omega
      | succ fuel =>
          obtain ⟨hhead, htail⟩ := cond_next hcond
          rw [loopValues, if_pos hhead, ih htail (by omega), List.range_succ_eq_map,
            List.map_cons, List.map_map, Nat.zero_mul, Nat.add_zero]
          congr 1
          apply List.map_congr_left
          intro c _
          simp only [Function.comp_apply, Nat.succ_eq_add_one]
          rw [Nat.add_mul, Nat.one_mul, Nat.add_comm (c * stride), Nat.add_assoc]

/-- The value of the variable when the loop stops. -/
def loopEnd (cond : ℕ → Bool) (next : ℕ → ℕ) : ℕ → ℕ → ℕ
  | 0, j => j
  | fuel + 1, j => if cond j then loopEnd cond next fuel (next j) else j

theorem loopEnd_add {cond : ℕ → Bool} {stride rounds : ℕ} :
    ∀ {fuel start : ℕ}, (∀ c, cond (start + c * stride) = decide (c < rounds)) →
      rounds ≤ fuel → loopEnd cond (· + stride) fuel start = start + rounds * stride := by
  induction rounds with
  | zero =>
      intro fuel start hcond _
      have hstop : cond start = false := by simpa using hcond 0
      cases fuel with
      | zero => simp [loopEnd]
      | succ fuel => simp [loopEnd, hstop]
  | succ rounds ih =>
      intro fuel start hcond hfuel
      cases fuel with
      | zero => omega
      | succ fuel =>
          obtain ⟨hhead, htail⟩ := cond_next hcond
          rw [loopEnd, if_pos hhead, ih htail (by omega), Nat.add_mul, Nat.one_mul]
          omega

/-- A loop with state: the variable and the state when it stops. -/
def forLoop {σ : Type*} (cond : ℕ → Bool) (next : ℕ → ℕ) (body : σ → ℕ → σ) :
    ℕ → ℕ → σ → ℕ × σ
  | 0, j, s => (j, s)
  | fuel + 1, j, s =>
      if cond j then forLoop cond next body fuel (next j) (body s j) else (j, s)

/-- A loop is a fold over the values of its variable. -/
theorem forLoop_eq {σ : Type*} (cond : ℕ → Bool) (next : ℕ → ℕ) (body : σ → ℕ → σ) :
    ∀ fuel j s, forLoop cond next body fuel j s =
      (loopEnd cond next fuel j, (loopValues cond next fuel j).foldl body s)
  | 0, _, _ => rfl
  | fuel + 1, j, s => by
      rw [forLoop, loopEnd, loopValues]
      split
      · rw [forLoop_eq cond next body fuel, List.foldl_cons]
      · rfl

/-- The rounds of a loop with state: the state each starts from, and its value. -/
def rounds {σ ι : Type*} (body : σ → ι → σ) : σ → List ι → List (σ × ι)
  | _, [] => []
  | s, j :: l => (s, j) :: rounds body (body s j) l

section Rounds

variable {σ : Type*} {cond : ℕ → Bool} {next : ℕ → ℕ} {body : σ → ℕ → σ} {I : ℕ → σ → Prop}

/-- Every round starts from the invariant, with its condition true. -/
theorem mem_rounds (hstep : ∀ j s, cond j = true → I j s → I (next j) (body s j)) :
    ∀ {fuel j s}, I j s → ∀ r ∈ rounds body s (loopValues cond next fuel j),
      cond r.2 = true ∧ I r.2 r.1
  | 0, _, _, _, _, hr => by cases hr
  | fuel + 1, j, s, hI, r, hr => by
      rw [loopValues] at hr
      split at hr
      · rename_i hcond
        rcases List.mem_cons.mp hr with rfl | hr
        · exact ⟨hcond, hI⟩
        · exact mem_rounds hstep (hstep j s hcond hI) r hr
      · cases hr

/-- What the rounds put out in turn is `rest` of the start, if every round puts
out the head of `rest` and nothing of it is left when the loop stops.  The
variant `v` bounds the rounds. -/
theorem flatMap_rounds {α : Type*} {emit : σ × ℕ → List α} (rest : ℕ → σ → List α) (v : ℕ → ℕ)
    (hstep : ∀ j s, cond j = true → I j s → I (next j) (body s j))
    (hemit : ∀ j s, cond j = true → I j s → emit (s, j) ++ rest (next j) (body s j) = rest j s)
    (hstop : ∀ j s, cond j = false → I j s → rest j s = [])
    (hv : ∀ j s, cond j = true → I j s → v (next j) < v j) :
    ∀ {fuel j s}, I j s → v j < fuel →
      (rounds body s (loopValues cond next fuel j)).flatMap emit = rest j s
  | 0, _, _, _, hfuel => absurd hfuel (Nat.not_lt_zero _)
  | fuel + 1, j, s, hI, hfuel => by
      rw [loopValues]
      split
      · rename_i hcond
        have hdec := hv j s hcond hI
        rw [rounds, List.flatMap_cons,
          flatMap_rounds rest v hstep hemit hstop hv (hstep j s hcond hI) (by omega)]
        exact hemit j s hcond hI
      · rename_i hcond
        exact (hstop j s (Bool.eq_false_iff.mpr hcond) hI).symm

end Rounds

/-- The rounds of a loop that treats `width` cells at a time while they fit. -/
theorem unrolled_cond {width size : ℕ} (hwidth : 0 < width) (c : ℕ) :
    decide (0 + c * width + width ≤ size) = decide (c < size / width) := by
  rw [decide_eq_decide, Nat.zero_add, ← Nat.succ_mul, ← Nat.le_div_iff_mul_le hwidth]
  exact Nat.succ_le_iff

/-- An unrolled loop followed by its remainder loop visits every cell once, in
order. -/
theorem unrolled_eq_range {width size : ℕ} (hwidth : 0 < width) :
    (loopValues (fun i => decide (i + width ≤ size)) (· + width) size 0).flatMap
        (fun i => (List.range width).map (i + ·)) ++
      loopValues (fun i => decide (i < size)) (· + 1) size
        (loopEnd (fun i => decide (i + width ≤ size)) (· + width) size 0) =
      List.range size := by
  have hfuel : size / width ≤ size := Nat.div_le_self ..
  have hrest : ∀ c, decide (0 + size / width * width + c * 1 < size) =
      decide (c < size % width) := by
    intro c
    have h := Nat.div_add_mod' size width
    rw [decide_eq_decide]
    omega
  rw [loopValues_add (unrolled_cond hwidth) hfuel,
    loopEnd_add (unrolled_cond hwidth) hfuel,
    loopValues_add hrest (Nat.mod_le ..)]
  have hblocks : ∀ m, ((List.range m).map fun c => 0 + c * width).flatMap
      (fun i => (List.range width).map (i + ·)) = List.range (m * width) := by
    intro m
    induction m with
    | zero => rw [Nat.zero_mul]; rfl
    | succ m ih =>
        rw [List.range_succ, List.map_append, List.flatMap_append, ih, Nat.succ_mul,
          List.range_add]
        simp
  rw [hblocks]
  conv_rhs => rw [← Nat.div_add_mod' size width, List.range_add]
  simp

/-! ## In-place updates -/

section Update

variable {ι α : Type*}

/-- Update the cell `key k` by `change k`, for each `k` in turn. -/
def modifyAll (key : ι → ℕ) (change : ι → α → α) (ks : List ι) (xs : List α) : List α :=
  ks.foldl (fun acc k => acc.modify (key k) (change k)) xs

/-- Write `val k` to the cell `key k`, for each `k` in turn. -/
def writeAll (key : ι → ℕ) (val : ι → α) (ks : List ι) (xs : List α) : List α :=
  ks.foldl (fun acc k => acc.set (key k) (val k)) xs

/-- A cell of an array that is filled from another one. -/
theorem getD_map_of_getElem? {l : List ι} {p : ℕ} {k : ι} (f : ι → α) (d : α)
    (h : l[p]? = some k) : (l.map f).getD p d = f k := by
  rw [List.getD_eq_getElem?_getD, List.getElem?_map, h]
  rfl

theorem getD_map_range {n i : ℕ} (f : ℕ → α) (d : α) (hi : i < n) :
    ((List.range n).map f).getD i d = f i :=
  getD_map_of_getElem? f d (List.getElem?_range hi)

/-- A copy, cell by cell. -/
theorem map_getD_range (xs : List α) (d : α) :
    (List.range xs.length).map (xs.getD · d) = xs := by
  apply List.ext_getElem
  · rw [List.length_map, List.length_range]
  · intro i hi _
    rw [List.length_map, List.length_range] at hi
    rw [List.getElem_map, List.getElem_range]
    exact List.getD_eq_getElem xs d hi

@[simp] theorem modifyAll_nil (key : ι → ℕ) (change : ι → α → α) (xs : List α) :
    modifyAll key change [] xs = xs := rfl

@[simp] theorem modifyAll_cons (key : ι → ℕ) (change : ι → α → α) (k : ι) (ks : List ι)
    (xs : List α) :
    modifyAll key change (k :: ks) xs =
      modifyAll key change ks (xs.modify (key k) (change k)) := rfl

theorem modifyAll_append (key : ι → ℕ) (change : ι → α → α) (ks₁ ks₂ : List ι) (xs : List α) :
    modifyAll key change (ks₁ ++ ks₂) xs =
      modifyAll key change ks₂ (modifyAll key change ks₁ xs) := by
  rw [modifyAll, List.foldl_append]
  rfl

theorem writeAll_eq_modifyAll (key : ι → ℕ) (val : ι → α) (ks : List ι) (xs : List α) :
    writeAll key val ks xs = modifyAll key (fun k _ => val k) ks xs := by
  simp only [writeAll, modifyAll, List.set_eq_modify]

@[simp] theorem length_modifyAll (key : ι → ℕ) (change : ι → α → α) :
    ∀ (ks : List ι) (xs : List α), (modifyAll key change ks xs).length = xs.length
  | [], _ => rfl
  | k :: ks, xs => by rw [modifyAll_cons, length_modifyAll key change ks, List.length_modify]

@[simp] theorem length_writeAll (key : ι → ℕ) (val : ι → α) (ks : List ι) (xs : List α) :
    (writeAll key val ks xs).length = xs.length := by
  rw [writeAll_eq_modifyAll, length_modifyAll]

/-- A cell no position names keeps its content. -/
theorem getElem?_modifyAll_of_ne (key : ι → ℕ) (change : ι → α → α) {p : ℕ} :
    ∀ (ks : List ι) (xs : List α), (∀ k ∈ ks, key k ≠ p) →
      (modifyAll key change ks xs)[p]? = xs[p]?
  | [], _, _ => rfl
  | k :: ks, xs, h => by
      have hk : key k ≠ p := h k (List.mem_cons_self ..)
      rw [modifyAll_cons,
        getElem?_modifyAll_of_ne key change ks _ fun k' hk' => h k' (List.mem_cons_of_mem _ hk'),
        List.getElem?_modify]
      simp [hk]

/-- With distinct positions, a visited cell is updated exactly once. -/
theorem getElem?_modifyAll (key : ι → ℕ) (change : ι → α → α) :
    ∀ (ks : List ι) (xs : List α), (ks.map key).Nodup → ∀ k ∈ ks,
      (modifyAll key change ks xs)[key k]? = xs[key k]?.map (change k)
  | [], _, _, _, hk => by cases hk
  | k₀ :: ks, xs, hnd, k, hk => by
      rw [List.map_cons, List.nodup_cons] at hnd
      obtain ⟨hfresh, hnd⟩ := hnd
      rw [modifyAll_cons]
      rcases List.mem_cons.mp hk with rfl | hk
      · have hne : ∀ k' ∈ ks, key k' ≠ key k := by
          intro k' hk' he
          exact hfresh (he ▸ List.mem_map_of_mem hk')
        rw [getElem?_modifyAll_of_ne key change ks _ hne, List.getElem?_modify]
        simp
      · have hne : key k₀ ≠ key k := by
          intro he
          exact hfresh (he ▸ List.mem_map_of_mem hk)
        rw [getElem?_modifyAll key change ks _ hnd k hk, List.getElem?_modify]
        simp [hne]

/-- Updating every cell once is a map over the cells with their positions. -/
theorem modifyAll_range (change : ℕ → α → α) (xs : List α) :
    modifyAll id change (List.range xs.length) xs = xs.mapIdx change := by
  apply List.ext_getElem?
  intro p
  rw [List.getElem?_mapIdx]
  rcases Nat.lt_or_ge p xs.length with hp | hp
  · exact getElem?_modifyAll id change _ xs (by simpa using List.nodup_range) p
      (List.mem_range.mpr hp)
  · rw [List.getElem?_eq_none (by simpa using hp), List.getElem?_eq_none hp, Option.map_none]

/-- A round that updates `width` cells from `i` on. -/
theorem foldl_modifyAll_shift (change : ℕ → α → α) (width : ℕ) :
    ∀ (is : List ℕ) (xs : List α),
      is.foldl (fun acc i => modifyAll (i + ·) (fun k => change (i + k)) (List.range width) acc)
          xs =
        modifyAll id change (is.flatMap fun i => (List.range width).map (i + ·)) xs
  | [], _ => rfl
  | i :: is, xs => by
      rw [List.foldl_cons, foldl_modifyAll_shift change width is, List.flatMap_cons,
        modifyAll_append]
      congr 1
      rw [modifyAll, modifyAll, List.foldl_map]
      rfl

theorem getElem?_writeAll_of_ne (key : ι → ℕ) (val : ι → α) {p : ℕ} {ks : List ι}
    (xs : List α) (h : ∀ k ∈ ks, key k ≠ p) : (writeAll key val ks xs)[p]? = xs[p]? := by
  rw [writeAll_eq_modifyAll, getElem?_modifyAll_of_ne key _ ks xs h]

/-- With distinct positions in range, a written cell holds the value written. -/
theorem getElem?_writeAll (key : ι → ℕ) (val : ι → α) {ks : List ι} (xs : List α)
    (hnd : (ks.map key).Nodup) {k : ι} (hk : k ∈ ks) (hlt : key k < xs.length) :
    (writeAll key val ks xs)[key k]? = some (val k) := by
  rw [writeAll_eq_modifyAll, getElem?_modifyAll key _ ks xs hnd k hk,
    List.getElem?_eq_getElem hlt, Option.map_some]

theorem writeAll_congr {key key' : ι → ℕ} {val val' : ι → α} {ks : List ι}
    (h : ∀ k ∈ ks, key k = key' k ∧ val k = val' k) (xs : List α) :
    writeAll key val ks xs = writeAll key' val' ks xs := by
  refine List.foldl_ext _ _ _ fun xs k hk => ?_
  rw [(h k hk).1, (h k hk).2]

theorem writeAll_map {κ : Type*} (f : κ → ι) (key : ι → ℕ) (val : ι → α) (ks : List κ)
    (xs : List α) : writeAll key val (ks.map f) xs = writeAll (key ∘ f) (val ∘ f) ks xs :=
  List.foldl_map

/-- A loop in place is the loop that reads a copy, if no round reads a cell an earlier
round has written. -/
theorem foldl_set_eq_writeAll (key src : ι → ℕ) (change : ι → α → α) (d : α) :
    ∀ {ks : List ι} {xs : List α}, ks.Pairwise (fun k k' => key k ≠ src k') →
      ks.foldl (fun xs k => xs.set (key k) (change k (xs.getD (src k) d))) xs =
        writeAll key (fun k => change k (xs.getD (src k) d)) ks xs := by
  intro ks
  induction ks with
  | nil =>
      intro xs _
      rfl
  | cons k ks ih =>
      intro xs h
      obtain ⟨hk, hks⟩ := List.pairwise_cons.mp h
      rw [List.foldl_cons, ih hks]
      refine (writeAll_congr (fun k' hk' => ⟨rfl, ?_⟩) _).trans rfl
      rw [List.getD_eq_getElem?_getD, List.getElem?_set_ne (hk k' hk'),
        ← List.getD_eq_getElem?_getD]

end Update

/-! ## Row-major arrays -/

section RowMajor

variable {α : Type*}

/-- The array filled by `for (i < rows) for (j < cols) a[i * cols + j] = f i j`. -/
def rowMajor (rows cols : ℕ) (f : ℕ → ℕ → α) : List α :=
  (List.range rows).flatMap fun i => (List.range cols).map (f i)

theorem rowMajor_succ (rows cols : ℕ) (f : ℕ → ℕ → α) :
    rowMajor (rows + 1) cols f = rowMajor rows cols f ++ (List.range cols).map (f rows) := by
  rw [rowMajor, List.range_succ, List.flatMap_append, List.flatMap_singleton]
  rfl

@[simp] theorem length_rowMajor (rows cols : ℕ) (f : ℕ → ℕ → α) :
    (rowMajor rows cols f).length = rows * cols := by
  induction rows with
  | zero => simp [rowMajor]
  | succ rows ih =>
      rw [rowMajor_succ, List.length_append, ih, List.length_map, List.length_range, Nat.succ_mul]

theorem mem_rowMajor {rows cols : ℕ} {f : ℕ → ℕ → α} {a : α} :
    a ∈ rowMajor rows cols f ↔ ∃ i < rows, ∃ j < cols, f i j = a := by
  simp [rowMajor]

theorem rowMajor_eq_map (rows cols : ℕ) (f : ℕ → ℕ → α) :
    rowMajor rows cols f = (rowMajor rows cols Prod.mk).map fun p => f p.1 p.2 := by
  rw [rowMajor, rowMajor, List.map_flatMap]
  simp only [List.map_map, Function.comp_def]

/-- The positions of a row-major array, in the order they are filled. -/
theorem rowMajor_positions (rows cols : ℕ) :
    rowMajor rows cols (fun i j => i * cols + j) = List.range (rows * cols) := by
  induction rows with
  | zero => rw [Nat.zero_mul]; rfl
  | succ rows ih => rw [rowMajor_succ, ih, Nat.succ_mul, List.range_add]

theorem rowMajor_congr {rows cols : ℕ} {f g : ℕ → ℕ → α}
    (h : ∀ i < rows, ∀ j < cols, f i j = g i j) : rowMajor rows cols f = rowMajor rows cols g := by
  induction rows with
  | zero => rfl
  | succ rows ih =>
      rw [rowMajor_succ, rowMajor_succ, ih fun i hi => h i (Nat.lt_succ_of_lt hi)]
      congr 1
      exact List.map_congr_left fun j hj => h rows (Nat.lt_succ_self rows) j (List.mem_range.mp hj)

theorem map_rowMajor {β : Type*} (rows cols : ℕ) (f : ℕ → ℕ → α) (g : α → β) :
    (rowMajor rows cols f).map g = rowMajor rows cols fun i j => g (f i j) := by
  rw [rowMajor, rowMajor, List.map_flatMap]
  simp only [List.map_map]
  rfl

theorem take_rowMajor (rows cols : ℕ) (f : ℕ → ℕ → α) :
    (rowMajor (rows + 1) cols f).take (rows * cols) = rowMajor rows cols f := by
  rw [rowMajor_succ]
  exact List.take_left' (length_rowMajor rows cols f)

theorem drop_rowMajor (rows cols : ℕ) (f : ℕ → ℕ → α) :
    (rowMajor (rows + 1) cols f).drop (rows * cols) = (List.range cols).map (f rows) := by
  rw [rowMajor_succ]
  exact List.drop_left' (length_rowMajor rows cols f)

/-- A cell of a row lies in the array. -/
theorem cell_lt {rows cols i j : ℕ} (hi : i < rows) (hj : j < cols) :
    i * cols + j < rows * cols := by
  rw [Nat.mul_comm i]
  exact Nat.mul_add_lt_mul_of_lt_of_lt hi hj

/-- The position of a cell gives its row and its column. -/
theorem cell_inj {cols i j i' j' : ℕ} (hj : j < cols) (hj' : j' < cols)
    (h : i * cols + j = i' * cols + j') : i = i' ∧ j = j' := by
  have hrow : i = i' := by
    have hdiv := congrArg (· / cols) h
    rwa [Nat.mul_comm, Nat.mul_add_div (by omega), Nat.div_eq_of_lt hj, Nat.mul_comm i',
      Nat.mul_add_div (by omega), Nat.div_eq_of_lt hj'] at hdiv
  subst hrow
  exact ⟨rfl, Nat.add_left_cancel h⟩

theorem getElem?_rowMajor (cols : ℕ) (f : ℕ → ℕ → α) {j : ℕ} (hj : j < cols) :
    ∀ {rows i : ℕ}, i < rows → (rowMajor rows cols f)[i * cols + j]? = some (f i j) := by
  intro rows
  induction rows with
  | zero =>
      intro i hi
      omega
  | succ rows ih =>
      intro i hi
      rw [rowMajor_succ]
      rcases Nat.lt_succ_iff_lt_or_eq.mp hi with hi | rfl
      · have hcell : i * cols + j < (rowMajor rows cols f).length := by
          rw [length_rowMajor]
          exact cell_lt hi hj
        rw [List.getElem?_append_left hcell, ih hi]
      · rw [List.getElem?_append_right (by rw [length_rowMajor]; omega), length_rowMajor,
          Nat.add_sub_cancel_left, List.getElem?_map, List.getElem?_range hj]
        rfl

theorem getD_rowMajor {rows cols i j : ℕ} (f : ℕ → ℕ → α) (d : α) (hi : i < rows)
    (hj : j < cols) : (rowMajor rows cols f).getD (i * cols + j) d = f i j := by
  rw [List.getD_eq_getElem?_getD, getElem?_rowMajor cols f hj hi]
  rfl

/-- A count over the indices of a list and some more is one over the list, if
the others do not count. -/
theorem countP_range_eq (q : α → Bool) :
    ∀ (l : List α) {n : ℕ} {p : ℕ → Bool}, l.length ≤ n →
      (∀ j < n, p j = (l[j]?.map q).getD false) → (List.range n).countP p = l.countP q
  | [], n, p, _, hp => by
      refine List.countP_eq_zero.mpr ?_
      intro j hj
      rw [hp j (List.mem_range.mp hj)]
      exact Bool.false_ne_true
  | a :: l, 0, p, hlen, _ => by simp at hlen
  | a :: l, n + 1, p, hlen, hp => by
      have hrest := countP_range_eq q l (n := n) (p := fun j => p (j + 1))
        (Nat.le_of_succ_le_succ hlen) fun j hj => hp (j + 1) (Nat.succ_lt_succ hj)
      rw [List.range_succ_eq_map, List.countP_cons, List.countP_map, List.countP_cons,
        hp 0 (Nat.succ_pos n)]
      exact congrArg₂ _ hrest rfl

/-- A count over an array is the sum of the counts over its rows. -/
theorem countP_rowMajor (q : α → Bool) (rows cols : ℕ) (f : ℕ → ℕ → α) :
    (rowMajor rows cols f).countP q =
      ((List.range rows).map fun i => (List.range cols).countP fun j => q (f i j)).sum := by
  rw [rowMajor, List.countP_flatMap]
  congr 1
  exact List.map_congr_left fun i _ => List.countP_map ..

end RowMajor

/-! ## Loops that may fail -/

/-- A loop whose rounds all succeed succeeds with their results. -/
theorem mapM_eq_ok {ι α ε : Type} {f : ι → Except ε α} {g : ι → α} :
    ∀ {l : List ι}, (∀ i ∈ l, f i = .ok (g i)) → l.mapM f = .ok (l.map g)
  | [], _ => rfl
  | i :: l, h => by
      rw [List.mapM_cons, h i (List.mem_cons_self ..),
        mapM_eq_ok fun j hj => h j (List.mem_cons_of_mem _ hj)]
      rfl

/-- A loop whose every round succeeds and keeps an invariant of the number of
rounds runs to its end and keeps it. -/
theorem foldlM_ok {σ ι ε : Type} {f : σ → ι → Except ε σ} :
    ∀ (l : List ι) {I : ℕ → σ → Prop} {s : σ}, I 0 s →
      (∀ j a s, l[j]? = some a → I j s → ∃ s', f s a = .ok s' ∧ I (j + 1) s') →
      ∃ s', l.foldlM f s = .ok s' ∧ I l.length s'
  | [], _, s, hs, _ => ⟨s, rfl, hs⟩
  | a :: l, I, s, hs, hstep => by
      obtain ⟨s₁, hround, hs₁⟩ := hstep 0 a s rfl hs
      obtain ⟨s', hrest, hs'⟩ :=
        foldlM_ok l (I := fun j => I (j + 1)) hs₁ fun j b s hb => hstep (j + 1) b s hb
      refine ⟨s', ?_, hs'⟩
      rw [List.foldlM_cons, hround]
      exact hrest

/-- A loop that appends.  `g xs` is the state with `xs` collected. -/
theorem foldlM_appending {σ ι α ε : Type} {step : σ → ι → Except ε σ} (g : List α → σ)
    (f : ι → List α) :
    ∀ (items : List ι) (xs : List α),
      (∀ i ∈ items, ∀ xs, step (g xs) i = .ok (g (xs ++ f i))) →
      items.foldlM step (g xs) = .ok (g (xs ++ items.flatMap f))
  | [], xs, _ => by
      rw [List.flatMap_nil, List.append_nil]
      rfl
  | i :: items, xs, h => by
      have ih := foldlM_appending g f items (xs ++ f i) fun j hj =>
        h j (List.mem_cons_of_mem _ hj)
      rw [List.foldlM_cons, h i (List.mem_cons_self ..), List.flatMap_cons, ← List.append_assoc]
      exact ih

/-- A loop that puts one value behind the others per round. -/
theorem foldlM_pushing {ι α ε : Type} (f : ι → Except ε α) :
    ∀ (items : List ι) (xs : List α),
      items.foldlM (fun xs i => do
        let x ← f i
        return xs ++ [x]) xs = (items.mapM f).map fun ys => xs ++ ys
  | [], xs => by
      rw [List.mapM_nil, List.foldlM_nil]
      show Except.ok xs = .ok (xs ++ [])
      rw [List.append_nil]
  | i :: items, xs => by
      rw [List.foldlM_cons, List.mapM_cons]
      cases f i with
      | error e => rfl
      | ok x =>
          have ih := foldlM_pushing f items (xs ++ [x])
          refine ih.trans ?_
          simp only [bind, Except.bind]
          cases items.mapM f with
          | error e => rfl
          | ok ys =>
              show Except.ok (xs ++ [x] ++ ys) = .ok (xs ++ x :: ys)
              rw [List.append_assoc, List.singleton_append]

/-- A loop ends where its first round fails. -/
theorem foldlM_head_error {σ ι ε : Type} {step : σ → ι → Except ε σ} {e : ε} {i : ι}
    {items rest : List ι} (hitems : items = i :: rest) (s : σ) (hstep : step s i = .error e) :
    items.foldlM step s = .error e := by
  rw [hitems, List.foldlM_cons, hstep]
  rfl

/-- A loop whose rounds do nothing. -/
theorem foldlM_idle {σ ι ε : Type} {step : σ → ι → Except ε σ} (s : σ)
    (hstep : ∀ i, step s i = .ok s) (items : List ι) : items.foldlM step s = .ok s := by
  induction items with
  | nil => rfl
  | cons i items ih =>
      rw [List.foldlM_cons, hstep]
      exact ih

/-- What holds at the start and is kept by every step holds after a run of steps,
each of which may be impossible. -/
theorem foldlM_run_induction {σ ε : Type} {step : σ → ε → Option σ} {s : σ}
    {motive : List ε → σ → Prop} (nil : motive [] s)
    (kept : ∀ events t e u, motive events t → step t e = some u → motive (events ++ [e]) u) :
    ∀ {events : List ε} {t : σ}, events.foldlM step s = some t → motive events t := by
  intro events
  induction events using List.reverseRecOn with
  | nil =>
      intro t h
      cases h
      exact nil
  | append_singleton events e ih =>
      intro u h
      rw [List.foldlM_append] at h
      obtain ⟨t, ht, hstep⟩ := Option.bind_eq_some_iff.mp h
      rw [List.foldlM_cons] at hstep
      obtain ⟨u', hu', hdone⟩ := Option.bind_eq_some_iff.mp hstep
      cases hdone
      exact kept events t e u (ih ht) hu'

end Sectric.Lib
