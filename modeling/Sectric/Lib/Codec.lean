import Mathlib.Data.List.Basic

/-!
# Readers that undo writers

A reader takes a value off the front of its input.  It reads what a writer wrote
(`Reads`) if it takes exactly that off whatever follows.  The law composes: many
values in a row, and a value behind its own count, are read by the readers built
the same way.
-/

namespace Sectric.Lib

variable {σ α : Type}

/-- A reader yields a value and the rest of the input. -/
abbrev Reader (σ α : Type) := List σ → Except String (α × List σ)

/-- The reader takes what was written for `a`, and no more. -/
def Reads (read : Reader σ α) (write : α → List σ) (a : α) : Prop :=
  ∀ rest, read (write a ++ rest) = .ok (a, rest)

/-- The next `n` cells. -/
def readCells (n : ℕ) : Reader σ (List σ) := fun input =>
  if input.length < n then .error "read past the end of the input"
  else .ok (input.take n, input.drop n)

/-- `n` values, one after the other. -/
def readMany (read : Reader σ α) : ℕ → Reader σ (List α)
  | 0, input => .ok ([], input)
  | n + 1, input => do
      let (a, input) ← read input
      let (as, input) ← readMany read n input
      return (a :: as, input)

/-- A count, and what it is the count of. -/
def readCounted (readCount : Reader σ ℕ) (readBody : ℕ → Reader σ α) : Reader σ α := fun input => do
  let (n, input) ← readCount input
  readBody n input

theorem reads_cells (xs : List σ) : Reads (readCells xs.length) id xs := by
  intro rest
  rw [readCells, id, if_neg (by simp), List.take_left, List.drop_left]

/-- Values written one after the other are read one after the other. -/
theorem Reads.many {read : Reader σ α} {write : α → List σ} :
    ∀ {as : List α}, (∀ a ∈ as, Reads read write a) →
      Reads (readMany read as.length) (List.flatMap write) as
  | [], _ => fun rest => rfl
  | a :: as, h => by
      intro rest
      have ha := h a (List.mem_cons_self ..)
      have has := Reads.many fun b hb => h b (List.mem_cons_of_mem _ hb)
      rw [List.flatMap_cons, List.append_assoc, List.length_cons, readMany, ha]
      simp only [bind, Except.bind, has rest]
      rfl

/-- A value behind its own count. -/
theorem Reads.counted {readCount : Reader σ ℕ} {writeCount : ℕ → List σ}
    {readBody : ℕ → Reader σ α} {write : α → List σ} {size : α → ℕ} {a : α}
    (hcount : Reads readCount writeCount (size a)) (hbody : Reads (readBody (size a)) write a) :
    Reads (readCounted readCount readBody) (fun a => writeCount (size a) ++ write a) a := by
  intro rest
  simp only [readCounted]
  rw [List.append_assoc, hcount]
  exact hbody rest

/-- A reader of another kind of value, followed by a conversion. -/
theorem Reads.convert {β : Type} {read : Reader σ α} {write : α → List σ} {f : α → β} {g : β → α}
    {b : β} (h : Reads read write (g b)) (hfg : f (g b) = b) :
    Reads (fun input => (read input).map fun p => (f p.1, p.2)) (write ∘ g) b := by
  intro rest
  show (read (write (g b) ++ rest)).map _ = _
  rw [h rest]
  simp [Except.map, hfg]

/-! ## Values of one width -/

/-- Values written one after the other, each in `width` cells, are cut out again at the
multiples of `width`. -/
theorem map_cut_flatMap {write : α → List σ} {width : ℕ} :
    ∀ {as : List α}, (∀ a ∈ as, (write a).length = width) →
      (List.range as.length).map (fun i => ((as.flatMap write).drop (i * width)).take width) =
        as.map write := by
  intro as
  induction as with
  | nil =>
      intro _
      rfl
  | cons a as ih =>
      intro h
      obtain ⟨ha, has⟩ := List.forall_mem_cons.mp h
      rw [List.length_cons, List.range_succ_eq_map, List.map_cons, List.map_cons, List.map_map,
        List.flatMap_cons]
      congr 1
      · rw [Nat.zero_mul, List.drop_zero]
        exact List.take_left' ha
      · rw [← ih has]
        apply List.map_congr_left
        intro i _
        have hdrop : (write a ++ as.flatMap write).drop ((i + 1) * width) =
            (as.flatMap write).drop (i * width) := by
          rw [Nat.succ_mul, Nat.add_comm, ← List.drop_drop, List.drop_left' ha]
        exact congrArg (List.take width) hdrop

theorem length_flatMap_width {write : α → List σ} {width : ℕ} {as : List α}
    (h : ∀ a ∈ as, (write a).length = width) : (as.flatMap write).length = width * as.length := by
  induction as with
  | nil => rfl
  | cons a as ih =>
      obtain ⟨ha, has⟩ := List.forall_mem_cons.mp h
      rw [List.flatMap_cons, List.length_append, ha, ih has, List.length_cons, Nat.mul_succ,
        Nat.add_comm]

end Sectric.Lib
