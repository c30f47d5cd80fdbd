import Sectric.Lib.Masking
import Sectric.Psi.Count

/-!
# The loop that assembles the messages

The loop over the bins runs a second variable `j` through the active bins, and
reads `idxs[j]` in every round, also once `j` has passed the last of them.  What
it finds there is whatever the memory holds.  `assemble` is the loop over such a
memory, with a log of its reads.

The reads stay inside exactly when the last bin is active.  For every memory the
loop puts one mask into each row, and the other message of the row is that mask
plus an amount the masks do not enter.  So the messages a sender chooses are its
masks shifted by fixed amounts.
-/

namespace Sectric

open Lib

/-! ## The loop over a memory -/

/-- What is behind the ends of `idxs` and `ck`. -/
structure PastEnd where
  idxs : ℕ → ℕ
  ck : ℕ → Block

/-- What the receiver's loop runs on, its masks apart. -/
structure MergeInput where
  weight : Word → Word
  idxs : List ℕ
  ck : List Block
  ans : List Byte
  past : PastEnd

/-- A read of `idxs[j]` or of `ck[j]`. -/
inductive MergeRead where
  | idxs (j : ℕ)
  | ck (j : ℕ)

/-- The index of a read. -/
def MergeRead.index : MergeRead → ℕ
  | .idxs j => j
  | .ck j => j

/-- The variables of the loop, and the reads so far. -/
structure Assembly where
  j : ℕ
  ot : List Block × List Block
  reads : List MergeRead

/-- `idxs[j]`. -/
def MergeInput.idxAt (x : MergeInput) (j : ℕ) : ℕ := x.idxs.getD j (x.past.idxs j)

/-- `block_0` in a round that finds an active bin. -/
def MergeInput.block0 (x : MergeInput) (j : ℕ) : Block :=
  makeBlock 0 (x.weight (x.ck.getD j (x.past.ck j)).low)

/-- A round of the loop. -/
def Assembly.round (x : MergeInput) (otR : ℕ → Block) (s : Assembly) (i : ℕ) : Assembly :=
  let ot := otPush s.ot (x.ans.getD i 0) (otR i)
  if x.idxAt s.j = i then
    { j := s.j + 1
      ot := otPush ot (1 - x.ans.getD i 0) (addWithCarry (otR i) (x.block0 s.j))
      reads := s.reads ++ [.idxs s.j, .ck s.j] }
  else
    { j := s.j
      ot := otPush ot (1 - x.ans.getD i 0) (addWithCarry (otR i) 0)
      reads := s.reads ++ [.idxs s.j] }

/-- The loop over the bins. -/
def assemble (x : MergeInput) (otR : ℕ → Block) (nbins : ℕ) : Assembly :=
  (List.range nbins).foldl (Assembly.round x otR) { j := 0, ot := ([], []), reads := [] }

theorem assemble_succ (x : MergeInput) (otR : ℕ → Block) (n : ℕ) :
    assemble x otR (n + 1) = (assemble x otR n).round x otR n := by
  rw [assemble, List.range_succ, List.foldl_append]
  rfl

/-- Every read is of a cell the arrays have. -/
def Assembly.InRange (s : Assembly) (size : ℕ) : Prop := ∀ r ∈ s.reads, r.index < size

section Loop

variable {x : MergeInput} {otR : ℕ → Block}

/-- The first read of a round. -/
theorem idxs_mem_reads_round (s : Assembly) (i : ℕ) :
    .idxs s.j ∈ (s.round x otR i).reads := by
  rw [Assembly.round]
  split <;> simp

theorem reads_subset_round (s : Assembly) (i : ℕ) : s.reads ⊆ (s.round x otR i).reads := by
  rw [Assembly.round]
  split <;> simp

theorem idxAt_of_lt {j : ℕ} (hj : j < x.idxs.length) : x.idxs[j]? = some (x.idxAt j) := by
  rw [MergeInput.idxAt, List.getD_eq_getElem _ _ hj, List.getElem?_eq_getElem hj]

/-- While the reads stay inside, `j` stands at the first active bin that is left. -/
theorem PointerAt.round {k : ℕ} {s : Assembly} (hsorted : x.idxs.Pairwise (· < ·))
    (h : PointerAt x.idxs k s.j) (hj : s.j < x.idxs.length) :
    PointerAt x.idxs (k + 1) (s.round x otR k).j := by
  have hcell := idxAt_of_lt hj
  rw [Assembly.round]
  split
  · rename_i hmatch
    exact h.hit hsorted (hcell.trans (congrArg some hmatch))
  · rename_i hmiss
    refine h.miss hsorted ?_
    rw [hcell]
    exact fun he => hmiss (Option.some.inj he)

/-- After reads that were all inside, `j` stands at the first active bin that is
left. -/
theorem pointerAt_of_inRange (hsorted : x.idxs.Pairwise (· < ·)) :
    ∀ {n : ℕ}, (assemble x otR n).InRange x.idxs.length →
      PointerAt x.idxs n (assemble x otR n).j
  | 0, _ => PointerAt.zero x.idxs
  | n + 1, h => by
      rw [assemble_succ] at h ⊢
      have hprev : (assemble x otR n).InRange x.idxs.length :=
        fun r hr => h r (reads_subset_round _ n hr)
      exact (pointerAt_of_inRange hsorted hprev).round hsorted
        (h _ (idxs_mem_reads_round (assemble x otR n) n))

/-- If the last bin is empty, the last round at the latest reads behind the end. -/
theorem last_mem_of_inRange (hsorted : x.idxs.Pairwise (· < ·)) {n : ℕ} (hn : 0 < n)
    (hlt : ∀ b ∈ x.idxs, b < n) (h : (assemble x otR n).InRange x.idxs.length) :
    n - 1 ∈ x.idxs := by
  obtain ⟨m, rfl⟩ : ∃ m, n = m + 1 := ⟨n - 1, by omega⟩
  rw [assemble_succ] at h
  have hprev : (assemble x otR m).InRange x.idxs.length :=
    fun r hr => h r (reads_subset_round _ m hr)
  have hj : (assemble x otR m).j < x.idxs.length :=
    h _ (idxs_mem_reads_round (assemble x otR m) m)
  have hge := (pointerAt_of_inRange hsorted hprev).above _ le_rfl hj
  have hmem : x.idxs.getD (assemble x otR m).j 0 ∈ x.idxs := getD_mem hj
  have hle := hlt _ hmem
  have heq : x.idxs.getD (assemble x otR m).j 0 = m := by omega
  exact heq ▸ hmem

/-- Before round `k` all reads were inside and `j` is where it should be, if the
bin `n - 1` is active and `k` is at most `n`. -/
theorem inRange_of_last_mem (hsorted : x.idxs.Pairwise (· < ·)) {n : ℕ} (hlast : n - 1 ∈ x.idxs) :
    ∀ {k : ℕ}, k ≤ n →
      (assemble x otR k).InRange x.idxs.length ∧ PointerAt x.idxs k (assemble x otR k).j
  | 0, _ => ⟨fun _ hr => (List.not_mem_nil hr).elim, PointerAt.zero x.idxs⟩
  | k + 1, hk => by
      obtain ⟨hrange, hpointer⟩ := inRange_of_last_mem hsorted hlast (Nat.le_of_succ_le hk)
      -- the bin `n - 1` is not below `k`, so it is still ahead
      have hj : (assemble x otR k).j < x.idxs.length := by
        obtain ⟨p, hp, hget⟩ := List.mem_iff_getElem.mp hlast
        by_contra hge
        have hbelow := hpointer.below p (by omega)
        rw [List.getD_eq_getElem _ _ hp, hget] at hbelow
        omega
      rw [assemble_succ]
      refine ⟨?_, hpointer.round hsorted hj⟩
      intro r hr
      rw [Assembly.round] at hr
      split at hr
      · rcases List.mem_append.mp hr with hr | hr
        · exact hrange r hr
        · rcases List.mem_pair.mp hr with rfl | rfl
          · exact hj
          · exact hj
      · rcases List.mem_append.mp hr with hr | hr
        · exact hrange r hr
        · rw [List.mem_singleton.mp hr]
          exact hj

end Loop

/-- With reads that stay inside, or find no match behind the end, the loop is the
one that takes such a read for no match. -/
theorem assemble_eq_otMessages {x : MergeInput} {otR : ℕ → Block}
    (hck : x.ck.length = x.idxs.length) {n : ℕ}
    (hread : ∀ k < n, (assemble x otR k).j < x.idxs.length ∨
      x.past.idxs (assemble x otR k).j ≠ k) :
    ((assemble x otR n).j, (assemble x otR n).ot) =
      otMessages n x.weight x.idxs x.ck x.ans otR := by
  induction n with
  | zero => rfl
  | succ n ih =>
      have hprev := ih fun k hk => hread k (Nat.lt_succ_of_lt hk)
      have hround : otMessages (n + 1) x.weight x.idxs x.ck x.ans otR =
          if x.idxs[(assemble x otR n).j]? = some n then
            ((assemble x otR n).j + 1,
              otPush (otPush (assemble x otR n).ot (x.ans.getD n 0) (otR n)) (1 - x.ans.getD n 0)
                (addWithCarry (otR n)
                  (makeBlock 0 (x.weight (x.ck.getD (assemble x otR n).j 0).low))))
          else
            ((assemble x otR n).j,
              otPush (otPush (assemble x otR n).ot (x.ans.getD n 0) (otR n)) (1 - x.ans.getD n 0)
                (addWithCarry (otR n) 0)) := by
        rw [otMessages, List.range_succ, List.foldl_append, ← otMessages, ← hprev]
        rfl
      rw [hround, assemble_succ, Assembly.round]
      by_cases hj : (assemble x otR n).j < x.idxs.length
      · have hblock : x.block0 (assemble x otR n).j =
            makeBlock 0 (x.weight (x.ck.getD (assemble x otR n).j 0).low) := by
          rw [MergeInput.block0, List.getD_eq_getElem?_getD, List.getD_eq_getElem?_getD,
            List.getElem?_eq_getElem (hck ▸ hj)]
          rfl
        rw [idxAt_of_lt hj, hblock]
        simp only [Option.some.injEq]
        split <;> rfl
      · have hmiss : x.idxs[(assemble x otR n).j]? = none :=
          List.getElem?_eq_none (not_lt.mp hj)
        have hpast : x.idxAt (assemble x otR n).j ≠ n := by
          rw [MergeInput.idxAt, List.getD_eq_getElem?_getD, hmiss]
          exact (hread n (Nat.lt_succ_self n)).resolve_left hj
        rw [hmiss, if_neg hpast]
        rfl

/-- The loop reads inside its arrays exactly when the last bin is active. -/
theorem assemble_inRange_iff {x : MergeInput} (hne : x.idxs ≠ [])
    (hsorted : x.idxs.Pairwise (· < ·)) {n : ℕ} (hlt : ∀ b ∈ x.idxs, b < n) (otR : ℕ → Block) :
    (∀ r ∈ (assemble x otR n).reads, r.index < x.idxs.length) ↔ n - 1 ∈ x.idxs := by
  obtain ⟨b, hb⟩ := List.exists_mem_of_ne_nil _ hne
  have hn : 0 < n := Nat.zero_lt_of_lt (hlt b hb)
  exact ⟨last_mem_of_inRange hsorted hn hlt, fun h => (inRange_of_last_mem hsorted h le_rfl).1⟩

/-- A memory of zeros. -/
def zeroMemory : PastEnd where
  idxs _ := 0
  ck _ := 0

theorem assemble_inRange_iff_threeBins :
    (∀ r ∈ (assemble ⟨fun _ => 1, [0, 2], [5, 6], [0, 1, 0], zeroMemory⟩
      (fun _ => 9) 3).reads, r.index < 2) ↔ 3 - 1 ∈ [0, 2] :=
  assemble_inRange_iff (x := ⟨fun _ => 1, [0, 2], [5, 6], [0, 1, 0], zeroMemory⟩) (by decide)
    (by decide) (by decide) (fun _ => 9)

/-- Four entries for eight bins. -/
def lowEntries : List Block := [0, 1, 2, 3]

/-- The cuckoo table of the four entries fills the bins 0 to 3 of eight, and the
loop reads behind the four active bins, whatever is there. -/
theorem assemble_reads_past_lowEntries :
    ∃ t ck, receiverTable twoVertices shiftHash
        (receiverVec twoVertices countingPadding.padding lowEntries) = .ok t ∧
      t.asRawVectorNoID = .ok ([0, 1, 2, 3], ck) ∧ twoVertices.nbins = 8 ∧
      ∀ weight ans past otR,
        ¬ ∀ r ∈ (assemble ⟨weight, [0, 1, 2, 3], ck, ans, past⟩ otR 8).reads, r.index < 4 := by
  have hraw : ((receiverTable twoVertices shiftHash
      (receiverVec twoVertices countingPadding.padding lowEntries)).toOption.bind
        fun t => t.asRawVectorNoID.toOption).map Prod.fst = some [0, 1, 2, 3] := by
    decide +kernel
  obtain ⟨⟨idxs, ck⟩, hbind, hidxs⟩ := Option.map_eq_some_iff.mp hraw
  obtain ⟨t, ht, hck⟩ := Option.bind_eq_some_iff.mp hbind
  have hok : ∀ {α : Type} {e : Except String α} {a : α}, e.toOption = some a → e = .ok a := by
    intro α e a he
    cases e with
    | error e => cases he
    | ok b => exact congrArg _ (Option.some.inj he)
  refine ⟨t, ck, hok ht, ?_, by decide +kernel, ?_⟩
  · rw [hok hck, ← hidxs]
  · intro weight ans past otR h
    have hsorted : ([0, 1, 2, 3] : List ℕ).Pairwise (· < ·) := by decide
    have hlt : ∀ b ∈ ([0, 1, 2, 3] : List ℕ), b < 8 := by decide
    have hempty : 8 - 1 ∉ ([0, 1, 2, 3] : List ℕ) := by decide
    exact hempty (last_mem_of_inRange hsorted (by decide) hlt h)

/-! ## The messages the sender chooses -/

section View

/-- `j` before round `i`. -/
def MergeInput.pointer (x : MergeInput) : ℕ → ℕ
  | 0 => 0
  | i + 1 => if x.idxAt (x.pointer i) = i then x.pointer i + 1 else x.pointer i

variable (x : MergeInput)

/-- What the second message of row `i` has on top of the mask. -/
def MergeInput.amount (i : ℕ) : Block :=
  if x.idxAt (x.pointer i) = i then x.block0 (x.pointer i) else 0

/-- The message for the bit `bit` in row `i`, less the mask. -/
def MergeInput.shift (bit : Byte) (i : ℕ) : Block :=
  if x.ans.getD i 0 = bit then 0 else x.amount i

variable {x} {otR : ℕ → Block}

variable (otR) in
/-- The masks do not enter the second variable. -/
theorem assemble_j (n : ℕ) : (assemble x otR n).j = x.pointer n := by
  induction n with
  | zero => rfl
  | succ n ih =>
      rw [assemble_succ, Assembly.round, MergeInput.pointer, ← ih]
      split <;> rfl

theorem ot_assemble_succ (n : ℕ) :
    (assemble x otR (n + 1)).ot = otPush (otPush (assemble x otR n).ot (x.ans.getD n 0) (otR n))
      (1 - x.ans.getD n 0) (otR n + x.amount n) := by
  rw [assemble_succ, Assembly.round, MergeInput.amount, ← assemble_j otR n]
  split <;> rw [addWithCarry_eq]

variable (otR) in
theorem length_assemble (hans : AllBits x.ans) (n : ℕ) :
    (assemble x otR n).ot.1.length = n ∧ (assemble x otR n).ot.2.length = n := by
  induction n with
  | zero => exact ⟨rfl, rfl⟩
  | succ n ih =>
      rw [ot_assemble_succ]
      exact length_otPush_both ih.1 ih.2 (hans n) _ _

/-- Every message of a row is the mask of the row plus a fixed amount. -/
theorem otCell_assemble (hans : AllBits x.ans) {bit : Byte} (hbit : IsBit bit) {n i : ℕ}
    (hi : i < n) : otCell (assemble x otR n).ot bit i = otR i + x.shift bit i := by
  induction n with
  | zero => exact absurd hi (Nat.not_lt_zero i)
  | succ n ih =>
      obtain ⟨hlen₁, hlen₂⟩ := length_assemble otR hans n
      rw [ot_assemble_succ]
      rcases Nat.lt_succ_iff_lt_or_eq.mp hi with hi | rfl
      · rw [otCell_otPush_both_of_lt hlen₁ hlen₂ (hans n) _ _ bit hi, ih hi]
      · rw [otCell_otPush_both hlen₁ hlen₂ (hans i) _ _ hbit, MergeInput.shift]
        split
        · rw [add_zero]
        · rfl

end View

/-- `ot_r[i]`, with `n` masks. -/
def maskCell {n : ℕ} (r : Fin n → Block) (i : ℕ) : Block := if h : i < n then r ⟨i, h⟩ else 0

/-- The messages `ot[choices[i]][i]` that a sender with the given choices receives. -/
def senderView {n : ℕ} (x : MergeInput) (choices : List Byte) (r : Fin n → Block) :
    Fin n → Block :=
  fun i => otCell (assemble x (maskCell r) n).ot (choices.getD i 0) i

theorem senderView_isMasked {x : MergeInput} (hans : AllBits x.ans) {choices : List Byte}
    (hchoices : AllBits choices) (n : ℕ) : IsMasked (senderView (n := n) x choices) := by
  refine ⟨fun i => x.shift (choices.getD i 0) i, ?_⟩
  intro r
  funext i
  rw [senderView, otCell_assemble hans (hchoices i) i.isLt, maskCell, dif_pos i.isLt]
  rfl

/-- In any two situations of the receiver the sender gets the same messages up
to a bijection of the masks, and so every event with the same number of masks. -/
theorem senderView_hides {n : ℕ} {x x' : MergeInput} (hans : AllBits x.ans)
    (hans' : AllBits x'.ans) {choices : List Byte} (hchoices : AllBits choices) :
    (∃ φ : (Fin n → Block) ≃ (Fin n → Block),
      ∀ r, senderView x choices r = senderView x' choices (φ r)) ∧
    ∀ V : Set (Fin n → Block), Nat.card {r // senderView x choices r ∈ V} =
      Nat.card {r // senderView x' choices r ∈ V} := by
  obtain ⟨φ, hφ⟩ := (senderView_isMasked hans hchoices n).exists_equiv
    (senderView_isMasked hans' hchoices n)
  exact ⟨⟨φ, hφ⟩, card_event_eq φ hφ⟩

theorem senderView_hides_twoBins :
    ∃ φ : (Fin 2 → Block) ≃ (Fin 2 → Block), ∀ r,
      senderView ⟨fun _ => 1, [0], [5], [0, 0], zeroMemory⟩ [1, 0] r =
        senderView ⟨fun _ => 3, [1], [8], [0, 0], zeroMemory⟩ [1, 0] (φ r) := by
  exact (senderView_hides (n := 2) (allBits_of_mem (by decide)) (allBits_of_mem (by decide))
    (allBits_of_mem (by decide))).1

end Sectric
