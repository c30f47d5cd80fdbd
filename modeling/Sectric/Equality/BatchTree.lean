import Sectric.Equality.BatchModel
import Sectric.Equality.Leaf
import Sectric.Lib.Rows

/-!
# Batched equality is the parity of the matches

The batched traversal is the plain one of `batch_size * num_cmps` comparisons, with the
rows of the leaves in another order: leaf row `k * num_digits + j` here is row
`j * batch_size + k` there.  `Wires.flat` rearranges them, every pass of a level
commutes with it, and the sharing of the plain traversal carries over.

Bit `k` of the byte BOB gets for a leaf is ALICE's mask bit for word `k`, flipped if the
digits agree.  The sum of the results of a batch is the parity of the matches in it.
-/

namespace Sectric

open Lib

/-! ## The layouts -/

/-- The row of the batched leaves that is row `row` of the plain ones. -/
def batchRow (numDigits batchSize row : ℕ) : ℕ := row % batchSize * numDigits + row / batchSize

theorem batchRow_cell (numDigits : ℕ) {batchSize j k : ℕ} (hk : k < batchSize) :
    batchRow numDigits batchSize (j * batchSize + k) = k * numDigits + j := by
  rw [batchRow, Nat.mul_comm j, Nat.mul_add_mod, Nat.mod_eq_of_lt hk,
    Nat.mul_add_div (by omega), Nat.div_eq_of_lt hk, Nat.add_zero]

theorem batchRow_map (numDigits batchSize : ℕ) :
    RowMap (batchRow numDigits batchSize) (numDigits * batchSize) := by
  have hsplit : ∀ row < numDigits * batchSize, ∃ j k, j < numDigits ∧ k < batchSize ∧
      row = j * batchSize + k := by
    intro row hrow
    have hpos : 0 < batchSize := by
      rcases Nat.eq_zero_or_pos batchSize with rfl | hpos
      · omega
      · exact hpos
    exact ⟨row / batchSize, row % batchSize,
      Nat.div_lt_of_lt_mul (Nat.mul_comm numDigits batchSize ▸ hrow), Nat.mod_lt _ hpos,
      (Nat.div_add_mod' row batchSize).symm⟩
  constructor
  · intro row hrow
    obtain ⟨j, k, hj, hk, rfl⟩ := hsplit row hrow
    rw [batchRow_cell numDigits hk, Nat.mul_comm numDigits]
    exact cell_lt hk hj
  · intro row hrow row' hrow' h
    obtain ⟨j, k, hj, hk, rfl⟩ := hsplit row hrow
    obtain ⟨j', k', hj', hk', rfl⟩ := hsplit row' hrow'
    rw [batchRow_cell numDigits hk, batchRow_cell numDigits hk'] at h
    obtain ⟨rfl, rfl⟩ := cell_inj hj hj' h
    rfl

/-- The leaves in the order of the plain traversal. -/
def flatLeaves (numDigits batchSize numCmps : ℕ) (leafEq : List Byte) : List Byte :=
  permuteRows (batchRow numDigits batchSize) (numDigits * batchSize) numCmps 0 leafEq

/-- The slot of the plain traversal. -/
def BatchSlot.flat (numCmps : ℕ) (s : BatchSlot) : Slot where
  j := s.j
  counter := s.counter
  m := s.k * numCmps + s.m

section Slots

variable {numDigits batchSize numCmps i : ℕ} (h8 : 8 ∣ numCmps)

include h8

/-- The comparisons of all batches, eight at a time. -/
theorem loopValues_batch :
    loopValues (fun m => decide (m < batchSize * numCmps)) (· + 8) (batchSize * numCmps) 0 =
      (List.range batchSize).flatMap fun k =>
        (loopValues (fun m => decide (m < numCmps)) (· + 8) numCmps 0).map (k * numCmps + ·) := by
  rw [loopValues_cmps (Dvd.dvd.mul_left h8 batchSize), loopValues_cmps h8,
    Nat.mul_div_assoc _ h8, ← rowMajor_positions, rowMajor, List.map_flatMap]
  refine List.flatMap_congr fun k _ => ?_
  rw [List.map_map, List.map_map]
  refine List.map_congr_left fun q _ => ?_
  obtain ⟨n, rfl⟩ := h8
  simp only [Function.comp_apply, Nat.mul_div_cancel_left n (show 0 < 8 by decide)]
  ring

/-- The rounds of a level are those of the plain traversal, in the same order. -/
theorem levelSlots_eq_batch :
    levelSlots numDigits (batchSize * numCmps) i =
      (batchSlots numDigits batchSize numCmps i).map (BatchSlot.flat numCmps) := by
  simp only [levelSlots, batchSlots, loopValues_batch h8, List.map_flatMap, List.map_map]
  rfl

theorem mem_batchSlots (hi : 0 < i) {s : BatchSlot}
    (hs : s ∈ batchSlots numDigits batchSize numCmps i) :
    s.j + i < numDigits ∧ s.k < batchSize ∧ s.m + 8 ≤ numCmps := by
  rw [batchSlots, levelGates_eq hi, loopValues_cmps h8] at hs
  simp only [List.mem_flatMap, List.mem_map, List.mem_range] at hs
  obtain ⟨_, ⟨c, hc, rfl⟩, k, hk, _, ⟨q, hq, rfl⟩, rfl⟩ := hs
  have hgate := (lt_gateCount _ hi c).mp hc
  exact ⟨hgate, hk, by simp only; omega⟩

end Slots

theorem BatchSlot.byte_eq (batchSize numCmps : ℕ) (s : BatchSlot) :
    s.byte batchSize numCmps = (s.flat numCmps).byte (batchSize * numCmps) := by
  rw [BatchSlot.byte, Slot.byte, BatchSlot.flat, Nat.mul_assoc, Nat.add_assoc]

theorem BatchSlot.tripleByte_eq (batchSize numCmps offset : ℕ) (s : BatchSlot) :
    s.tripleByte batchSize numCmps offset =
      (s.flat numCmps).tripleByte (batchSize * numCmps) offset := by
  rw [BatchSlot.tripleByte, Slot.tripleByte, BatchSlot.flat, Nat.mul_assoc, Nat.add_assoc]

/-- The cell of a slot, as a cell of a row. -/
theorem BatchSlot.cell_eq (numDigits numCmps : ℕ) {batchSize : ℕ} {s : BatchSlot}
    (hk : s.k < batchSize) (j : ℕ) :
    s.cell numDigits numCmps j =
      batchRow numDigits batchSize (j * batchSize + s.k) * numCmps + s.m := by
  rw [BatchSlot.cell, batchRow_cell numDigits hk]
  ring

/-- The cell of the slot of the plain traversal. -/
theorem BatchSlot.flat_cell_eq (batchSize numCmps : ℕ) (s : BatchSlot) (j : ℕ) :
    j * (batchSize * numCmps) + (s.flat numCmps).m = (j * batchSize + s.k) * numCmps + s.m := by
  rw [BatchSlot.flat]
  ring

/-! ## The passes -/

/-- A party's arrays with the leaves in the order of the plain traversal. -/
def Wires.flat (numDigits batchSize numCmps : ℕ) (w : Wires) : Wires :=
  { w with leafEq := flatLeaves numDigits batchSize numCmps w.leafEq }

section Passes

variable {numDigits batchSize numCmps i : ℕ} (h8 : 8 ∣ numCmps) (hi : 0 < i)
  (packing : BitPacking) (triples : Triple) {w : Wires}

theorem cellsAt_flat {leafEq : List Byte}
    (hlen : leafEq.length = numDigits * batchSize * numCmps) {s : BatchSlot}
    (hk : s.k < batchSize) (hm : s.m + 8 ≤ numCmps) {j : ℕ} (hj : j < numDigits) :
    cellsAt (flatLeaves numDigits batchSize numCmps leafEq)
        (j * (batchSize * numCmps) + (s.flat numCmps).m) =
      cellsAt leafEq (s.cell numDigits numCmps j) := by
  rw [s.flat_cell_eq, BatchSlot.cell_eq numDigits numCmps hk]
  exact take_drop_permuteRows (batchRow_map numDigits batchSize) hlen (cell_lt hj hk) hm

include h8 hi

theorem Wires.flat_batchMaskPass (hlen : w.leafEq.length = numDigits * batchSize * numCmps)
    (tripleCount : ℕ) :
    (w.batchMaskPass packing triples numDigits batchSize numCmps i tripleCount).flat numDigits
        batchSize numCmps =
      (w.flat numDigits batchSize numCmps).maskPass packing triples numDigits
        (batchSize * numCmps) i tripleCount := by
  have hcells : ∀ s ∈ batchSlots numDigits batchSize numCmps i, ∀ j < numDigits,
      cellsAt (w.flat numDigits batchSize numCmps).leafEq
          (j * (batchSize * numCmps) + (s.flat numCmps).m) =
        cellsAt w.leafEq (s.cell numDigits numCmps j) := by
    intro s hs j hj
    obtain ⟨-, hk, hm⟩ := mem_batchSlots h8 hi hs
    exact cellsAt_flat hlen hk hm hj
  simp only [Wires.batchMaskPass, Wires.maskPass, Wires.flat, levelSlots_eq_batch h8,
    writeAll_map, Wires.mk.injEq, true_and, and_true]
  constructor
  · refine writeAll_congr (fun s hs => ⟨s.byte_eq batchSize numCmps, ?_⟩) _
    obtain ⟨hgate, -, -⟩ := mem_batchSlots h8 hi hs
    rw [s.tripleByte_eq, ← hcells s hs s.j (by omega)]
    rfl
  · refine writeAll_congr (fun s hs => ⟨s.byte_eq batchSize numCmps, ?_⟩) _
    obtain ⟨hgate, -, -⟩ := mem_batchSlots h8 hi hs
    rw [s.tripleByte_eq, ← hcells s hs (s.j + i) hgate]
    rfl

omit h8 hi in
theorem batchSlotZ_flat (party : Party) (oldTripleCount : ℕ) (s : BatchSlot) :
    w.batchSlotZ triples batchSize numCmps party oldTripleCount s =
      (w.flat numDigits batchSize numCmps).slotZ party triples (batchSize * numCmps)
        oldTripleCount (s.flat numCmps) := by
  rw [Wires.batchSlotZ, s.byte_eq, s.tripleByte_eq]
  rfl

theorem Wires.flat_batchRecombinePass (hlen : w.leafEq.length = numDigits * batchSize * numCmps)
    (party : Party) (oldTripleCount : ℕ) :
    (w.batchRecombinePass packing triples numDigits batchSize numCmps i party
        oldTripleCount).flat numDigits batchSize numCmps =
      (w.flat numDigits batchSize numCmps).recombinePass packing party triples numDigits
        (batchSize * numCmps) i oldTripleCount := by
  let bytes := fun s : BatchSlot => packing.uint8ToBool
    (w.batchSlotZ triples batchSize numCmps party oldTripleCount s)
  let cells := (batchSlots numDigits batchSize numCmps i).flatMap fun s =>
    (List.range 8).map fun k => (s, k)
  have hcells : ∀ p ∈ cells, p.1.j + i < numDigits ∧ p.1.k < batchSize ∧ p.1.m + 8 ≤ numCmps ∧
      p.2 < 8 := by
    intro p hp
    obtain ⟨s, hs, hp⟩ := List.mem_flatMap.mp hp
    obtain ⟨k, hk, rfl⟩ := List.mem_map.mp hp
    obtain ⟨hgate, hword, hm⟩ := mem_batchSlots h8 hi hs
    exact ⟨hgate, hword, hm, List.mem_range.mp hk⟩
  have hbatch : (batchSlots numDigits batchSize numCmps i).foldl (fun leafEq s =>
        setCellsAt leafEq (s.cell numDigits numCmps s.j) (bytes s)) w.leafEq =
      writeAll (fun p => batchRow numDigits batchSize (p.1.j * batchSize + p.1.k) * numCmps +
        (p.1.m + p.2)) (fun p => (bytes p.1).getD p.2 0) cells w.leafEq := by
    rw [foldl_setCellsAt_eq_writeAll]
    refine writeAll_congr (fun p hp => ⟨?_, rfl⟩) _
    rw [BatchSlot.cell_eq numDigits numCmps (hcells p hp).2.1, Nat.add_assoc]
  have hplain : (levelSlots numDigits (batchSize * numCmps) i).foldl (fun leafEq s =>
        setCellsAt leafEq (s.j * (batchSize * numCmps) + s.m) (packing.uint8ToBool
          ((w.flat numDigits batchSize numCmps).slotZ party triples (batchSize * numCmps)
            oldTripleCount s))) (w.flat numDigits batchSize numCmps).leafEq =
      writeAll (fun p => (p.1.j * batchSize + p.1.k) * numCmps + (p.1.m + p.2))
        (fun p => (bytes p.1).getD p.2 0) cells
        (flatLeaves numDigits batchSize numCmps w.leafEq) := by
    rw [levelSlots_eq_batch h8, List.foldl_map, foldl_setCellsAt_eq_writeAll]
    refine writeAll_congr (fun p _ => ⟨?_, ?_⟩) _
    · rw [← Nat.add_assoc, ← BatchSlot.flat_cell_eq]
      rfl
    · rw [← batchSlotZ_flat]
  have hin : ∀ p ∈ cells, p.1.j * batchSize + p.1.k < numDigits * batchSize ∧
      p.1.m + p.2 < numCmps := by
    intro p hp
    obtain ⟨hgate, hk, hm, hbit⟩ := hcells p hp
    exact ⟨cell_lt (by omega) hk, by omega⟩
  have hcommute := permuteRows_writeAll (d := (0 : Byte)) (batchRow_map numDigits batchSize)
    (fun p : BatchSlot × ℕ => p.1.j * batchSize + p.1.k) (fun p => p.1.m + p.2)
    (fun p => (bytes p.1).getD p.2 0) hlen hin
  rw [← hbatch] at hcommute
  exact congrArg (fun leafEq => ({ w with leafEq := leafEq } : Wires))
    (hcommute.trans hplain.symm)

end Passes

/-! ## The traversal -/

/-- Both parties with their leaves in the order of the plain traversal. -/
def Traversal.flat (numDigits batchSize numCmps : ℕ) (t : Traversal) : Traversal :=
  { t with
    alice := t.alice.flat numDigits batchSize numCmps
    bob := t.bob.flat numDigits batchSize numCmps }

/-- Both parties have as many leaves as given. -/
structure Traversal.Sized (cells : ℕ) (t : Traversal) : Prop where
  alice : t.alice.leafEq.length = cells
  bob : t.bob.leafEq.length = cells

section Levels

variable {packing : BitPacking} {triplesAlice triplesBob : Triple}
  {numDigits batchSize numCmps : ℕ} (h8 : 8 ∣ numCmps) {t : Traversal}
  (ht : t.Sized (numDigits * batchSize * numCmps)) {i : ℕ}

include ht in
theorem Traversal.Sized.batchLevel :
    (t.batchLevel packing triplesAlice triplesBob numDigits batchSize numCmps i).Sized
      (numDigits * batchSize * numCmps) :=
  ⟨(length_foldl_setCellsAt ..).trans ht.alice, (length_foldl_setCellsAt ..).trans ht.bob⟩

include h8 ht in
/-- A level of the batched traversal is a level of the plain one. -/
theorem Traversal.flat_batchLevel (hi : 0 < i) :
    (t.batchLevel packing triplesAlice triplesBob numDigits batchSize numCmps i).flat numDigits
        batchSize numCmps =
      (t.flat numDigits batchSize numCmps).level packing triplesAlice triplesBob numDigits
        (batchSize * numCmps) i := by
  have hmaskAlice := Wires.flat_batchMaskPass h8 hi packing triplesAlice ht.alice t.tripleCount
  have hmaskBob := Wires.flat_batchMaskPass h8 hi packing triplesBob ht.bob t.tripleCount
  let alice := t.alice.batchMaskPass packing triplesAlice numDigits batchSize numCmps i
    t.tripleCount
  let bob := t.bob.batchMaskPass packing triplesBob numDigits batchSize numCmps i t.tripleCount
  let commSize := (levelGates numDigits i).length * batchSize * numCmps / 8
  have hopenAlice : (alice.openPass commSize bob).leafEq.length =
      numDigits * batchSize * numCmps := ht.alice
  have hopenBob : (bob.openPass commSize alice).leafEq.length =
      numDigits * batchSize * numCmps := ht.bob
  have hrecombineAlice := Wires.flat_batchRecombinePass h8 hi packing triplesAlice hopenAlice
    .alice t.oldTripleCount
  have hrecombineBob := Wires.flat_batchRecombinePass h8 hi packing triplesBob hopenBob
    .bob t.oldTripleCount
  have hopen : ∀ (w other : Wires) size, (w.openPass size other).flat numDigits batchSize numCmps =
      (w.flat numDigits batchSize numCmps).openPass size
        (other.flat numDigits batchSize numCmps) := fun _ _ _ => rfl
  rw [hopen, hmaskAlice, hmaskBob] at hrecombineAlice hrecombineBob
  simp only [Traversal.level, ← Nat.mul_assoc]
  exact Traversal.mk.injEq .. ▸ ⟨hrecombineAlice, hrecombineBob, rfl, rfl⟩

include h8 in
/-- A run of levels. -/
theorem Traversal.flat_batchLevels :
    ∀ {strides : List ℕ} {t : Traversal}, (∀ i ∈ strides, 0 < i) →
      t.Sized (numDigits * batchSize * numCmps) →
      (strides.foldl (Traversal.batchLevel packing triplesAlice triplesBob numDigits batchSize
          numCmps) t).flat numDigits batchSize numCmps =
        strides.foldl (Traversal.level packing triplesAlice triplesBob numDigits
          (batchSize * numCmps)) (t.flat numDigits batchSize numCmps) := by
  intro strides
  induction strides with
  | nil =>
      intro t _ _
      rfl
  | cons i strides ih =>
      intro t hpos ht
      rw [List.foldl_cons, List.foldl_cons,
        ih (fun i' hi' => hpos i' (List.mem_cons_of_mem _ hi')) ht.batchLevel,
        Traversal.flat_batchLevel h8 ht (hpos i (List.mem_cons_self ..))]

end Levels

/-! ## The results of a batch -/

theorem boolByte_xor (a b : Bool) : boolByte a ^^^ boolByte b = boolByte (a ^^ b) := by
  cases a <;> cases b <;> rfl

/-- Two sums of shares of truth values share the parity of those that hold. -/
theorem foldl_xor_parity {a b : ℕ → Byte} {p : ℕ → Bool} :
    ∀ {n : ℕ}, (∀ k < n, a k ^^^ b k = boolByte (p k)) →
      (List.range n).foldl (fun share k => share ^^^ a k) 0 ^^^
          (List.range n).foldl (fun share k => share ^^^ b k) 0 =
        BitVec.ofNat 8 ((List.range n).countP p % 2) := by
  intro n
  induction n with
  | zero => simp
  | succ n ih =>
      intro h
      have hrest := ih fun k hk => h k (Nat.lt_succ_of_lt hk)
      have hlast := h n (Nat.lt_succ_self n)
      rw [List.range_succ, List.foldl_append, List.foldl_append, List.foldl_cons, List.foldl_cons,
        List.foldl_nil, List.foldl_nil, List.countP_append, List.countP_singleton]
      generalize (List.range n).foldl (fun share k => share ^^^ a k) 0 = x at hrest ⊢
      generalize (List.range n).foldl (fun share k => share ^^^ b k) 0 = y at hrest ⊢
      have hswap : x ^^^ a n ^^^ (y ^^^ b n) = x ^^^ y ^^^ (a n ^^^ b n) := by
        rw [BitVec.xor_assoc, ← BitVec.xor_assoc (a n), BitVec.xor_comm (a n) y,
          BitVec.xor_assoc y, ← BitVec.xor_assoc x]
      rw [hswap, hrest, hlast]
      rcases Nat.mod_two_eq_zero_or_one ((List.range n).countP p) with hparity | hparity
      · cases p n <;> simp [hparity, boolByte, Nat.add_mod]
      · cases p n <;> simp [hparity, boolByte, Nat.add_mod]

theorem flatLeaves_bits {leafEq : List Byte} (h : AllBits leafEq)
    (numDigits batchSize numCmps : ℕ) :
    AllBits (flatLeaves numDigits batchSize numCmps leafEq) := by
  refine allBits_of_mem ?_
  intro b hb
  obtain ⟨i, -, m, -, rfl⟩ := mem_rowMajor.mp hb
  exact h _

/-- A leaf in the order of the plain traversal. -/
theorem getD_flatLeaves (leafEq : List Byte) {numDigits batchSize numCmps j k c : ℕ}
    (hj : j < numDigits) (hk : k < batchSize) (hc : c < numCmps) :
    (flatLeaves numDigits batchSize numCmps leafEq).getD (j * (batchSize * numCmps) +
        (k * numCmps + c)) 0 =
      leafEq.getD ((k * numDigits + j) * numCmps + c) 0 := by
  have hpos : j * (batchSize * numCmps) + (k * numCmps + c) =
      (j * batchSize + k) * numCmps + c := by ring
  rw [hpos, flatLeaves, getD_permuteRows _ (cell_lt hj hk) hc, batchRow_cell numDigits hk]

theorem length_resShares (numDigits batchSize numCmps : ℕ) (w : Wires) :
    (w.resShares numDigits batchSize numCmps).length = numCmps := by
  rw [Wires.resShares, List.length_map, List.length_range]

theorem xor_eq_boolByte {x y : Byte} (hx : IsBit x) (hy : IsBit y) :
    x ^^^ y = boolByte ((x != 0) ^^ (y != 0)) := by
  rcases hx with rfl | rfl <;> rcases hy with rfl | rfl <;> rfl

section Parity

variable {packing : BitPacking} {triplesAlice triplesBob : Triple}
  {numDigits batchSize numCmps : ℕ} (hnd : 0 < numDigits) (h8 : 8 ∣ numCmps)
  {leafAlice leafBob : List Byte} (hla : leafAlice.length = numDigits * batchSize * numCmps)
  (hlb : leafBob.length = numDigits * batchSize * numCmps)

/-- The traversal of all batches before its last loop. -/
def batchTraversal (packing : BitPacking) (triplesAlice triplesBob : Triple)
    (numDigits batchSize numCmps : ℕ) (leafAlice leafBob : List Byte) : Traversal :=
  (loopValues (fun i => decide (i < numDigits)) (· * 2) numDigits 1).foldl
    (Traversal.batchLevel packing triplesAlice triplesBob numDigits batchSize numCmps)
    { alice := Wires.start ((numDigits - 1) * batchSize * numCmps / 8) leafAlice
      bob := Wires.start ((numDigits - 1) * batchSize * numCmps / 8) leafBob
      tripleCount := 0
      oldTripleCount := 0 }

/-- The outputs of the plain traversal on the rearranged leaves. -/
def plainOutputs (packing : BitPacking) (triplesAlice triplesBob : Triple)
    (numDigits batchSize numCmps : ℕ) (leafAlice leafBob : List Byte) : List Byte × List Byte :=
  traverseAndComputeANDs packing triplesAlice triplesBob numDigits (batchSize * numCmps)
    (flatLeaves numDigits batchSize numCmps leafAlice)
    (flatLeaves numDigits batchSize numCmps leafBob)

variable (packing triplesAlice triplesBob) in
include hnd h8 hla hlb in
/-- The results of a word of the batches are outputs of the plain traversal. -/
theorem getD_plainOutputs {k c : ℕ} (hk : k < batchSize) (hc : c < numCmps) :
    let t := batchTraversal packing triplesAlice triplesBob numDigits batchSize numCmps leafAlice
      leafBob
    let z := plainOutputs packing triplesAlice triplesBob numDigits batchSize numCmps leafAlice
      leafBob
    t.alice.leafEq.getD (k * numDigits * numCmps + c) 0 = z.1.getD (k * numCmps + c) 0 ∧
      t.bob.leafEq.getD (k * numDigits * numCmps + c) 0 = z.2.getD (k * numCmps + c) 0 := by
  intro t z
  let start : Traversal :=
    { alice := Wires.start ((numDigits - 1) * batchSize * numCmps / 8) leafAlice
      bob := Wires.start ((numDigits - 1) * batchSize * numCmps / 8) leafBob
      tripleCount := 0
      oldTripleCount := 0 }
  have hstart : start.Sized (numDigits * batchSize * numCmps) := ⟨hla, hlb⟩
  have hflat : t.flat numDigits batchSize numCmps =
      (loopValues (fun i => decide (i < numDigits)) (· * 2) numDigits 1).foldl
        (Traversal.level packing triplesAlice triplesBob numDigits (batchSize * numCmps))
        (start.flat numDigits batchSize numCmps) :=
    Traversal.flat_batchLevels h8 (loopValues_double_pos Nat.one_pos) hstart
  have hz : z = ((t.flat numDigits batchSize numCmps).alice.leafEq.take (batchSize * numCmps),
      (t.flat numDigits batchSize numCmps).bob.leafEq.take (batchSize * numCmps)) := by
    simp only [z, hflat, plainOutputs, traverseAndComputeANDs, ← Nat.mul_assoc]
    rfl
  have hcell : ∀ leafEq : List Byte, leafEq.getD (k * numDigits * numCmps + c) 0 =
      ((flatLeaves numDigits batchSize numCmps leafEq).take (batchSize * numCmps)).getD
        (k * numCmps + c) 0 := by
    intro leafEq
    have hrow := getD_flatLeaves leafEq hnd hk hc
    rw [Nat.zero_mul, Nat.zero_add, Nat.add_zero] at hrow
    rw [getD_take_of_lt (cell_lt hk hc), hrow]
  rw [hz]
  exact ⟨hcell _, hcell _⟩

variable (hpacking : packing.Lawful)
  (hvalid : ValidTriples triplesAlice triplesBob ((numDigits - 1) * batchSize * numCmps / 8))
  (hba : AllBits leafAlice) (hbb : AllBits leafBob)

include hnd h8 hla hlb hpacking hvalid hba hbb

/-- The results of a word of the batches share the conjunction of its leaves. -/
theorem batchTraversal_word {k c : ℕ} (hk : k < batchSize) (hc : c < numCmps) :
    let t := batchTraversal packing triplesAlice triplesBob numDigits batchSize numCmps leafAlice
      leafBob
    t.alice.leafEq.getD (k * numDigits * numCmps + c) 0 ^^^
        t.bob.leafEq.getD (k * numDigits * numCmps + c) 0 =
      boolByte (decide (∀ j < numDigits,
        sharedBit leafAlice leafBob ((k * numDigits + j) * numCmps + c) = true)) := by
  intro t
  have hassoc : numDigits * batchSize * numCmps = numDigits * (batchSize * numCmps) :=
    Nat.mul_assoc ..
  have hlen : ∀ leafEq : List Byte, (flatLeaves numDigits batchSize numCmps leafEq).length =
      numDigits * (batchSize * numCmps) := fun leafEq => by
    rw [flatLeaves, length_permuteRows, hassoc]
  have hvalid' : ValidTriples triplesAlice triplesBob
      ((numDigits - 1) * (batchSize * numCmps) / 8) := by
    rw [← Nat.mul_assoc]
    exact hvalid
  obtain ⟨-, -, hbitsAlice, hbitsBob, hshared⟩ := traverseAndComputeANDs_shares hpacking hnd
    (Dvd.dvd.mul_left h8 batchSize) hvalid' (hlen leafAlice) (hlen leafBob)
    (flatLeaves_bits hba _ _ _) (flatLeaves_bits hbb _ _ _)
  obtain ⟨halice, hbob⟩ := getD_plainOutputs packing triplesAlice triplesBob hnd h8 hla hlb hk hc
  rw [halice, hbob, plainOutputs, xor_eq_boolByte (hbitsAlice _) (hbitsBob _)]
  congr 1
  rw [Bool.eq_iff_iff, decide_eq_true_eq]
  refine (hshared (k * numCmps + c) (cell_lt hk hc)).trans (forall₂_congr fun j hj => ?_)
  rw [sharedBit, sharedBit, bitAt, bitAt, bitAt, bitAt, getD_flatLeaves leafAlice hj hk hc,
    getD_flatLeaves leafBob hj hk hc]

/-- The outputs of the batched traversal share, for every comparison, the parity of the
words of its batch all of whose leaves share 1. -/
theorem batchTraverseAndComputeANDs_parity {c : ℕ} (hc : c < numCmps) :
    let z := batchTraverseAndComputeANDs packing triplesAlice triplesBob numDigits batchSize
      numCmps leafAlice leafBob
    z.1.getD c 0 ^^^ z.2.getD c 0 =
      BitVec.ofNat 8 ((List.range batchSize).countP (fun k => decide (∀ j < numDigits,
        sharedBit leafAlice leafBob ((k * numDigits + j) * numCmps + c) = true)) % 2) := by
  intro z
  have hres : ∀ w : Wires, (w.resShares numDigits batchSize numCmps).getD c 0 =
      (List.range batchSize).foldl (fun share k =>
        share ^^^ w.leafEq.getD (k * numDigits * numCmps + c) 0) 0 :=
    fun w => getD_map_range _ _ hc
  refine (congrArg₂ (· ^^^ ·) (hres _) (hres _)).trans (foldl_xor_parity fun k hk => ?_)
  exact batchTraversal_word hnd h8 hla hlb hpacking hvalid hba hbb hk hc

end Parity

end Sectric
