import Sectric.Equality.Leaf

/-!
# The triples of the traversal

`traverse_and_compute_ANDs` runs over its triples with two offsets.  A level
masks its gates with the triples from `triple_count` on, moves that offset past
its gates, and recombines with the triples from `old_triple_count` on.  The
level of stride `i` starts with `blockCount` cells that still count, and every
gate takes one of them away.  So the gates done and the cells left always add
up to `num_digits`, and when one cell is left, `num_digits - 1` gates have used
every triple once.

The accesses of a run are logged in the order of the program, array by array.
-/

namespace Sectric

open Lib

/-! ## Accesses -/

/-- The arrays `traverse_and_compute_ANDs` allocates or is given. -/
inductive Buffer where
  | ei
  | fi
  | e
  | f
  | ai
  | bi
  | ci
  | leafEq
  deriving DecidableEq

/-- Its length in bytes. -/
def Buffer.size (numDigits numCmps : ℕ) : Buffer → ℕ
  | .ei | .fi | .e | .f | .ai | .bi | .ci => (numDigits - 1) * numCmps / 8
  | .leafEq => numDigits * numCmps

/-- A read or a write of one cell. -/
structure Access where
  buffer : Buffer
  pos : ℕ

/-- The positions of one array in a log. -/
def positions (b : Buffer) (log : List Access) : List ℕ :=
  log.filterMap fun a => if a.buffer = b then some a.pos else none

/-- The first `size` cells, in order. -/
def Buffer.accesses (b : Buffer) (size : ℕ) : List Access := (List.range size).map (⟨b, ·⟩)

/-- The eight cells of `leaf_eq` that one byte packs. -/
def cellAccesses (p : ℕ) : List Access := (List.range 8).map fun k => ⟨.leafEq, p + k⟩

/-- A round of the masking loops. -/
def Slot.maskAccesses (numCmps i tripleCount : ℕ) (s : Slot) : List Access :=
  [⟨.ai, s.tripleByte numCmps tripleCount⟩, ⟨.ei, s.byte numCmps⟩,
    ⟨.bi, s.tripleByte numCmps tripleCount⟩, ⟨.fi, s.byte numCmps⟩] ++
  cellAccesses (s.j * numCmps + s.m) ++ [⟨.ei, s.byte numCmps⟩] ++
  cellAccesses ((s.j + i) * numCmps + s.m) ++ [⟨.fi, s.byte numCmps⟩]

/-- The sends and receives of a level, and the loop that adds the two halves. -/
def exchangeAccesses (party : Party) (commSize : ℕ) : List Access :=
  (match party with
    | .alice => Buffer.ei.accesses commSize ++ Buffer.fi.accesses commSize ++
        Buffer.e.accesses commSize ++ Buffer.f.accesses commSize
    | .bob => Buffer.e.accesses commSize ++ Buffer.f.accesses commSize ++
        Buffer.ei.accesses commSize ++ Buffer.fi.accesses commSize) ++
  (List.range commSize).flatMap fun p => [⟨.e, p⟩, ⟨.ei, p⟩, ⟨.f, p⟩, ⟨.fi, p⟩]

/-- A round of the recombination loops. -/
def Slot.recombineAccesses (party : Party) (numCmps oldTripleCount : ℕ) (s : Slot) :
    List Access :=
  (match party with
    | .alice => [⟨.e, s.byte numCmps⟩, ⟨.f, s.byte numCmps⟩]
    | .bob => []) ++
  [⟨.f, s.byte numCmps⟩, ⟨.ai, s.tripleByte numCmps oldTripleCount⟩,
    ⟨.e, s.byte numCmps⟩, ⟨.bi, s.tripleByte numCmps oldTripleCount⟩,
    ⟨.ci, s.tripleByte numCmps oldTripleCount⟩] ++
  cellAccesses (s.j * numCmps + s.m)

/-- The masking loops of the level of stride `i`. -/
def Traversal.maskAccesses (numDigits numCmps : ℕ) (t : Traversal) (i : ℕ) : List Access :=
  (levelSlots numDigits numCmps i).flatMap (Slot.maskAccesses numCmps i t.tripleCount)

/-- One round of the outer loop. -/
def Traversal.accesses (party : Party) (numDigits numCmps : ℕ) (t : Traversal) (i : ℕ) :
    List Access :=
  t.maskAccesses numDigits numCmps i ++
  exchangeAccesses party ((levelGates numDigits i).length * numCmps / 8) ++
  (levelSlots numDigits numCmps i).flatMap
    (Slot.recombineAccesses party numCmps t.oldTripleCount)

/-- The state before the first level. -/
def Traversal.start (bytes : ℕ) (leafAlice leafBob : List Byte) : Traversal where
  alice := Wires.start bytes leafAlice
  bob := Wires.start bytes leafBob
  tripleCount := 0
  oldTripleCount := 0

@[simp] theorem Traversal.start_tripleCount (bytes : ℕ) (leafAlice leafBob : List Byte) :
    (Traversal.start bytes leafAlice leafBob).tripleCount = 0 := rfl

/-- The levels of a run: the state each starts from, and its stride. -/
def traversalRounds (packing : BitPacking) (triplesAlice triplesBob : Triple)
    (numDigits numCmps : ℕ) (leafAlice leafBob : List Byte) : List (Traversal × ℕ) :=
  rounds (Traversal.level packing triplesAlice triplesBob numDigits numCmps)
    (Traversal.start ((numDigits - 1) * numCmps / 8) leafAlice leafBob)
    (loopValues (fun i => decide (i < numDigits)) (· * 2) numDigits 1)

/-- All accesses of a run, the loop that fills `z` included. -/
def traversalAccesses (party : Party) (packing : BitPacking) (triplesAlice triplesBob : Triple)
    (numDigits numCmps : ℕ) (leafAlice leafBob : List Byte) : List Access :=
  ((traversalRounds packing triplesAlice triplesBob numDigits numCmps leafAlice leafBob).flatMap
    fun r => r.1.accesses party numDigits numCmps r.2) ++
  Buffer.leafEq.accesses numCmps

/-! ## Positions in a log -/

theorem positions_flatMap {ι : Type*} (b : Buffer) (l : List ι) (log : ι → List Access) :
    positions b (l.flatMap log) = l.flatMap fun a => positions b (log a) :=
  List.filterMap_flatMap ..

@[simp] theorem positions_append (b : Buffer) (log log' : List Access) :
    positions b (log ++ log') = positions b log ++ positions b log' :=
  List.filterMap_append ..

@[simp] theorem positions_nil (b : Buffer) : positions b [] = [] := rfl

@[simp] theorem positions_cons (b : Buffer) (a : Access) (log : List Access) :
    positions b (a :: log) =
      if a.buffer = b then a.pos :: positions b log else positions b log := by
  by_cases h : a.buffer = b <;> simp [positions, h]

@[simp] theorem positions_cellAccesses {b : Buffer} (hb : b ≠ .leafEq) (p : ℕ) :
    positions b (cellAccesses p) = [] := by
  rw [positions, List.filterMap_eq_nil_iff]
  intro a ha
  obtain ⟨k, _, rfl⟩ := List.mem_map.mp ha
  exact if_neg hb.symm

/-- A round masks with one byte of each of the first two parts. -/
theorem positions_maskAccesses (numCmps i tripleCount : ℕ) (s : Slot) {b : Buffer}
    (hb : b = .ai ∨ b = .bi) :
    positions b (s.maskAccesses numCmps i tripleCount) = [s.tripleByte numCmps tripleCount] := by
  rcases hb with rfl | rfl <;> simp [Slot.maskAccesses]

/-- A round recombines with one byte of each part of the triples. -/
theorem positions_recombineAccesses (party : Party) (numCmps oldTripleCount : ℕ) (s : Slot)
    {b : Buffer} (hb : b = .ai ∨ b = .bi ∨ b = .ci) :
    positions b (s.recombineAccesses party numCmps oldTripleCount) =
      [s.tripleByte numCmps oldTripleCount] := by
  rcases hb with rfl | rfl | rfl <;> cases party <;> simp [Slot.recombineAccesses]

/-! ## The log covers what the passes read -/

/-- The masking loops read no triple byte that is not in their log. -/
theorem Wires.maskPass_congr (packing : BitPacking) {triples triples' : Triple}
    {numDigits numCmps i tripleCount : ℕ} (w : Wires)
    (hai : ∀ s ∈ levelSlots numDigits numCmps i,
      ∀ p ∈ positions .ai (s.maskAccesses numCmps i tripleCount),
        triples.ai.getD p 0 = triples'.ai.getD p 0)
    (hbi : ∀ s ∈ levelSlots numDigits numCmps i,
      ∀ p ∈ positions .bi (s.maskAccesses numCmps i tripleCount),
        triples.bi.getD p 0 = triples'.bi.getD p 0) :
    w.maskPass packing triples numDigits numCmps i tripleCount =
      w.maskPass packing triples' numDigits numCmps i tripleCount := by
  have hread : ∀ s ∈ levelSlots numDigits numCmps i,
      triples.ai.getD (s.tripleByte numCmps tripleCount) 0 =
          triples'.ai.getD (s.tripleByte numCmps tripleCount) 0 ∧
        triples.bi.getD (s.tripleByte numCmps tripleCount) 0 =
          triples'.bi.getD (s.tripleByte numCmps tripleCount) 0 := by
    intro s hs
    have hs₁ := hai s hs
    have hs₂ := hbi s hs
    rw [positions_maskAccesses numCmps i tripleCount s (.inl rfl)] at hs₁
    rw [positions_maskAccesses numCmps i tripleCount s (.inr rfl)] at hs₂
    exact ⟨hs₁ _ (List.mem_singleton_self _), hs₂ _ (List.mem_singleton_self _)⟩
  simp only [Wires.maskPass, writeAll]
  congr 1
  · refine List.foldl_ext _ _ _ fun ei s hs => ?_
    rw [(hread s hs).1]
  · refine List.foldl_ext _ _ _ fun fi s hs => ?_
    rw [(hread s hs).2]

/-- Nor do the recombination loops. -/
theorem Wires.recombinePass_congr (packing : BitPacking) (party : Party)
    {triples triples' : Triple} {numDigits numCmps i oldTripleCount : ℕ} (w : Wires)
    (h : ∀ s ∈ levelSlots numDigits numCmps i, ∀ p,
      (p ∈ positions .ai (s.recombineAccesses party numCmps oldTripleCount) →
        triples.ai.getD p 0 = triples'.ai.getD p 0) ∧
      (p ∈ positions .bi (s.recombineAccesses party numCmps oldTripleCount) →
        triples.bi.getD p 0 = triples'.bi.getD p 0) ∧
      (p ∈ positions .ci (s.recombineAccesses party numCmps oldTripleCount) →
        triples.ci.getD p 0 = triples'.ci.getD p 0)) :
    w.recombinePass packing party triples numDigits numCmps i oldTripleCount =
      w.recombinePass packing party triples' numDigits numCmps i oldTripleCount := by
  have hread : ∀ s ∈ levelSlots numDigits numCmps i,
      w.slotZ party triples numCmps oldTripleCount s =
        w.slotZ party triples' numCmps oldTripleCount s := by
    intro s hs
    obtain ⟨hai, hbi, hci⟩ := h s hs (s.tripleByte numCmps oldTripleCount)
    rw [positions_recombineAccesses party numCmps _ s (.inl rfl)] at hai
    rw [positions_recombineAccesses party numCmps _ s (.inr (.inl rfl))] at hbi
    rw [positions_recombineAccesses party numCmps _ s (.inr (.inr rfl))] at hci
    rw [Wires.slotZ, Wires.slotZ, hai (List.mem_singleton_self _),
      hbi (List.mem_singleton_self _), hci (List.mem_singleton_self _)]
  simp only [Wires.recombinePass]
  congr 1
  refine List.foldl_ext _ _ _ fun leafEq s hs => ?_
  rw [hread s hs]

/-! ## Gates and cells -/

/-- The cells that still count before the level of stride `i`: one for every
`i` digits begun. -/
def blockCount (numDigits i : ℕ) : ℕ := (numDigits + i - 1) / i

@[simp] theorem blockCount_one (numDigits : ℕ) : blockCount numDigits 1 = numDigits := by
  rw [blockCount, Nat.div_one]
  exact Nat.add_sub_cancel ..

/-- When the loop stops one cell is left. -/
theorem blockCount_of_le {numDigits i : ℕ} (hnd : 0 < numDigits) (hi : numDigits ≤ i) :
    blockCount numDigits i = 1 := by
  rw [blockCount, Nat.div_eq_iff (by omega)]
  omega

theorem blockCount_pos {numDigits i : ℕ} (hnd : 0 < numDigits) (hi : 0 < i) :
    0 < blockCount numDigits i := by
  rw [blockCount, Nat.div_pos_iff]
  omega

/-- Every gate of a level takes one cell away. -/
theorem blockCount_double {numDigits i : ℕ} (hnd : 0 < numDigits) (hi : 0 < i) :
    blockCount numDigits (i * 2) + gateCount numDigits i = blockCount numDigits i := by
  have hcells : blockCount numDigits (i * 2) = (blockCount numDigits i + 1) / 2 := by
    have hshift : numDigits + i * 2 - 1 = numDigits + i - 1 + i := by omega
    rw [blockCount, blockCount, ← Nat.div_div_eq_div_mul, hshift, Nat.add_div_right _ hi]
  have hgates : gateCount numDigits i = blockCount numDigits i / 2 := by
    rw [gateCount, blockCount, Nat.div_div_eq_div_mul, Nat.mul_comm]
  omega

/-- The bytes of a level from `c` gates on: one run of positions. -/
theorem map_tripleByte_levelSlots {numDigits numCmps i : ℕ} (hi : 0 < i) (h8 : 8 ∣ numCmps)
    (c : ℕ) :
    (levelSlots numDigits numCmps i).map (Slot.tripleByte numCmps (c * numCmps)) =
      List.range' (c * (numCmps / 8)) (gateCount numDigits i * (numCmps / 8)) := by
  have hbyte : ∀ counter q, Slot.tripleByte numCmps (c * numCmps)
      { j := counter * (2 * i), counter := counter, m := 0 + q * 8 } =
        c * (numCmps / 8) + (counter * (numCmps / 8) + q) := by
    intro counter q
    obtain ⟨n, rfl⟩ := h8
    rw [Slot.tripleByte, Nat.mul_div_cancel_left n (by decide)]
    have hsum : c * (8 * n) + counter * (8 * n) + (0 + q * 8) =
        8 * (c * n + (counter * n + q)) := by ring
    rw [hsum, Nat.mul_div_cancel_left _ (by decide)]
  have hrows : (levelSlots numDigits numCmps i).map (Slot.tripleByte numCmps (c * numCmps)) =
      (rowMajor (gateCount numDigits i) (numCmps / 8) fun counter q =>
        counter * (numCmps / 8) + q).map (c * (numCmps / 8) + ·) := by
    rw [levelSlots, levelGates_eq hi, loopValues_cmps h8, rowMajor, List.map_flatMap,
      List.map_flatMap, List.flatMap_map]
    simp only [List.map_map, Function.comp_def, hbyte]
  rw [hrows, rowMajor_positions, List.range'_eq_map_range]

/-! ## The offsets over a run -/

/-- Before the level of stride `i`, both offsets are past the gates done, and
the gates done and the cells left add up to `num_digits`. -/
structure Traversal.Offsets (numDigits numCmps i : ℕ) (t : Traversal) : Prop where
  pos : 0 < i
  counts : t.tripleCount = t.oldTripleCount
  done : ∃ c, t.tripleCount = c * numCmps ∧ c + blockCount numDigits i = numDigits

section Run

variable {packing : BitPacking} {triplesAlice triplesBob : Triple} {numDigits numCmps : ℕ}
  (hnd : 0 < numDigits) (h8 : 8 ∣ numCmps)

theorem Traversal.start_offsets (leafAlice leafBob : List Byte) :
    (Traversal.start ((numDigits - 1) * numCmps / 8) leafAlice leafBob).Offsets numDigits
      numCmps 1 where
  pos := Nat.one_pos
  counts := rfl
  done := ⟨0, (Nat.zero_mul _).symm, by rw [blockCount_one, Nat.zero_add]⟩

include hnd in
theorem Traversal.Offsets.level {i : ℕ} {t : Traversal} (ht : t.Offsets numDigits numCmps i) :
    (t.level packing triplesAlice triplesBob numDigits numCmps i).Offsets numDigits numCmps
      (i * 2) := by
  obtain ⟨hi, _, c, hc, hcells⟩ := ht
  refine ⟨by omega, rfl, c + gateCount numDigits i, ?_, ?_⟩
  · show t.tripleCount + (levelGates numDigits i).length * numCmps = _
    rw [hc, length_levelGates hi, Nat.add_mul]
  · have := blockCount_double hnd hi
    omega

include hnd in
/-- Every level of a run starts from aligned offsets. -/
theorem traversalRounds_offsets (leafAlice leafBob : List Byte) :
    ∀ r ∈ traversalRounds packing triplesAlice triplesBob numDigits numCmps leafAlice leafBob,
      r.2 < numDigits ∧ r.1.Offsets numDigits numCmps r.2 := by
  intro r hr
  obtain ⟨hcond, hoffsets⟩ := mem_rounds (I := fun i t => t.Offsets numDigits numCmps i)
    (fun _ _ _ ht => ht.level hnd) (Traversal.start_offsets leafAlice leafBob) r hr
  exact ⟨of_decide_eq_true hcond, hoffsets⟩

/-- The bytes that the levels from stride `i` on mask with. -/
def Traversal.bytesLeft (numDigits numCmps i : ℕ) (t : Traversal) : List ℕ :=
  List.range' (t.tripleCount / 8) ((blockCount numDigits i - 1) * (numCmps / 8))

include hnd h8 in
/-- A level masks with the first of the bytes left. -/
theorem Traversal.Offsets.bytes_level {i : ℕ} {t : Traversal} (ht : t.Offsets numDigits numCmps i) :
    (levelSlots numDigits numCmps i).map (Slot.tripleByte numCmps t.tripleCount) ++
        (t.level packing triplesAlice triplesBob numDigits numCmps i).bytesLeft numDigits numCmps
          (i * 2) =
      t.bytesLeft numDigits numCmps i := by
  have hnext : (t.level packing triplesAlice triplesBob numDigits numCmps i).tripleCount =
      t.tripleCount + (levelGates numDigits i).length * numCmps := rfl
  obtain ⟨hi, _, c, hc, _⟩ := ht
  have hcells := blockCount_double hnd hi
  have hleft : 0 < blockCount numDigits (i * 2) := blockCount_pos hnd (by omega)
  have hsplit : blockCount numDigits i - 1 =
      gateCount numDigits i + (blockCount numDigits (i * 2) - 1) := by omega
  rw [Traversal.bytesLeft, Traversal.bytesLeft, hnext, hc, map_tripleByte_levelSlots hi h8,
    length_levelGates hi, ← Nat.add_mul, Nat.mul_div_assoc _ h8, Nat.mul_div_assoc _ h8, hsplit,
    Nat.add_mul, Nat.add_mul, List.range'_append_1]

include hnd h8 in
/-- The levels together mask with every byte of the triples, in order. -/
theorem traversalRounds_bytes (leafAlice leafBob : List Byte) :
    ((traversalRounds packing triplesAlice triplesBob numDigits numCmps leafAlice leafBob).flatMap
      fun r => (levelSlots numDigits numCmps r.2).map (Slot.tripleByte numCmps r.1.tripleCount)) =
    List.range ((numDigits - 1) * numCmps / 8) := by
  have hvariant : ∀ i (t : Traversal), decide (i < numDigits) = true →
      t.Offsets numDigits numCmps i → numDigits - i * 2 < numDigits - i := by
    intro i t hcond ht
    have hlt := of_decide_eq_true hcond
    have hpos := ht.pos
    omega
  have hstop : ∀ i (t : Traversal), decide (i < numDigits) = false →
      t.Offsets numDigits numCmps i → t.bytesLeft numDigits numCmps i = [] := by
    intro i t hcond _
    rw [Traversal.bytesLeft, blockCount_of_le hnd (not_lt.mp (of_decide_eq_false hcond)),
      Nat.sub_self, Nat.zero_mul]
    rfl
  rw [traversalRounds, flatMap_rounds (fun i t => t.bytesLeft numDigits numCmps i)
    (fun i => numDigits - i) (fun _ _ _ ht => ht.level hnd)
    (fun _ _ _ ht => ht.bytes_level hnd h8) hstop hvariant
    (Traversal.start_offsets leafAlice leafBob) (by omega), Traversal.bytesLeft, blockCount_one,
    Traversal.start_tripleCount, Nat.zero_div, List.range_eq_range', Nat.mul_div_assoc _ h8]

/-! ## Bounds -/

/-- Every access is inside its array. -/
def InRange (numDigits numCmps : ℕ) (log : List Access) : Prop :=
  ∀ a ∈ log, a.pos < a.buffer.size numDigits numCmps

@[simp] theorem inRange_nil : InRange numDigits numCmps [] := by
  intro a ha
  cases ha

@[simp] theorem inRange_cons {a : Access} {log : List Access} :
    InRange numDigits numCmps (a :: log) ↔
      a.pos < a.buffer.size numDigits numCmps ∧ InRange numDigits numCmps log :=
  List.forall_mem_cons

@[simp] theorem inRange_append {log log' : List Access} :
    InRange numDigits numCmps (log ++ log') ↔
      InRange numDigits numCmps log ∧ InRange numDigits numCmps log' :=
  List.forall_mem_append

theorem inRange_flatMap {ι : Type*} {l : List ι} {log : ι → List Access}
    (h : ∀ a ∈ l, InRange numDigits numCmps (log a)) :
    InRange numDigits numCmps (l.flatMap log) := by
  intro a ha
  obtain ⟨s, hs, ha⟩ := List.mem_flatMap.mp ha
  exact h s hs a ha

theorem inRange_cellAccesses {p : ℕ} (h : p + 8 ≤ numDigits * numCmps) :
    InRange numDigits numCmps (cellAccesses p) := by
  intro a ha
  obtain ⟨k, hk, rfl⟩ := List.mem_map.mp ha
  have hk8 := List.mem_range.mp hk
  show p + k < numDigits * numCmps
  omega

theorem Buffer.inRange_accesses {b : Buffer} {size : ℕ} (h : size ≤ b.size numDigits numCmps) :
    InRange numDigits numCmps (b.accesses size) := by
  intro a ha
  obtain ⟨p, hp, rfl⟩ := List.mem_map.mp ha
  exact (List.mem_range.mp hp).trans_le h

/-- The positions of a round are inside the arrays. -/
structure Slot.Fits (numDigits numCmps i offset : ℕ) (s : Slot) : Prop where
  byte : s.byte numCmps < (numDigits - 1) * numCmps / 8
  triple : s.tripleByte numCmps offset < (numDigits - 1) * numCmps / 8
  left : s.j * numCmps + s.m + 8 ≤ numDigits * numCmps
  right : (s.j + i) * numCmps + s.m + 8 ≤ numDigits * numCmps

include hnd h8 in
theorem Traversal.Offsets.fits {i : ℕ} {t : Traversal} (ht : t.Offsets numDigits numCmps i)
    {s : Slot} (hs : s ∈ levelSlots numDigits numCmps i) :
    s.Fits numDigits numCmps i t.tripleCount := by
  obtain ⟨hi, _, c, hc, hcells⟩ := ht
  obtain ⟨_, hgate, _, _⟩ := (mem_levelSlots hi h8 s).mp hs
  refine ⟨?_, ?_, slot_room hi h8 hs (by omega), slot_room hi h8 hs hgate⟩
  · exact (slot_byte_lt hi h8 hs).trans_le (level_room rfl hnd hi)
  · have hmem := List.mem_map_of_mem (f := Slot.tripleByte numCmps t.tripleCount) hs
    rw [hc, map_tripleByte_levelSlots hi h8, List.mem_range'_1, ← Nat.add_mul] at hmem
    have hdouble := blockCount_double hnd hi
    have hleft : 0 < blockCount numDigits (i * 2) := blockCount_pos hnd (by omega)
    have hle := Nat.mul_le_mul_right (numCmps / 8)
      (show c + gateCount numDigits i ≤ numDigits - 1 by omega)
    rw [hc, Nat.mul_div_assoc _ h8]
    exact hmem.2.trans_le hle

theorem Slot.Fits.mask {i offset : ℕ} {s : Slot} (h : s.Fits numDigits numCmps i offset) :
    InRange numDigits numCmps (s.maskAccesses numCmps i offset) := by
  simp only [Slot.maskAccesses, inRange_append, inRange_cons, inRange_nil, and_true]
  exact ⟨⟨⟨⟨⟨h.triple, h.byte, h.triple, h.byte⟩, inRange_cellAccesses h.left⟩, h.byte⟩,
    inRange_cellAccesses h.right⟩, h.byte⟩

theorem Slot.Fits.recombine {i offset : ℕ} {s : Slot} (h : s.Fits numDigits numCmps i offset)
    (party : Party) : InRange numDigits numCmps (s.recombineAccesses party numCmps offset) := by
  simp only [Slot.recombineAccesses, inRange_append, inRange_cons, inRange_nil, and_true]
  refine ⟨⟨?_, h.byte, h.triple, h.byte, h.triple, h.triple⟩, inRange_cellAccesses h.left⟩
  cases party with
  | alice =>
      simp only [inRange_cons, inRange_nil, and_true]
      exact ⟨h.byte, h.byte⟩
  | bob => exact inRange_nil

theorem inRange_exchangeAccesses (party : Party) {commSize : ℕ}
    (h : commSize ≤ (numDigits - 1) * numCmps / 8) :
    InRange numDigits numCmps (exchangeAccesses party commSize) := by
  have hei := Buffer.inRange_accesses (b := .ei) h
  have hfi := Buffer.inRange_accesses (b := .fi) h
  have he := Buffer.inRange_accesses (b := .e) h
  have hf := Buffer.inRange_accesses (b := .f) h
  have hadd : InRange numDigits numCmps ((List.range commSize).flatMap fun p =>
      [⟨.e, p⟩, ⟨.ei, p⟩, ⟨.f, p⟩, ⟨.fi, p⟩]) := by
    refine inRange_flatMap ?_
    intro p hp
    have hlt := (List.mem_range.mp hp).trans_le h
    simp only [inRange_cons, inRange_nil, and_true]
    exact ⟨hlt, hlt, hlt, hlt⟩
  cases party with
  | alice =>
      simp only [exchangeAccesses, inRange_append]
      exact ⟨⟨⟨⟨hei, hfi⟩, he⟩, hf⟩, hadd⟩
  | bob =>
      simp only [exchangeAccesses, inRange_append]
      exact ⟨⟨⟨⟨he, hf⟩, hei⟩, hfi⟩, hadd⟩

include hnd h8 in
theorem Traversal.Offsets.inRange {i : ℕ} {t : Traversal} (ht : t.Offsets numDigits numCmps i)
    (party : Party) : InRange numDigits numCmps (t.accesses party numDigits numCmps i) := by
  rw [Traversal.accesses, inRange_append, inRange_append]
  refine ⟨⟨inRange_flatMap fun s hs => (ht.fits hnd h8 hs).mask, ?_⟩, ?_⟩
  · refine inRange_exchangeAccesses party ?_
    rw [length_levelGates ht.pos]
    exact level_room rfl hnd ht.pos
  · exact inRange_flatMap fun s hs => (ht.counts ▸ ht.fits hnd h8 hs).recombine party

end Run

/-! ## Sizes -/

/-- The quantities of a run that are held in `int`: the lengths of the arrays
before they are divided, `leaf_eq` included, and what the indices are computed
from. -/
inductive TraversalInt (numDigits numCmps : ℕ) (run : List (Traversal × ℕ)) : ℕ → Prop
  | leafLength : TraversalInt numDigits numCmps run (numDigits * numCmps)
  | openLength : TraversalInt numDigits numCmps run ((numDigits - 1) * numCmps)
  | byteIndex {r : Traversal × ℕ} {s : Slot} (hr : r ∈ run)
      (hs : s ∈ levelSlots numDigits numCmps r.2) :
      TraversalInt numDigits numCmps run (s.counter * numCmps + s.m)
  | tripleIndex {r : Traversal × ℕ} {s : Slot} (hr : r ∈ run)
      (hs : s ∈ levelSlots numDigits numCmps r.2) :
      TraversalInt numDigits numCmps run (r.1.tripleCount + s.counter * numCmps + s.m)
  | oldTripleIndex {r : Traversal × ℕ} {s : Slot} (hr : r ∈ run)
      (hs : s ∈ levelSlots numDigits numCmps r.2) :
      TraversalInt numDigits numCmps run (r.1.oldTripleCount + s.counter * numCmps + s.m)
  | tripleCount {r : Traversal × ℕ} (hr : r ∈ run) :
      TraversalInt numDigits numCmps run
        (r.1.tripleCount + (levelGates numDigits r.2).length * numCmps)
  | leftIndex {r : Traversal × ℕ} {s : Slot} (hr : r ∈ run)
      (hs : s ∈ levelSlots numDigits numCmps r.2) :
      TraversalInt numDigits numCmps run (s.j * numCmps + s.m)
  | rightIndex {r : Traversal × ℕ} {s : Slot} (hr : r ∈ run)
      (hs : s ∈ levelSlots numDigits numCmps r.2) :
      TraversalInt numDigits numCmps run ((s.j + r.2) * numCmps + s.m)

section Sizes

variable {numDigits numCmps : ℕ} {run : List (Traversal × ℕ)}

/-- The levels of a traversal start from aligned offsets. -/
def Aligned (numDigits numCmps : ℕ) (run : List (Traversal × ℕ)) : Prop :=
  ∀ r ∈ run, r.2 < numDigits ∧ r.1.Offsets numDigits numCmps r.2

/-- The indices of a slot stay within the cells and the triples. -/
theorem Aligned.slot_le (haligned : Aligned numDigits numCmps run) (hnd : 0 < numDigits)
    (h8 : 8 ∣ numCmps) {r : Traversal × ℕ} {s : Slot} (hr : r ∈ run)
    (hs : s ∈ levelSlots numDigits numCmps r.2) :
    s.counter * numCmps + s.m ≤ numDigits * numCmps ∧
      r.1.tripleCount + s.counter * numCmps + s.m ≤ numDigits * numCmps ∧
      s.j * numCmps + s.m ≤ numDigits * numCmps ∧
      (s.j + r.2) * numCmps + s.m ≤ numDigits * numCmps := by
  have hfits := (haligned r hr).2.fits hnd h8 hs
  have htriple := hfits.triple
  have hleft := hfits.left
  have hright := hfits.right
  have hle : (numDigits - 1) * numCmps ≤ numDigits * numCmps :=
    Nat.mul_le_mul_right _ (Nat.sub_le _ _)
  rw [Slot.tripleByte] at htriple
  omega

/-- A level ends at an offset within the triples of the digits. -/
theorem Aligned.tripleCount_le (haligned : Aligned numDigits numCmps run) (hnd : 0 < numDigits)
    {r : Traversal × ℕ} (hr : r ∈ run) :
    r.1.tripleCount + (levelGates numDigits r.2).length * numCmps ≤ numDigits * numCmps := by
  obtain ⟨hi, -, c, hc, hcells⟩ := (haligned r hr).2
  have hdouble := blockCount_double hnd hi
  rw [hc, length_levelGates hi, ← Nat.add_mul]
  exact Nat.mul_le_mul_right _ (by omega)

/-- No quantity of a run exceeds the length of `leaf_eq`. -/
theorem TraversalInt.le (haligned : Aligned numDigits numCmps run) (hnd : 0 < numDigits)
    (h8 : 8 ∣ numCmps) {v : ℕ} (hv : TraversalInt numDigits numCmps run v) :
    v ≤ numDigits * numCmps := by
  cases hv with
  | leafLength => exact le_rfl
  | openLength => exact Nat.mul_le_mul_right _ (Nat.sub_le _ _)
  | byteIndex hr hs => exact (haligned.slot_le hnd h8 hr hs).1
  | tripleIndex hr hs => exact (haligned.slot_le hnd h8 hr hs).2.1
  | oldTripleIndex hr hs =>
      rw [← (haligned _ hr).2.counts]
      exact (haligned.slot_le hnd h8 hr hs).2.1
  | tripleCount hr => exact haligned.tripleCount_le hnd hr
  | leftIndex hr hs => exact (haligned.slot_le hnd h8 hr hs).2.2.1
  | rightIndex hr hs => exact (haligned.slot_le hnd h8 hr hs).2.2.2

end Sizes

/-! ## The run -/

/-- The masking loops of a run use every byte of the first two parts of the
triples exactly once, every gate is recombined with the bytes it was masked
with, and no access of the run leaves its array, where the lengths and the
indices are those of an `int`.  The last holds exactly if the length of `leaf_eq`
is one. -/
theorem traversal_triples_iff {numDigits numCmps : ℕ} (hnd : 1 ≤ numDigits) (h8 : 8 ∣ numCmps)
    (party : Party) (packing : BitPacking) (triplesAlice triplesBob : Triple)
    (leafAlice leafBob : List Byte) :
    let run := traversalRounds packing triplesAlice triplesBob numDigits numCmps leafAlice leafBob
    let masking := run.flatMap fun r => r.1.maskAccesses numDigits numCmps r.2
    ((∀ b, b = .ai ∨ b = .bi → (positions b masking).Nodup ∧
        ∀ p, p ∈ positions b masking ↔ p < (numDigits - 1) * numCmps / 8) ∧
      (∀ r ∈ run, ∀ s ∈ levelSlots numDigits numCmps r.2,
        let mask := s.maskAccesses numCmps r.2 r.1.tripleCount
        let recombine := s.recombineAccesses party numCmps r.1.oldTripleCount
        positions .ai recombine = positions .ai mask ∧
          positions .bi recombine = positions .bi mask ∧
          positions .ci recombine = positions .ai mask) ∧
      (∀ a ∈ traversalAccesses party packing triplesAlice triplesBob numDigits numCmps leafAlice
        leafBob, a.pos < a.buffer.size numDigits numCmps) ∧
      ∀ v, TraversalInt numDigits numCmps run v → v < 2 ^ 31) ↔
      numDigits * numCmps < 2 ^ 31 := by
  intro run masking
  have hoffsets : Aligned numDigits numCmps run := traversalRounds_offsets hnd leafAlice leafBob
  constructor
  · rintro ⟨-, -, -, hint⟩
    exact hint _ .leafLength
  intro hsmall
  refine ⟨?_, ?_, ?_, fun v hv => (hv.le hoffsets hnd h8).trans_lt hsmall⟩
  · intro b hb
    have hrange : positions b masking = List.range ((numDigits - 1) * numCmps / 8) := by
      rw [← traversalRounds_bytes hnd h8 leafAlice leafBob, positions_flatMap]
      refine List.flatMap_congr fun r _ => ?_
      rw [Traversal.maskAccesses, positions_flatMap, List.map_eq_flatMap]
      exact List.flatMap_congr fun s _ => positions_maskAccesses numCmps r.2 _ s hb
    rw [hrange]
    exact ⟨List.nodup_range, fun p => List.mem_range⟩
  · intro r hr s _
    have hai := positions_maskAccesses numCmps r.2 r.1.tripleCount s (.inl rfl)
    have hbi := positions_maskAccesses numCmps r.2 r.1.tripleCount s (.inr rfl)
    rw [(hoffsets r hr).2.counts] at hai hbi ⊢
    exact ⟨(positions_recombineAccesses party numCmps _ s (.inl rfl)).trans hai.symm,
      (positions_recombineAccesses party numCmps _ s (.inr (.inl rfl))).trans hbi.symm,
      (positions_recombineAccesses party numCmps _ s (.inr (.inr rfl))).trans hai.symm⟩
  · show InRange numDigits numCmps (traversalAccesses ..)
    rw [traversalAccesses, inRange_append]
    refine ⟨inRange_flatMap fun r hr => (hoffsets r hr).2.inRange hnd h8 party, ?_⟩
    exact Buffer.inRange_accesses (Nat.le_mul_of_pos_left _ hnd)

theorem traversal_triples_lsb :
    let run := traversalRounds lsbPacking (onesTriples 2).1 (onesTriples 2).2 3 8
      (List.replicate 24 1) (List.replicate 24 0)
    let masking := run.flatMap fun r => r.1.maskAccesses 3 8 r.2
    (positions .ai masking).Nodup ∧ ∀ p, p ∈ positions .ai masking ↔ p < 2 :=
  ((traversal_triples_iff (by decide) (by decide) .alice lsbPacking (onesTriples 2).1
    (onesTriples 2).2 (List.replicate 24 1) (List.replicate 24 0)).mpr (by decide)).1 .ai
      (.inl rfl)

/-- Digits of one bit of `2 ^ 25` words: `leaf_eq` would have `2 ^ 31` cells. -/
theorem traversal_overflows_of_wideWords :
    1 ≤ wideWords.numDigits ∧ 8 ∣ wideWords.numCmps ∧
      ¬ ∀ v, TraversalInt wideWords.numDigits wideWords.numCmps
        (traversalRounds lsbPacking (sampleEquality wideWords).triplesAlice
          (sampleEquality wideWords).triplesBob wideWords.numDigits wideWords.numCmps
          (List.replicate (wideWords.numDigits * wideWords.numCmps) 0)
          (List.replicate (wideWords.numDigits * wideWords.numCmps) 0)) v → v < 2 ^ 31 := by
  refine ⟨by decide, by decide, ?_⟩
  intro hint
  exact absurd (hint _ .leafLength) (by decide)

end Sectric
