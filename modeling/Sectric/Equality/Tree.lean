import Mathlib.Order.BooleanAlgebra.Basic
import Sectric.Equality.Model
import Sectric.Lib.Beaver
import Sectric.Lib.TreeReduce

/-!
# The tree of products computes a conjunction

The value of a cell is the exclusive or of the two parties' bits.  A level of
the traversal takes the cells of every gate to their conjunction and leaves the
others alone, so the whole traversal is the strided tree of meets, for each
comparison on its own.
-/

namespace Sectric

open Lib

/-! ## Bits in bytes -/

/-- A cell holds 0 or 1. -/
def IsBit (b : Byte) : Prop := b = 0 ∨ b = 1

theorem isBit_boolByte (b : Bool) : IsBit (boolByte b) := by
  cases b
  · exact .inl rfl
  · exact .inr rfl

instance (b : Byte) : Decidable (IsBit b) := inferInstanceAs (Decidable (b = 0 ∨ b = 1))

/-- Every cell holds 0 or 1. -/
def AllBits (xs : List Byte) : Prop := ∀ p, IsBit (xs.getD p 0)

theorem allBits_of_mem {xs : List Byte} (h : ∀ b, b ∈ xs → IsBit b) : AllBits xs := by
  intro p
  rw [List.getD_eq_getElem?_getD]
  cases hp : xs[p]? with
  | none => exact .inl rfl
  | some b => exact h b (List.mem_of_getElem? hp)

theorem allBits_map_boolByte (bits : List Bool) : AllBits (bits.map boolByte) := by
  refine allBits_of_mem ?_
  intro b hb
  obtain ⟨bit, _, rfl⟩ := List.mem_map.mp hb
  exact isBit_boolByte _

/-- The bit of a cell. -/
def bitAt (xs : List Byte) (p : ℕ) : Bool := xs.getD p 0 != 0

/-- The value the two parties share in a cell. -/
def sharedBit (xs ys : List Byte) (p : ℕ) : Bool := bitAt xs p ^^ bitAt ys p

@[simp] theorem boolByte_bne_zero (b : Bool) : (boolByte b != 0) = b := by
  cases b <;> decide

theorem sharedBit_comm (xs ys : List Byte) (p : ℕ) : sharedBit xs ys p = sharedBit ys xs p :=
  Bool.xor_comm ..

theorem eq_one_iff_shared {x y : Byte} (hx : IsBit x) (hy : IsBit y) :
    x ^^^ y = 1 ↔ ((x != 0) ^^ (y != 0)) = true := by
  rcases hx with rfl | rfl <;> rcases hy with rfl | rfl <;> decide

/-- `bool_to_uint8` puts cell `k` into bit `k`, and `uint8_to_bool` reads it
from there. -/
structure BitPacking.Lawful (packing : BitPacking) : Prop where
  boolToUint8 : ∀ cells k, cells.length = 8 → k < 8 →
    (packing.boolToUint8 cells).getLsbD k = bitAt cells k
  uint8ToBool : ∀ z, packing.uint8ToBool z = (List.range 8).map fun k => boolByte (z.getLsbD k)

theorem BitPacking.Lawful.getD_uint8ToBool {packing : BitPacking} (h : packing.Lawful) (z : Byte)
    {k : ℕ} (hk : k < 8) : (packing.uint8ToBool z).getD k 0 = boolByte (z.getLsbD k) := by
  rw [h.uint8ToBool, getD_map_range _ _ hk]

theorem length_cellsAt {xs : List Byte} {p : ℕ} (h : p + 8 ≤ xs.length) :
    (cellsAt xs p).length = 8 := by
  rw [cellsAt, List.length_take, List.length_drop]
  omega

theorem bitAt_cellsAt (xs : List Byte) (p : ℕ) {k : ℕ} (hk : k < 8) :
    bitAt (cellsAt xs p) k = bitAt xs (p + k) := by
  rw [bitAt, bitAt, cellsAt, List.getD_eq_getElem?_getD, List.getD_eq_getElem?_getD,
    List.getElem?_take, if_pos hk, List.getElem?_drop]

/-- A bit of eight packed cells. -/
theorem BitPacking.Lawful.getLsbD_cellsAt {packing : BitPacking} (h : packing.Lawful)
    {xs : List Byte} {p k : ℕ} (hfit : p + 8 ≤ xs.length) (hk : k < 8) :
    (packing.boolToUint8 (cellsAt xs p)).getLsbD k = bitAt xs (p + k) := by
  rw [h.boolToUint8 _ _ (length_cellsAt hfit) hk, bitAt_cellsAt _ _ hk]

/-! ## Writing eight cells at a time -/

section Cells

variable {ι : Type*} (pos : ι → ℕ) (bytes : ι → List Byte)

/-- A loop that writes eight cells a round. -/
theorem foldl_setCellsAt_eq_writeAll :
    ∀ (rounds : List ι) (xs : List Byte),
      rounds.foldl (fun xs s => setCellsAt xs (pos s) (bytes s)) xs =
        writeAll (fun p : ι × ℕ => pos p.1 + p.2) (fun p => (bytes p.1).getD p.2 0)
          (rounds.flatMap fun s => (List.range 8).map fun k => (s, k)) xs
  | [], _ => rfl
  | s :: rounds, xs => by
      rw [List.foldl_cons, foldl_setCellsAt_eq_writeAll rounds, List.flatMap_cons, writeAll,
        writeAll, List.foldl_append, List.foldl_map]
      rfl

@[simp] theorem length_foldl_setCellsAt (rounds : List ι) (xs : List Byte) :
    (rounds.foldl (fun xs s => setCellsAt xs (pos s) (bytes s)) xs).length = xs.length := by
  rw [foldl_setCellsAt_eq_writeAll, length_writeAll]

theorem getD_foldl_setCellsAt_of_ne {rounds : List ι} (xs : List Byte) {p : ℕ}
    (h : ∀ s ∈ rounds, ∀ k < 8, pos s + k ≠ p) :
    (rounds.foldl (fun xs s => setCellsAt xs (pos s) (bytes s)) xs).getD p 0 = xs.getD p 0 := by
  rw [foldl_setCellsAt_eq_writeAll, List.getD_eq_getElem?_getD, getElem?_writeAll_of_ne,
    ← List.getD_eq_getElem?_getD]
  intro key hkey
  obtain ⟨s, hs, hkey⟩ := List.mem_flatMap.mp hkey
  obtain ⟨k, hk, rfl⟩ := List.mem_map.mp hkey
  exact h s hs k (List.mem_range.mp hk)

/-- With rounds at distinct multiples of eight, every cell of a round holds its
byte. -/
theorem getD_foldl_setCellsAt {rounds : List ι} (xs : List Byte) (hnodup : rounds.Nodup)
    (hdvd : ∀ s ∈ rounds, 8 ∣ pos s) (hinj : ∀ s ∈ rounds, ∀ t ∈ rounds, pos s = pos t → s = t)
    {s : ι} (hs : s ∈ rounds) {k : ℕ} (hk : k < 8) (hlt : pos s + k < xs.length) :
    (rounds.foldl (fun xs s => setCellsAt xs (pos s) (bytes s)) xs).getD (pos s + k) 0 =
      (bytes s).getD k 0 := by
  have hmem : ∀ key : ι × ℕ, key ∈ (rounds.flatMap fun s => (List.range 8).map fun k => (s, k)) ↔
      key.1 ∈ rounds ∧ key.2 < 8 := by
    rintro ⟨s, k⟩
    simp
  have hkeys : (rounds.flatMap fun s => (List.range 8).map fun k => (s, k)).Nodup := by
    rw [List.nodup_flatMap]
    refine ⟨fun s _ => List.Nodup.map (fun a b h => (Prod.mk.inj h).2) List.nodup_range, ?_⟩
    refine hnodup.imp ?_
    intro s t hst
    simp only [Function.onFun, List.disjoint_left, List.mem_map, List.mem_range]
    rintro _ ⟨k, _, rfl⟩ ⟨k', _, h⟩
    exact hst (Prod.mk.inj h).1.symm
  have hpos : ((rounds.flatMap fun s => (List.range 8).map fun k => (s, k)).map
      fun p : ι × ℕ => pos p.1 + p.2).Nodup := by
    refine List.Nodup.map_on ?_ hkeys
    rintro ⟨s, k⟩ hs ⟨t, k'⟩ ht h
    obtain ⟨hs, hk⟩ := (hmem _).mp hs
    obtain ⟨ht, hk'⟩ := (hmem _).mp ht
    have hs8 := hdvd s hs
    have ht8 := hdvd t ht
    simp only at h hk hk'
    have hst : s = t := hinj s hs t ht (by omega)
    subst hst
    exact congrArg _ (by omega)
  rw [foldl_setCellsAt_eq_writeAll, List.getD_eq_getElem?_getD,
    getElem?_writeAll (fun p : ι × ℕ => pos p.1 + p.2) _ _ hpos ((hmem (s, k)).mpr ⟨hs, hk⟩) hlt]
  rfl

end Cells

/-! ## The slots of a level -/

/-- The number of gates of the level of stride `i`. -/
def gateCount (numDigits i : ℕ) : ℕ := (numDigits + i - 1) / (2 * i)

theorem lt_gateCount (numDigits : ℕ) {i : ℕ} (hi : 0 < i) (c : ℕ) :
    c < gateCount numDigits i ↔ c * (2 * i) + i < numDigits := by
  rw [gateCount, Nat.lt_iff_add_one_le, Nat.le_div_iff_mul_le (by omega), Nat.add_mul]
  omega

theorem levelGates_eq {numDigits i : ℕ} (hi : 0 < i) :
    levelGates numDigits i =
      (List.range (gateCount numDigits i)).map fun c => (c * (2 * i), c) := by
  have hcond : ∀ c, decide (0 + c * (2 * i) < numDigits ∧ 0 + c * (2 * i) + i < numDigits) =
      decide (c < gateCount numDigits i) := by
    intro c
    rw [decide_eq_decide, lt_gateCount _ hi]
    omega
  have hfuel : gateCount numDigits i ≤ numDigits := by
    by_contra hlt
    have h := (lt_gateCount numDigits hi numDigits).mp (by omega)
    have := Nat.le_mul_of_pos_right numDigits (show 0 < 2 * i by omega)
    omega
  rw [levelGates, loopValues_add hcond hfuel]
  apply List.ext_getElem
  · simp
  · intro c _ _
    simp

theorem length_levelGates {numDigits i : ℕ} (hi : 0 < i) :
    (levelGates numDigits i).length = gateCount numDigits i := by
  rw [levelGates_eq hi, List.length_map, List.length_range]

theorem gateCount_le {numDigits i : ℕ} (hi : 0 < i) (hnd : 0 < numDigits) :
    gateCount numDigits i ≤ numDigits - 1 := by
  by_contra hlt
  have h := (lt_gateCount numDigits hi (numDigits - 1)).mp (by omega)
  have := Nat.le_mul_of_pos_right (numDigits - 1) (show 0 < 2 * i by omega)
  omega

section Slots

variable {numDigits numCmps i : ℕ} (hi : 0 < i) (h8 : 8 ∣ numCmps)

include h8 in
theorem loopValues_cmps : loopValues (fun m => decide (m < numCmps)) (· + 8) numCmps 0 =
    (List.range (numCmps / 8)).map fun q => 0 + q * 8 := by
  refine loopValues_add ?_ (Nat.div_le_self ..)
  intro q
  rw [decide_eq_decide]
  omega

include hi h8

theorem mem_levelSlots (s : Slot) :
    s ∈ levelSlots numDigits numCmps i ↔
      s.j = s.counter * (2 * i) ∧ s.j + i < numDigits ∧ 8 ∣ s.m ∧ s.m < numCmps := by
  rw [levelSlots, levelGates_eq hi, loopValues_cmps h8]
  simp only [List.mem_flatMap, List.mem_map, List.mem_range]
  constructor
  · rintro ⟨_, ⟨c, hc, rfl⟩, _, ⟨q, hq, rfl⟩, rfl⟩
    have := (lt_gateCount _ hi c).mp hc
    exact ⟨rfl, this, by simp, by simp only; omega⟩
  · rintro ⟨hj, hgate, hdvd, hm⟩
    refine ⟨(s.counter * (2 * i), s.counter), ⟨s.counter, ?_, rfl⟩, s.m, ⟨s.m / 8, ?_, ?_⟩, ?_⟩
    · rw [lt_gateCount _ hi]
      omega
    · omega
    · omega
    · rw [← hj]

theorem levelSlots_nodup : (levelSlots numDigits numCmps i).Nodup := by
  rw [levelSlots, levelGates_eq hi, loopValues_cmps h8, List.nodup_flatMap]
  constructor
  · intro gate _
    rw [List.map_map]
    refine List.Nodup.map ?_ List.nodup_range
    intro q q' h
    have := congrArg Slot.m h
    simp only [Function.comp_apply] at this
    omega
  · rw [List.pairwise_map]
    refine List.nodup_range.imp ?_
    intro c c' hne
    simp only [Function.onFun, List.disjoint_left, List.mem_map]
    rintro _ ⟨_, _, rfl⟩ ⟨_, _, h⟩
    exact hne (congrArg Slot.counter h).symm

/-- The bytes of two slots are the same only if the slots are. -/
theorem slot_eq_of_offset {s t : Slot} (hs : s ∈ levelSlots numDigits numCmps i)
    (ht : t ∈ levelSlots numDigits numCmps i)
    (h : s.counter * numCmps + s.m = t.counter * numCmps + t.m) : s = t := by
  obtain ⟨hsj, _, _, hsm⟩ := (mem_levelSlots hi h8 s).mp hs
  obtain ⟨htj, _, _, htm⟩ := (mem_levelSlots hi h8 t).mp ht
  obtain ⟨hcounter, hm⟩ := cell_inj hsm htm h
  have hj : s.j = t.j := by rw [hsj, htj, hcounter]
  exact Slot.ext hj hcounter hm

theorem slot_byte_mul {s : Slot} (hs : s ∈ levelSlots numDigits numCmps i) :
    s.byte numCmps * 8 = s.counter * numCmps + s.m := by
  obtain ⟨_, _, hm, _⟩ := (mem_levelSlots hi h8 s).mp hs
  exact Nat.div_mul_cancel (Nat.dvd_add (Dvd.dvd.mul_left h8 _) hm)

theorem slot_byte_lt {s : Slot} (hs : s ∈ levelSlots numDigits numCmps i) :
    s.byte numCmps < gateCount numDigits i * numCmps / 8 := by
  obtain ⟨hj, hgate, _, hm⟩ := (mem_levelSlots hi h8 s).mp hs
  have hmul := slot_byte_mul hi h8 hs
  have hcounter : s.counter < gateCount numDigits i := by
    rw [lt_gateCount _ hi]
    omega
  have hlt := cell_lt hcounter hm
  have hdvd : 8 ∣ gateCount numDigits i * numCmps := Dvd.dvd.mul_left h8 _
  omega

/-- The eight cells of a slot lie in the array, whatever the digit. -/
theorem slot_room {s : Slot} (hs : s ∈ levelSlots numDigits numCmps i) {j : ℕ}
    (hj : j < numDigits) : j * numCmps + s.m + 8 ≤ numDigits * numCmps := by
  obtain ⟨_, _, hm8, hm⟩ := (mem_levelSlots hi h8 s).mp hs
  have hlast : j * numCmps + (s.m + 7) < numDigits * numCmps := cell_lt hj (by omega)
  omega

theorem slot_byte_nodup : ((levelSlots numDigits numCmps i).map (Slot.byte numCmps)).Nodup := by
  refine List.Nodup.map_on ?_ (levelSlots_nodup hi h8)
  intro s hs t ht h
  refine slot_eq_of_offset hi h8 hs ht ?_
  rw [← slot_byte_mul hi h8 hs, ← slot_byte_mul hi h8 ht, h]

end Slots

/-! ## One level -/

theorem length_xorBytes (x y : List Byte) (size : ℕ) : (xorBytes x y size).length = x.length :=
  length_modifyAll ..

theorem length_receive {buffer data : List Byte} {size : ℕ} (hb : size ≤ buffer.length)
    (hd : size ≤ data.length) : (receive buffer data size).length = buffer.length := by
  rw [receive, List.length_append, List.length_take, List.length_drop]
  omega

/-- What a party opens: its own masked byte plus the one it received. -/
theorem getD_open {buffer other own : List Byte} {size p : ℕ} (hb : size ≤ buffer.length)
    (hd : size ≤ other.length) (hp : p < size) :
    (xorBytes (receive buffer other size) own size).getD p 0 = other.getD p 0 ^^^ own.getD p 0 := by
  have hlen := length_receive hb hd
  have hmem : p ∈ List.range size := List.mem_range.mpr hp
  have hget : (receive buffer other size)[p]? = some (other.getD p 0) := by
    rw [receive, List.getElem?_append_left (by rw [List.length_take]; omega),
      List.getElem?_take, if_pos hp, List.getD_eq_getElem?_getD,
      List.getElem?_eq_getElem (by omega)]
    rfl
  rw [xorBytes, List.getD_eq_getElem?_getD]
  have hcell := getElem?_modifyAll id (fun p b => b ^^^ own.getD p 0) (List.range size)
    (receive buffer other size) (by simpa using List.nodup_range) p hmem
  rw [id, hget] at hcell
  rw [hcell]
  rfl

/-- A byte that the masking loop writes. -/
theorem getD_writeSlots {numDigits numCmps i : ℕ} (hi : 0 < i) (h8 : 8 ∣ numCmps)
    (val : Slot → Byte) {buffer : List Byte} {s : Slot}
    (hs : s ∈ levelSlots numDigits numCmps i)
    (hroom : gateCount numDigits i * numCmps / 8 ≤ buffer.length) :
    (writeAll (Slot.byte numCmps) val (levelSlots numDigits numCmps i) buffer).getD
      (s.byte numCmps) 0 = val s := by
  have hlt := slot_byte_lt hi h8 hs
  rw [List.getD_eq_getElem?_getD,
    getElem?_writeAll (Slot.byte numCmps) val _ (slot_byte_nodup hi h8) hs (by omega)]
  rfl

theorem tempZ_eq_productShare (party : Party) (e f a b c : Byte) :
    tempZ party e f a b c = productShare (party = .alice) e f a b c := by
  cases party <;> rfl

/-- The triples of the two parties are products at every byte. -/
structure ValidTriples (alice bob : Triple) (bytes : ℕ) : Prop where
  length_alice : alice.ai.length = bytes ∧ alice.bi.length = bytes ∧ alice.ci.length = bytes
  length_bob : bob.ai.length = bytes ∧ bob.bi.length = bytes ∧ bob.ci.length = bytes
  valid : ∀ p < bytes, ValidTriple (alice.ai.getD p 0) (bob.ai.getD p 0) (alice.bi.getD p 0)
    (bob.bi.getD p 0) (alice.ci.getD p 0) (bob.ci.getD p 0)

/-- What holds of a party's arrays between the levels. -/
structure Wires.Shaped (cells bytes : ℕ) (w : Wires) : Prop where
  length_leafEq : w.leafEq.length = cells
  length_ei : w.ei.length = bytes
  length_fi : w.fi.length = bytes
  length_e : w.e.length = bytes
  length_f : w.f.length = bytes
  bits : AllBits w.leafEq

theorem Wires.Shaped.maskPass {cells bytes : ℕ} {w : Wires} (hw : w.Shaped cells bytes)
    (packing : BitPacking) (triples : Triple) (numDigits numCmps i tripleCount : ℕ) :
    (w.maskPass packing triples numDigits numCmps i tripleCount).Shaped cells bytes where
  length_leafEq := hw.length_leafEq
  length_ei := (length_writeAll ..).trans hw.length_ei
  length_fi := (length_writeAll ..).trans hw.length_fi
  length_e := hw.length_e
  length_f := hw.length_f
  bits := hw.bits

section Open

variable {cells bytes : ℕ} {w other : Wires} (hw : w.Shaped cells bytes)
  (ho : other.Shaped cells bytes) {size : ℕ} (hsize : size ≤ bytes)

include hw ho hsize

theorem Wires.Shaped.openPass : (w.openPass size other).Shaped cells bytes where
  length_leafEq := hw.length_leafEq
  length_ei := hw.length_ei
  length_fi := hw.length_fi
  length_e := (length_xorBytes ..).trans ((length_receive (hsize.trans_eq hw.length_e.symm)
    (hsize.trans_eq ho.length_ei.symm)).trans hw.length_e)
  length_f := (length_xorBytes ..).trans ((length_receive (hsize.trans_eq hw.length_f.symm)
    (hsize.trans_eq ho.length_fi.symm)).trans hw.length_f)
  bits := hw.bits

/-- What a party opens at `p`. -/
theorem Wires.Shaped.getD_openPass {p : ℕ} (hp : p < size) :
    (w.openPass size other).e.getD p 0 = other.ei.getD p 0 ^^^ w.ei.getD p 0 ∧
      (w.openPass size other).f.getD p 0 = other.fi.getD p 0 ^^^ w.fi.getD p 0 :=
  ⟨getD_open (hsize.trans_eq hw.length_e.symm) (hsize.trans_eq ho.length_ei.symm) hp,
    getD_open (hsize.trans_eq hw.length_f.symm) (hsize.trans_eq ho.length_fi.symm) hp⟩

end Open

theorem ValidTriples.at {alice bob : Triple} {bytes : ℕ} (h : ValidTriples alice bob bytes)
    (p : ℕ) : ValidTriple (alice.ai.getD p 0) (bob.ai.getD p 0) (alice.bi.getD p 0)
      (bob.bi.getD p 0) (alice.ci.getD p 0) (bob.ci.getD p 0) := by
  rcases Nat.lt_or_ge p bytes with hp | hp
  · exact h.valid p hp
  · obtain ⟨haa, hab, hac⟩ := h.length_alice
    obtain ⟨hba, hbb, hbc⟩ := h.length_bob
    have hout : ∀ xs : List Byte, xs.length = bytes → xs.getD p 0 = 0 :=
      fun xs hxs => List.getD_eq_default xs 0 (by omega)
    rw [hout _ haa, hout _ hab, hout _ hac, hout _ hba, hout _ hbb, hout _ hbc]
    rfl

section Level

variable {packing : BitPacking} (hpacking : packing.Lawful) {triplesAlice triplesBob : Triple}
  {numDigits numCmps bytes : ℕ} (hvalid : ValidTriples triplesAlice triplesBob bytes)
  (hbytes : bytes = (numDigits - 1) * numCmps / 8) (hnd : 0 < numDigits) (h8 : 8 ∣ numCmps)

include hbytes hnd in
theorem level_room {i : ℕ} (hi : 0 < i) : gateCount numDigits i * numCmps / 8 ≤ bytes := by
  rw [hbytes]
  exact Nat.div_le_div_right (Nat.mul_le_mul_right _ (gateCount_le hi hnd))

include hbytes hnd h8 in
/-- The masked inputs of a gate. -/
theorem Wires.Shaped.getD_maskPass {w : Wires} {cells i : ℕ} (hw : w.Shaped cells bytes)
    (packing : BitPacking) (triples : Triple) (tripleCount : ℕ) (hi : 0 < i) {s : Slot}
    (hs : s ∈ levelSlots numDigits numCmps i) :
    let masked := w.maskPass packing triples numDigits numCmps i tripleCount
    masked.ei.getD (s.byte numCmps) 0 = triples.ai.getD (s.tripleByte numCmps tripleCount) 0 ^^^
        packing.boolToUint8 (cellsAt w.leafEq (s.j * numCmps + s.m)) ∧
      masked.fi.getD (s.byte numCmps) 0 = triples.bi.getD (s.tripleByte numCmps tripleCount) 0 ^^^
        packing.boolToUint8 (cellsAt w.leafEq ((s.j + i) * numCmps + s.m)) := by
  have hroom := level_room hbytes hnd hi
  exact ⟨getD_writeSlots hi h8 _ hs (hroom.trans_eq hw.length_ei.symm),
    getD_writeSlots hi h8 _ hs (hroom.trans_eq hw.length_fi.symm)⟩

include hvalid hbytes hnd h8 in
/-- The two bytes a slot recombines to share the product of its shared inputs. -/
theorem slotZ_xor (packing : BitPacking) (tripleCount : ℕ) {alice bob : Wires} {cells i : ℕ}
    (hi : 0 < i)
    (ha : alice.Shaped cells bytes) (hb : bob.Shaped cells bytes) {s : Slot}
    (hs : s ∈ levelSlots numDigits numCmps i) :
    let maskedAlice := alice.maskPass packing triplesAlice numDigits numCmps i tripleCount
    let maskedBob := bob.maskPass packing triplesBob numDigits numCmps i tripleCount
    let commSize := (levelGates numDigits i).length * numCmps / 8
    (maskedAlice.openPass commSize maskedBob).slotZ .alice triplesAlice numCmps tripleCount s ^^^
        (maskedBob.openPass commSize maskedAlice).slotZ .bob triplesBob numCmps tripleCount s =
      (packing.boolToUint8 (cellsAt alice.leafEq (s.j * numCmps + s.m)) ^^^
        packing.boolToUint8 (cellsAt bob.leafEq (s.j * numCmps + s.m))) &&&
      (packing.boolToUint8 (cellsAt alice.leafEq ((s.j + i) * numCmps + s.m)) ^^^
        packing.boolToUint8 (cellsAt bob.leafEq ((s.j + i) * numCmps + s.m))) := by
  intro maskedAlice maskedBob commSize
  have hcomm : commSize = gateCount numDigits i * numCmps / 8 := by
    rw [← length_levelGates hi]
  have hroom : commSize ≤ bytes := hcomm.le.trans (level_room hbytes hnd hi)
  have hlt : s.byte numCmps < commSize := hcomm ▸ slot_byte_lt hi h8 hs
  have hmaskAlice := ha.maskPass packing triplesAlice numDigits numCmps i tripleCount
  have hmaskBob := hb.maskPass packing triplesBob numDigits numCmps i tripleCount
  obtain ⟨heAlice, hfAlice⟩ := ha.getD_maskPass hbytes hnd h8 packing triplesAlice tripleCount hi hs
  obtain ⟨heBob, hfBob⟩ := hb.getD_maskPass hbytes hnd h8 packing triplesBob tripleCount hi hs
  obtain ⟨heOpenAlice, hfOpenAlice⟩ := hmaskAlice.getD_openPass hmaskBob hroom hlt
  obtain ⟨heOpenBob, hfOpenBob⟩ := hmaskBob.getD_openPass hmaskAlice hroom hlt
  rw [Wires.slotZ, Wires.slotZ, tempZ_eq_productShare, tempZ_eq_productShare, heOpenAlice,
    hfOpenAlice, heOpenBob, hfOpenBob, BitVec.xor_comm (maskedBob.ei.getD _ 0),
    BitVec.xor_comm (maskedBob.fi.getD _ 0)]
  exact productShare_xor (hvalid.at _) (congrArg₂ _ heAlice heBob) (congrArg₂ _ hfAlice hfBob)

include h8 in
theorem slot_pos_eq {i : ℕ} (hi : 0 < i) {s t : Slot} (hs : s ∈ levelSlots numDigits numCmps i)
    (ht : t ∈ levelSlots numDigits numCmps i)
    (h : s.j * numCmps + s.m = t.j * numCmps + t.m) : s = t := by
  obtain ⟨hsj, _, _, hsm⟩ := (mem_levelSlots hi h8 s).mp hs
  obtain ⟨htj, _, _, htm⟩ := (mem_levelSlots hi h8 t).mp ht
  obtain ⟨hj, hm⟩ := cell_inj hsm htm h
  have hcounter : s.counter = t.counter := by
    rw [hsj, htj] at hj
    exact Nat.eq_of_mul_eq_mul_right (by omega) hj
  exact Slot.ext hj hcounter hm

include h8 in
theorem slot_cell_lt {i : ℕ} (hi : 0 < i) {s : Slot} (hs : s ∈ levelSlots numDigits numCmps i)
    {k : ℕ} (hk : k < 8) : s.m + k < numCmps ∧ s.j * numCmps + s.m + k < numDigits * numCmps := by
  obtain ⟨_, hgate, hm, hlt⟩ := (mem_levelSlots hi h8 s).mp hs
  have hroom := slot_room hi h8 hs (show s.j < numDigits by omega)
  omega

include hpacking h8 in
/-- The cells of a slot after a level hold the bits of its byte. -/
theorem getD_recombinePass {i count : ℕ} (hi : 0 < i) (party : Party) (triples : Triple)
    {w : Wires} (hlen : w.leafEq.length = numDigits * numCmps) {s : Slot}
    (hs : s ∈ levelSlots numDigits numCmps i) {k : ℕ} (hk : k < 8) :
    (w.recombinePass packing party triples numDigits numCmps i count).leafEq.getD
        (s.j * numCmps + s.m + k) 0 =
      boolByte ((w.slotZ party triples numCmps count s).getLsbD k) := by
  have hdvd : ∀ s ∈ levelSlots numDigits numCmps i, 8 ∣ s.j * numCmps + s.m := by
    intro s hs
    obtain ⟨_, _, hm, _⟩ := (mem_levelSlots hi h8 s).mp hs
    exact Nat.dvd_add (Dvd.dvd.mul_left h8 _) hm
  rw [Wires.recombinePass, getD_foldl_setCellsAt (fun s : Slot => s.j * numCmps + s.m) _ _
    (levelSlots_nodup hi h8) hdvd (fun s hs t ht h => slot_pos_eq h8 hi hs ht h) hs hk
    (hlen ▸ (slot_cell_lt h8 hi hs hk).2), hpacking.getD_uint8ToBool _ hk]

include h8 in
/-- A cell of a digit without a gate keeps its content. -/
theorem getD_recombinePass_of_not {i count : ℕ} (hi : 0 < i) (party : Party) (triples : Triple)
    (w : Wires) {j c : ℕ} (hj : ¬(2 * i ∣ j ∧ j + i < numDigits)) (hc : c < numCmps) :
    (w.recombinePass packing party triples numDigits numCmps i count).leafEq.getD
        (j * numCmps + c) 0 = w.leafEq.getD (j * numCmps + c) 0 := by
  refine getD_foldl_setCellsAt_of_ne _ _ _ ?_
  intro s hs k hk heq
  obtain ⟨hsj, hgate, _, _⟩ := (mem_levelSlots hi h8 s).mp hs
  have hcell := (slot_cell_lt h8 hi hs hk).1
  rw [Nat.add_assoc] at heq
  obtain ⟨hsj', -⟩ := cell_inj hcell hc heq
  rw [hsj'] at hsj hgate
  exact hj ⟨⟨s.counter, by rw [hsj, Nat.mul_comm]⟩, hgate⟩

include h8 in
/-- The gate of a digit, for the eight comparisons around `c`. -/
theorem exists_slot {i : ℕ} (hi : 0 < i) {j c : ℕ} (hj : 2 * i ∣ j ∧ j + i < numDigits)
    (hc : c < numCmps) :
    ∃ s ∈ levelSlots numDigits numCmps i, s.j = j ∧ s.m + c % 8 = c := by
  refine ⟨{ j := j, counter := j / (2 * i), m := c / 8 * 8 }, ?_, rfl, ?_⟩
  · rw [mem_levelSlots hi h8]
    exact ⟨(Nat.div_mul_cancel hj.1).symm, hj.2, Nat.dvd_mul_left .., by simp only; omega⟩
  · simp only
    omega

include hpacking h8 in
theorem Wires.Shaped.recombinePass {i count : ℕ} (hi : 0 < i) (party : Party) (triples : Triple)
    {w : Wires} (hw : w.Shaped (numDigits * numCmps) bytes) :
    (w.recombinePass packing party triples numDigits numCmps i count).Shaped
      (numDigits * numCmps) bytes where
  length_leafEq := (length_foldl_setCellsAt ..).trans hw.length_leafEq
  length_ei := hw.length_ei
  length_fi := hw.length_fi
  length_e := hw.length_e
  length_f := hw.length_f
  bits p := by
    by_cases hslot : ∃ s ∈ levelSlots numDigits numCmps i, ∃ k < 8,
        s.j * numCmps + s.m + k = p
    · obtain ⟨s, hs, k, hk, rfl⟩ := hslot
      rw [getD_recombinePass hpacking h8 hi party triples hw.length_leafEq hs hk]
      exact isBit_boolByte _
    · have hkeep := getD_foldl_setCellsAt_of_ne (fun s : Slot => s.j * numCmps + s.m)
        (fun s => packing.uint8ToBool (w.slotZ party triples numCmps count s)) w.leafEq (p := p)
        fun s hs k hk he => hslot ⟨s, hs, k, hk, he⟩
      exact hkeep ▸ hw.bits p

/-- What holds of both parties between the levels. -/
structure Traversal.Inv (cells bytes : ℕ) (t : Traversal) : Prop where
  alice : t.alice.Shaped cells bytes
  bob : t.bob.Shaped cells bytes
  counts : t.tripleCount = t.oldTripleCount

/-- The value shared for digit `j` of comparison `c`. -/
def Traversal.shared (numCmps : ℕ) (t : Traversal) (c j : ℕ) : Bool :=
  sharedBit t.alice.leafEq t.bob.leafEq (j * numCmps + c)

include hpacking hbytes hnd h8 in
theorem Traversal.Inv.level {t : Traversal} (ht : t.Inv (numDigits * numCmps) bytes) {i : ℕ}
    (hi : 0 < i) :
    (t.level packing triplesAlice triplesBob numDigits numCmps i).Inv (numDigits * numCmps)
      bytes := by
  have hroom : (levelGates numDigits i).length * numCmps / 8 ≤ bytes := by
    rw [length_levelGates hi]
    exact level_room hbytes hnd hi
  have hmaskAlice := ht.alice.maskPass packing triplesAlice numDigits numCmps i t.tripleCount
  have hmaskBob := ht.bob.maskPass packing triplesBob numDigits numCmps i t.tripleCount
  exact ⟨(hmaskAlice.openPass hmaskBob hroom).recombinePass hpacking h8 hi .alice triplesAlice,
    (hmaskBob.openPass hmaskAlice hroom).recombinePass hpacking h8 hi .bob triplesBob, rfl⟩

include hpacking hvalid hbytes hnd h8 in
/-- A level of the traversal is a level of the tree, for every comparison. -/
theorem Traversal.shared_level {t : Traversal} (ht : t.Inv (numDigits * numCmps) bytes) {i : ℕ}
    (hi : 0 < i) {c : ℕ} (hc : c < numCmps) (j : ℕ) :
    (t.level packing triplesAlice triplesBob numDigits numCmps i).shared numCmps c j =
      meetLevel numDigits i (t.shared numCmps c) j := by
  rw [meetLevel]
  split
  · rename_i hgate
    obtain ⟨s, hs, rfl, hm⟩ := exists_slot h8 hi hgate hc
    have hk : c % 8 < 8 := Nat.mod_lt _ (by decide)
    have hcell : s.j * numCmps + c = s.j * numCmps + s.m + c % 8 := by omega
    have hcell' : (s.j + i) * numCmps + c = (s.j + i) * numCmps + s.m + c % 8 := by omega
    have hproduct := slotZ_xor hvalid hbytes hnd h8 packing t.tripleCount hi ht.alice ht.bob hs
    have hbit := congrArg (BitVec.getLsbD · (c % 8)) hproduct
    simp only [BitVec.getLsbD_xor, BitVec.getLsbD_and] at hbit
    have hroom : ∀ w : Wires, w.Shaped (numDigits * numCmps) bytes → ∀ j < numDigits,
        (packing.boolToUint8 (cellsAt w.leafEq (j * numCmps + s.m))).getLsbD (c % 8) =
          bitAt w.leafEq (j * numCmps + s.m + c % 8) := by
      intro w hw j hj
      exact hpacking.getLsbD_cellsAt ((slot_room hi h8 hs hj).trans_eq hw.length_leafEq.symm) hk
    have hj : s.j < numDigits := by omega
    rw [hroom _ ht.alice _ hj, hroom _ ht.alice _ hgate.2, hroom _ ht.bob _ hj,
      hroom _ ht.bob _ hgate.2] at hbit
    rw [Traversal.shared, Traversal.shared, Traversal.shared, hcell, hcell', sharedBit, bitAt,
      bitAt]
    simp only [Traversal.level]
    rw [getD_recombinePass hpacking h8 hi .alice triplesAlice ?_ hs hk,
      getD_recombinePass hpacking h8 hi .bob triplesBob ?_ hs hk, boolByte_bne_zero,
      boolByte_bne_zero, ← ht.counts]
    · exact hbit
    · exact ht.bob.length_leafEq
    · exact ht.alice.length_leafEq
  · rename_i hgate
    simp only [Traversal.shared, Traversal.level, sharedBit, bitAt]
    rw [getD_recombinePass_of_not h8 hi _ _ _ hgate hc,
      getD_recombinePass_of_not h8 hi _ _ _ hgate hc]
    rfl

include hpacking hvalid hbytes hnd h8 in
/-- A run of levels is a run of levels of the tree. -/
theorem Traversal.shared_levels :
    ∀ {strides : List ℕ} {t : Traversal}, (∀ i, i ∈ strides → 0 < i) →
      t.Inv (numDigits * numCmps) bytes →
      let t' := strides.foldl (Traversal.level packing triplesAlice triplesBob numDigits numCmps) t
      t'.Inv (numDigits * numCmps) bytes ∧ ∀ c < numCmps, t'.shared numCmps c =
        strides.foldl (fun x i => meetLevel numDigits i x) (t.shared numCmps c) := by
  intro strides
  induction strides with
  | nil => exact fun _ ht => ⟨ht, fun _ _ => rfl⟩
  | cons i strides ih =>
      intro t hpos ht
      have hi : 0 < i := hpos i (List.mem_cons_self ..)
      have hstep : (t.level packing triplesAlice triplesBob numDigits numCmps i).Inv
          (numDigits * numCmps) bytes :=
        ht.level hpacking hbytes hnd h8 hi
      obtain ⟨hinv, hshared⟩ := ih (fun i' hi' => hpos i' (List.mem_cons_of_mem _ hi')) hstep
      refine ⟨hinv, ?_⟩
      intro c hc
      rw [List.foldl_cons, List.foldl_cons, hshared c hc]
      congr 1
      funext j
      exact Traversal.shared_level hpacking hvalid hbytes hnd h8 ht hi hc j

end Level

/-- Doubling from a positive start keeps the loop variable positive. -/
theorem loopValues_double_pos {cond : ℕ → Bool} :
    ∀ {fuel i : ℕ}, 0 < i → ∀ s ∈ loopValues cond (· * 2) fuel i, 0 < s := by
  intro fuel
  induction fuel with
  | zero =>
      intro i _ s hs
      cases hs
  | succ fuel ih =>
      intro i hi s hs
      rw [loopValues] at hs
      split at hs
      · rcases List.mem_cons.mp hs with rfl | hs
        · exact hi
        · exact ih (by omega) s hs
      · cases hs

theorem getD_take_of_lt {xs : List Byte} {n p : ℕ} (hp : p < n) :
    (xs.take n).getD p 0 = xs.getD p 0 := by
  rw [List.getD_eq_getElem?_getD, List.getD_eq_getElem?_getD, List.getElem?_take, if_pos hp]

theorem getD_append_left {xs ys : List Byte} {p : ℕ} (h : p < xs.length) :
    (xs ++ ys).getD p 0 = xs.getD p 0 := by
  rw [List.getD_eq_getElem?_getD, List.getElem?_append_left h, ← List.getD_eq_getElem?_getD]

theorem AllBits.take {xs : List Byte} (h : AllBits xs) (n : ℕ) : AllBits (xs.take n) := by
  intro p
  rcases Nat.lt_or_ge p n with hp | hp
  · rw [getD_take_of_lt hp]
    exact h p
  · rw [List.getD_eq_getElem?_getD, List.getElem?_eq_none (by rw [List.length_take]; omega)]
    exact .inl rfl

/-- The outputs of the traversal are bits, and for every comparison they share
the conjunction of the digits' shared bits. -/
theorem traverseAndComputeANDs_shares {packing : BitPacking} (hpacking : packing.Lawful)
    {triplesAlice triplesBob : Triple} {numDigits numCmps : ℕ} (hnd : 0 < numDigits)
    (h8 : 8 ∣ numCmps)
    (hvalid : ValidTriples triplesAlice triplesBob ((numDigits - 1) * numCmps / 8))
    {leafAlice leafBob : List Byte} (hla : leafAlice.length = numDigits * numCmps)
    (hlb : leafBob.length = numDigits * numCmps) (hba : AllBits leafAlice)
    (hbb : AllBits leafBob) :
    let z := traverseAndComputeANDs packing triplesAlice triplesBob numDigits numCmps leafAlice
      leafBob
    z.1.length = numCmps ∧ z.2.length = numCmps ∧ AllBits z.1 ∧ AllBits z.2 ∧
      ∀ c < numCmps, (sharedBit z.1 z.2 c = true ↔
        ∀ j < numDigits, sharedBit leafAlice leafBob (j * numCmps + c) = true) := by
  intro z
  let bytes := (numDigits - 1) * numCmps / 8
  let start : Traversal :=
    { alice := Wires.start bytes leafAlice
      bob := Wires.start bytes leafBob
      tripleCount := 0
      oldTripleCount := 0 }
  have hstart : start.Inv (numDigits * numCmps) bytes :=
    ⟨⟨hla, List.length_replicate, List.length_replicate, List.length_replicate,
        List.length_replicate, hba⟩,
      ⟨hlb, List.length_replicate, List.length_replicate, List.length_replicate,
        List.length_replicate, hbb⟩, rfl⟩
  obtain ⟨hinv, hshared⟩ := Traversal.shared_levels hpacking hvalid rfl hnd h8
    (loopValues_double_pos
      Nat.one_pos) hstart
  have hroom : numCmps ≤ numDigits * numCmps := Nat.le_mul_of_pos_left _ hnd
  refine ⟨?_, ?_, hinv.alice.bits.take _, hinv.bob.bits.take _, ?_⟩
  · exact (List.length_take ..).trans (Nat.min_eq_left (hinv.alice.length_leafEq ▸ hroom))
  · exact (List.length_take ..).trans (Nat.min_eq_left (hinv.bob.length_leafEq ▸ hroom))
  · intro c hc
    have htree := congrFun (hshared c hc) 0
    rw [Traversal.shared, Nat.zero_mul, Nat.zero_add] at htree
    have hz : sharedBit z.1 z.2 c = (Finset.range numDigits).inf
        fun j => sharedBit leafAlice leafBob (j * numCmps + c) := by
      rw [← meetTree_zero hnd]
      refine Eq.trans ?_ htree
      rw [sharedBit, sharedBit, bitAt, bitAt, bitAt, bitAt]
      exact congrArg₂ (fun x y : Byte => (x != 0) ^^ (y != 0)) (getD_take_of_lt hc)
        (getD_take_of_lt hc)
    rw [hz]
    show _ = ⊤ ↔ _
    rw [Finset.inf_eq_top_iff]
    simp only [Finset.mem_range]
    rfl

end Sectric
