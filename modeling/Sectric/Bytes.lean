import Sectric.Block
import Sectric.Lib.Digits

/-!
# Blocks as bytes

The machine is little-endian: `memcpy` of a block yields its sixteen bytes,
least significant first.  `blocksToBytes` and `bytesToBlocks` are the two views
of a vector of blocks in memory; the second undoes the first.
-/

namespace Sectric

/-- The sixteen bytes of a block in memory. -/
def Block.toBytes (b : Block) : List Byte := (List.range 16).map fun k => b.extractLsb' (8 * k) 8

/-- The block that sixteen bytes of memory hold. -/
def Block.ofBytes (bytes : List Byte) : Block :=
  BitVec.ofNat 128 (Nat.ofDigits 256 (bytes.map BitVec.toNat))

@[simp] theorem Block.length_toBytes (b : Block) : b.toBytes.length = 16 := by
  simp [Block.toBytes]

@[simp] theorem Block.ofBytes_toBytes (b : Block) : Block.ofBytes b.toBytes = b := by
  have hdigits : b.toBytes.map BitVec.toNat =
      (List.range 16).map fun k => b.toNat / 256 ^ k % 256 := by
    rw [Block.toBytes, List.map_map]
    apply List.map_congr_left
    intro k _
    rw [Function.comp_apply, BitVec.extractLsb'_toNat, Nat.shiftRight_eq_div_pow, Nat.pow_mul]
  apply BitVec.eq_of_toNat_eq
  rw [Block.ofBytes, hdigits, Lib.ofDigits_bytes, BitVec.toNat_ofNat,
    Nat.mod_mod_of_dvd _ (by decide)]
  exact Nat.mod_eq_of_lt b.isLt

/-- The bytes of a vector of blocks in memory. -/
def blocksToBytes (vec : List Block) : List Byte := vec.flatMap Block.toBytes

/-- The blocks that the bytes of a vector hold. -/
def bytesToBlocks (matrix : List Byte) : List Block :=
  (List.range (matrix.length / 16)).map fun i => Block.ofBytes ((matrix.drop (i * 16)).take 16)

@[simp] theorem length_blocksToBytes (vec : List Block) :
    (blocksToBytes vec).length = vec.length * 16 := by
  induction vec with
  | nil => rfl
  | cons b vec ih =>
      rw [blocksToBytes, List.flatMap_cons, List.length_append, Block.length_toBytes,
        ← blocksToBytes, ih, List.length_cons]
      omega

theorem drop_blocksToBytes_cons (b : Block) (vec : List Block) (i : ℕ) :
    (blocksToBytes (b :: vec)).drop ((i + 1) * 16) = (blocksToBytes vec).drop (i * 16) := by
  have hcons : blocksToBytes (b :: vec) = b.toBytes ++ blocksToBytes vec := List.flatMap_cons ..
  have hshift : (i + 1) * 16 = b.toBytes.length + i * 16 := by
    rw [Block.length_toBytes]
    omega
  rw [hcons, hshift, List.drop_append]
  simp

/-- Blocks are read back from their bytes. -/
@[simp] theorem bytesToBlocks_blocksToBytes (vec : List Block) :
    bytesToBlocks (blocksToBytes vec) = vec := by
  induction vec with
  | nil => rfl
  | cons b vec ih =>
      have hlen : (blocksToBytes (b :: vec)).length / 16 = (blocksToBytes vec).length / 16 + 1 := by
        rw [length_blocksToBytes, length_blocksToBytes, List.length_cons]
        omega
      have hhead : Block.ofBytes ((blocksToBytes (b :: vec)).take 16) = b := by
        rw [blocksToBytes, List.flatMap_cons, List.take_left' (Block.length_toBytes b),
          Block.ofBytes_toBytes]
      rw [bytesToBlocks, hlen, List.range_succ_eq_map, List.map_cons, List.map_map, Nat.zero_mul,
        List.drop_zero, hhead]
      conv_rhs => rw [← ih, bytesToBlocks]
      refine congrArg (List.cons b) (List.map_congr_left ?_)
      intro i _
      rw [Function.comp_apply, Nat.succ_eq_add_one, drop_blocksToBytes_cons]

end Sectric
