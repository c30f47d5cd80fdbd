import Sectric.Bytes
import Sectric.Lib.Codec
import Sectric.Lib.Counter

/-!
# The table in a file

`saveVectorOfVectorsToFile` writes the number of rows, and for every row its
length and its blocks.  `loadVectorOfVectorsFromFile` reads them back.  Before
anything is written the first row is looked at, and the rows are counted by an
`int`.  So the table with no row, and one with too many, are not written
(`save_load_iff`).

A vector of blocks holds less than `2 ^ 60` of them.  A read past the end of the
file leaves its target indeterminate, and an access past the end of a vector is
undefined.  Both are errors here.
-/

namespace Sectric

open Lib (intLoop intLoop_eq intLoop_overflow foldlM_appending Reader Reads readCells readMany
  readCounted reads_cells)

/-! ## The model -/

/-- The eight bytes of a `size_t` in memory. -/
def sizeBytes (n : ℕ) : List Byte := (List.range 8).map fun k => BitVec.ofNat 8 (n / 256 ^ k % 256)

/-- The `size_t` that eight bytes of memory hold. -/
def sizeOfBytes (bytes : List Byte) : ℕ := Nat.ofDigits 256 (bytes.map BitVec.toNat)

/-- `inner_size * sizeof(__m128i)`. -/
def rowBytes (innerSize : ℕ) : ℕ := innerSize * 16 % 2 ^ 64

/-- The bytes written for a row. -/
def writeRow (innerVec : List Block) : List Byte :=
  sizeBytes innerVec.length ++ (blocksToBytes innerVec).take (rowBytes innerVec.length)

/-- `data[i]`. -/
def rowAt (data : List (List Block)) (i : ℕ) : Except String (List Block) :=
  match data[i]? with
  | none => .error "index out of range"
  | some row => .ok row

/-- `saveVectorOfVectorsToFile`: the content of the file.  The first line prints
the size of `data[0]`. -/
def saveVectorOfVectorsToFile (data : List (List Block)) : Except String (List Byte) := do
  let _ ← rowAt data 0
  intLoop data.length (fun outfile i => do
    let innerVec ← rowAt data i
    return outfile ++ writeRow innerVec) (sizeBytes data.length)

/-- Read a `size_t`. -/
def readSize : Reader Byte ℕ := fun infile =>
  (readCells 8 infile).map fun p => (sizeOfBytes p.1, p.2)

/-- A row of `innerSize` blocks, zero before, with `bytes` copied into it. -/
def filledRow (innerSize : ℕ) (bytes : List Byte) : List Block :=
  (List.range innerSize).map fun j => Block.ofBytes ((bytes.drop (j * 16)).take 16)

/-- Read into a row of `innerSize` blocks. -/
def readBlocks (innerSize : ℕ) : Reader Byte (List Block) := fun infile =>
  (readCells (rowBytes innerSize) infile).map fun p => (filledRow innerSize p.1, p.2)

/-- `loadVectorOfVectorsFromFile`, on the content of the file. -/
def loadVectorOfVectorsFromFile (infile : List Byte) : Except String (List (List Block)) := do
  let (outerSize, infile) ← readSize infile
  let (data, _) ← readMany (readCounted readSize readBlocks) outerSize infile
  return data

/-! ## Rows -/

@[simp] theorem length_sizeBytes (n : ℕ) : (sizeBytes n).length = 8 := by
  simp [sizeBytes]

theorem sizeOfBytes_sizeBytes {n : ℕ} (h : n < 2 ^ 64) : sizeOfBytes (sizeBytes n) = n := by
  have hdigits : (sizeBytes n).map BitVec.toNat =
      (List.range 8).map fun k => n / 256 ^ k % 256 := by
    rw [sizeBytes, List.map_map]
    apply List.map_congr_left
    intro k _
    rw [Function.comp_apply, BitVec.toNat_ofNat]
    exact Nat.mod_mod _ _
  rw [sizeOfBytes, hdigits, Lib.ofDigits_bytes]
  exact Nat.mod_eq_of_lt h

theorem reads_size {n : ℕ} (h : n < 2 ^ 64) : Reads readSize sizeBytes n := by
  have hcells := reads_cells (sizeBytes n)
  rw [length_sizeBytes] at hcells
  exact hcells.convert (sizeOfBytes_sizeBytes h)

theorem reads_blocks {row : List Block} (h : row.length < 2 ^ 60) :
    Reads (readBlocks row.length) blocksToBytes row := by
  have hbytes : rowBytes row.length = (blocksToBytes row).length := by
    rw [rowBytes, length_blocksToBytes, Nat.mod_eq_of_lt (by omega)]
  have hcells := reads_cells (blocksToBytes row)
  rw [← hbytes] at hcells
  have hrow : filledRow row.length (blocksToBytes row) = row := by
    have hblocks := bytesToBlocks_blocksToBytes row
    rwa [bytesToBlocks, length_blocksToBytes, Nat.mul_div_cancel _ (by decide)] at hblocks
  exact hcells.convert hrow

theorem writeRow_eq {row : List Block} (h : row.length < 2 ^ 60) :
    writeRow row = sizeBytes row.length ++ blocksToBytes row := by
  rw [writeRow, List.take_of_length_le]
  rw [length_blocksToBytes, rowBytes, Nat.mod_eq_of_lt (by omega)]

/-- A row is read back. -/
theorem reads_row {row : List Block} (h : row.length < 2 ^ 60) :
    Reads (readCounted readSize readBlocks) writeRow row := by
  intro rest
  rw [writeRow_eq h]
  have hcounted : Reads (readCounted readSize readBlocks)
      (fun row : List Block => sizeBytes row.length ++ blocksToBytes row) row :=
    (reads_size (by omega)).counted (reads_blocks h)
  exact hcounted rest

/-! ## The table -/

/-- The content of a file of a table. -/
def tableBytes (data : List (List Block)) : List Byte :=
  sizeBytes data.length ++ data.flatMap writeRow

/-- The rows that are counted are there. -/
theorem rowAt_of_lt {data : List (List Block)} {i : ℕ} (hi : i < data.length) :
    rowAt data i = .ok data[i] := by
  rw [rowAt, List.getElem?_eq_getElem hi]

/-- A table is written exactly if it has a row and not too many. -/
theorem save_eq_ok_iff {data : List (List Block)} {file : List Byte} :
    saveVectorOfVectorsToFile data = .ok file ↔
      data ≠ [] ∧ data.length < 2 ^ 31 ∧ file = tableBytes data := by
  rcases Nat.eq_zero_or_pos data.length with hzero | hpos
  · rw [List.eq_nil_of_length_eq_zero hzero]
    simp [saveVectorOfVectorsToFile, rowAt, bind, Except.bind]
  · have hne : data ≠ [] := List.ne_nil_of_length_pos hpos
    rw [saveVectorOfVectorsToFile, rowAt_of_lt hpos]
    simp only [bind, Except.bind]
    by_cases hlen : data.length < 2 ^ 31
    · let saveRow : List Byte → ℕ → Except String (List Byte) := fun outfile i =>
        rowAt data i >>= fun innerVec => pure (outfile ++ writeRow innerVec)
      have hround : ∀ i ∈ List.range data.length, ∀ outfile : List Byte,
          saveRow outfile i = .ok (outfile ++ writeRow (data.getD i [])) := by
        intro i hi outfile
        show rowAt data i >>= _ = _
        rw [rowAt_of_lt (List.mem_range.mp hi), List.getD_eq_getElem _ _ (List.mem_range.mp hi)]
        rfl
      have hloop : (List.range data.length).foldlM saveRow (sizeBytes data.length) = _ :=
        foldlM_appending id (fun i => writeRow (data.getD i [])) (List.range data.length)
          (sizeBytes data.length) hround
      have hrows : (List.range data.length).flatMap (fun i => writeRow (data.getD i [])) =
          data.flatMap writeRow := by
        rw [← List.flatMap_map, Lib.map_getD_range]
      rw [hrows] at hloop
      rw [intLoop_eq hlen]
      constructor
      · intro hsave
        exact ⟨hne, hlen, (Except.ok.inj (hloop.symm.trans hsave)).symm⟩
      · rintro ⟨-, -, rfl⟩
        exact hloop
    · rw [intLoop_overflow ?_ (not_lt.mp hlen)]
      · constructor
        · intro hsave
          cases hsave
        · rintro ⟨-, hlt, -⟩
          exact absurd hlt hlen
      · intro outfile i hi
        rw [rowAt_of_lt (hi.trans_le (not_lt.mp hlen))]
        exact ⟨_, rfl⟩

/-- What is written is read back. -/
theorem load_tableBytes {data : List (List Block)} (hlen : data.length < 2 ^ 64)
    (hrows : ∀ row ∈ data, row.length < 2 ^ 60) :
    loadVectorOfVectorsFromFile (tableBytes data) = .ok data := by
  have hall : Reads (readMany (readCounted readSize readBlocks) data.length)
      (List.flatMap writeRow) data :=
    Reads.many fun row hrow => reads_row (hrows row hrow)
  have hempty := hall []
  rw [List.append_nil] at hempty
  rw [loadVectorOfVectorsFromFile, tableBytes, reads_size hlen]
  simp only [bind, Except.bind, hempty]
  rfl

/-- Saving a table and loading the file gives the table back exactly if it has a
row and less than `2 ^ 31` of them.  No other table is written. -/
theorem save_load_iff (data : List (List Block)) (hrows : ∀ row ∈ data, row.length < 2 ^ 60) :
    (∃ file, saveVectorOfVectorsToFile data = .ok file ∧
      loadVectorOfVectorsFromFile file = .ok data) ↔
    data ≠ [] ∧ data.length < 2 ^ 31 := by
  constructor
  · rintro ⟨file, hsave, -⟩
    obtain ⟨hne, hlen, -⟩ := save_eq_ok_iff.mp hsave
    exact ⟨hne, hlen⟩
  · rintro ⟨hne, hlen⟩
    exact ⟨tableBytes data, save_eq_ok_iff.mpr ⟨hne, hlen, rfl⟩,
      load_tableBytes (by omega) hrows⟩

theorem save_load_of_empty_row :
    ∃ file, saveVectorOfVectorsToFile [[], [5, 6]] = .ok file ∧
      loadVectorOfVectorsFromFile file = .ok [[], [5, 6]] :=
  (save_load_iff [[], [5, 6]] (by decide)).mpr ⟨by simp, by decide⟩

/-- The table with no row: the first line looks at a row that is not there. -/
theorem save_of_no_row : saveVectorOfVectorsToFile [] = .error "index out of range" := rfl

end Sectric
