import Sectric.Psi.Count

/-!
# A stash that is not empty

The receiver prints a message when the mapping has left elements in the stash,
and goes on.  The entries in the stash have no bin, so they take no part in the
equality test.  A dummy element has none either, since the slot it takes counts
as empty.  `psiCa_undercount` says what the reported number misses: the stashed
entries and the dummies whose element the sender has.
-/

namespace Sectric

/-- The number of entries of the list that occur among the elements. -/
def countAll (vec elements : List Word) : ℕ := vec.countP fun v => decide (v ∈ elements)

/-- The stashed entries that occur among the elements. -/
def countStashed (t : CuckooTable) (elements : List Word) : ℕ :=
  t.stash.countP fun e => decide (e.value ∈ elements)

/-- The number of dummy entries of the list, if the dummy is among the elements. -/
def countDummies (vec elements : List Word) : ℕ :=
  if dummyElement ∈ elements then vec.count dummyElement else 0

/-- What a caller of the receiver may rely on: a reported number covers the
whole list, and no number is reported when the stash is not empty. -/
def NoSilentUndercount (outcome : Except String PsiRun) (elements : List Word) : Prop :=
  ∀ run, outcome = .ok run →
    run.blockAns.toNat = countAll run.vec elements ∧ ¬ 0 < run.table.getStashSize

/-! ## Held and stashed entries -/

/-- The elements at the storable indices are those of the list but the dummies. -/
theorem map_storable (vec : List Word) :
    (storable vec vec.length).map (vec.getD · 0) = vec.filter (· != dummyElement) := by
  conv_rhs => rw [← Lib.map_getD_range vec 0, List.filter_map]
  congr 1
  refine List.filter_congr fun id hid => ?_
  have hlt := List.mem_range.mp hid
  simp [List.getD_eq_getElem?_getD, hlt, bne]

theorem countAll_eq_add_countDummies (vec elements : List Word) :
    countAll vec elements =
      countAll (vec.filter (· != dummyElement)) elements + countDummies vec elements := by
  have hdummies : (vec.filter fun v => !(v != dummyElement)) =
      List.replicate (vec.count dummyElement) dummyElement := by
    rw [← List.filter_beq]
    simp [bne]
  rw [countAll, List.countP_eq_countP_filter_add vec _ (· != dummyElement), hdummies,
    List.countP_replicate, countAll, countDummies]
  simp only [decide_eq_true_eq]

/-- None are missed exactly if the dummy is not in both lists. -/
theorem countDummies_eq_zero_iff (vec elements : List Word) :
    countDummies vec elements = 0 ↔ (dummyElement ∈ elements → dummyElement ∉ vec) := by
  rw [countDummies]
  split
  · rename_i hin
    rw [List.count_eq_zero]
    exact ⟨fun h _ => h, fun h => h hin⟩
  · rename_i hout
    exact iff_of_true rfl fun hin => absurd hin hout

theorem countDummies_eq_zero {vec : List Word} (hdummy : dummyElement ∉ vec)
    (elements : List Word) : countDummies vec elements = 0 :=
  (countDummies_eq_zero_iff vec elements).mpr fun _ => hdummy

section Held

variable {h : HashFamily} {t : CuckooTable} (hinv : CuckooInv h t [] t.elements.length)

include hinv

/-- A stashed entry holds the element of the list at its own index. -/
theorem value_eq_of_mem_stash {e : HashTableEntry} (he : e ∈ t.stash) :
    t.elements.getD e.globalId 0 = e.value := by
  obtain ⟨v, id, f, -, hv, -, rfl⟩ := hinv.stashed e he
  rw [List.getD_eq_getElem?_getD]
  exact congrArg (Option.getD · 0) hv

/-- There are no more entries in the table than bins. -/
theorem countHeld_le (elements : List Word) :
    countHeld t t.elements elements ≤ t.hashTable.length := by
  calc countHeld t t.elements elements
      = t.occupied.countP (fun e => decide (e.1.value ∈ elements)) := (countP_occupied hinv _).symm
    _ ≤ t.occupied.length := List.countP_le_length
    _ = (live t.hashTable).length := by rw [← map_fst_occupied hinv.size, List.length_map]
    _ ≤ t.hashTable.length := List.length_filter_le _ _

/-- Every entry of the list is in the table or in the stash, or it is a dummy. -/
theorem countHeld_add_countStashed (elements : List Word) :
    countHeld t t.elements elements + countStashed t elements + countDummies t.elements elements =
      countAll t.elements elements := by
  let wanted := fun id => decide (t.elements.getD id 0 ∈ elements)
  have hids := hinv.ids
  rw [List.nil_append] at hids
  have hentries : (live t.hashTable ++ t.stash).countP (fun e => decide (e.value ∈ elements)) =
      ((live t.hashTable ++ t.stash).map HashTableEntry.globalId).countP wanted := by
    rw [List.countP_map]
    refine List.countP_congr fun e he => ?_
    have hvalue : t.elements.getD e.globalId 0 = e.value := by
      rcases List.mem_append.mp he with he | he
      · exact (value_eq_of_mem_live hinv he).2
      · exact value_eq_of_mem_stash hinv he
    rw [Function.comp_apply, ← hvalue]
  have hall : (storable t.elements t.elements.length).countP wanted =
      countAll (t.elements.filter (· != dummyElement)) elements := by
    rw [countAll, ← map_storable, List.countP_map]
    rfl
  have hheld : (live t.hashTable).countP (fun e => decide (e.value ∈ elements)) =
      countHeld t t.elements elements := by
    rw [← countP_occupied hinv, ← map_fst_occupied hinv.size, List.countP_map]
    rfl
  rw [countAll_eq_add_countDummies, ← hall, ← hids.countP_eq, ← hentries, List.countP_append,
    hheld, countStashed]

end Held

/-! ## The reported number and the stash -/

section Report

variable {Seed : Type} (cfg : PsiConfig) (h : HashFamily) (prg : Prg Seed)
  (sub : Subprotocols Seed) (random : PsiRandomness Seed) (receiverSet senderSet : List Block)
  (hsquare : 0 < cfg.square) (hnf : 0 < cfg.nfuns) (hnf' : cfg.nfuns ≤ 2 ^ 64)
  (hsender : senderSet.length = cfg.realNum2) (hfolds : (senderSet.map Block.fold).Nodup)
  (hot : DeliversChosen sub.iknpOt) (hequality : SharesEquality cfg.nbins sub.blockEquality)

include hsquare hnf hnf' hsender hfolds hot hequality

/-- The receiver reports a number whatever the stash, after the message, and the
number misses exactly the stashed entries and the dummies whose element the
sender has. -/
theorem psiCa_undercount :
    ∃ run, psiCa cfg h prg sub random receiverSet senderSet = .ok run ∧
      run.vec = receiverVec cfg random.padding receiverSet ∧
      receiverTable cfg h run.vec = .ok run.table ∧ run.errors = stashErrors run.table ∧
      ∀ F, run.toPsiBins.Ideal (sub.baxos cfg.okvsItems cfg.okvsBinSize) sub random F →
        run.blockAns.toNat + countStashed run.table (senderSet.map Block.fold) +
            countDummies run.vec (senderSet.map Block.fold) =
          countAll run.vec (senderSet.map Block.fold) := by
  obtain ⟨run, hrun, hvec, htable, helements, hinv, hbins, herrors, hcount⟩ := psiCa_run cfg h prg
    sub random receiverSet senderSet hsquare hnf hnf' hsender hfolds hot hequality
  refine ⟨run, hrun, hvec, htable, herrors, ?_⟩
  intro F hideal
  rw [← helements] at hinv
  have hsplit := countHeld_add_countStashed hinv (senderSet.map Block.fold)
  have hheld := countHeld_le hinv (senderSet.map Block.fold)
  rw [helements] at hsplit hheld
  rw [hinv.size, hbins] at hheld
  have hroom : countHeld run.table run.vec (senderSet.map Block.fold) < 2 ^ 128 :=
    (hheld.trans_lt cfg.nbins_lt).trans (by decide)
  rw [hcount F hideal, BitVec.toNat_ofNat, Nat.mod_eq_of_lt hroom, hsplit]

end Report

/-! ## Instances -/

section Instances

theorem twoVertices_square : 0 < twoVertices.square := by decide

theorem fourEntries_length : fourEntries.length = twoVertices.realNum2 := by decide

theorem fourEntries_folds : (fourEntries.map Block.fold).Nodup := by decide

/-- Four blocks with one fold. -/
def fourFolds : List Block := [makeBlock 0 5, makeBlock 1 4, makeBlock 2 7, makeBlock 3 6]

end Instances

end Sectric
