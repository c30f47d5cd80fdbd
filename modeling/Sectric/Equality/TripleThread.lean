import Sectric.Equality.Leaf

/-!
# Exporting triples

`triple_thread` lets an `Equality` object generate its triples and copies them
into three arrays of the caller.  The third array is filled from `bi` as well, so
what it exports are triples exactly where the generated `bi` and `ci` share the
same byte.
-/

namespace Sectric

open Lib

/-- `3 - party`. -/
def Party.other : Party → Party
  | .alice => .bob
  | .bob => .alice

/-- The role of the object a thread makes. -/
def threadRole (tid : ℕ) (party : Party) : Party := if tid % 2 = 1 then party.other else party

/-- `triple_thread`: the bytes it writes to `ai`, `bi` and `ci`.  `generated` is
what `generate_triples` leaves in `triples_std` of the object of a role. -/
def tripleThread (generated : Party → Triple) (tid : ℕ) (party : Party) (lnumCmps l b : ℕ) :
    Triple :=
  let compare : Equality := { l := l, beta := b, numCmps := lnumCmps }
  let triplesStd := generated (threadRole tid party)
  let numBytes := compare.numTriples * compare.numCmps / 8
  { ai := (List.range numBytes).map fun i => triplesStd.ai.getD i 0
    bi := (List.range numBytes).map fun i => triplesStd.bi.getD i 0
    ci := (List.range numBytes).map fun i => triplesStd.bi.getD i 0 }

section Export

variable (generated : Party → Triple) (tid lnumCmps l b : ℕ)

/-- The bytes an `Equality` of these parameters has in each part of its triples. -/
def exportedBytes (lnumCmps l b : ℕ) : ℕ :=
  Equality.numTriples { l := l, beta := b, numCmps := lnumCmps } * lnumCmps / 8

/-- The two parties' threads export triples. -/
def ExportsTriples (generated : Party → Triple) (tid lnumCmps l b : ℕ) : Prop :=
  ValidTriples (tripleThread generated tid .alice lnumCmps l b)
    (tripleThread generated tid .bob lnumCmps l b) (exportedBytes lnumCmps l b)

theorem getD_tripleThread (party : Party) {p : ℕ} (hp : p < exportedBytes lnumCmps l b) :
    let exported := tripleThread generated tid party lnumCmps l b
    let triples := generated (threadRole tid party)
    exported.ai.getD p 0 = triples.ai.getD p 0 ∧ exported.bi.getD p 0 = triples.bi.getD p 0 ∧
      exported.ci.getD p 0 = triples.bi.getD p 0 :=
  ⟨getD_map_range _ _ hp, getD_map_range _ _ hp, getD_map_range _ _ hp⟩

theorem length_tripleThread (party : Party) :
    let exported := tripleThread generated tid party lnumCmps l b
    exported.ai.length = exportedBytes lnumCmps l b ∧
      exported.bi.length = exportedBytes lnumCmps l b ∧
      exported.ci.length = exportedBytes lnumCmps l b := by
  simp [tripleThread, exportedBytes]

end Export

/-- Whatever the roles, byte `p` of what the two calls export is a triple exactly
if the generated products there are the second factors. -/
theorem ValidTriples.exported_iff {generated : Party → Triple} {lnumCmps l b : ℕ}
    (h : ValidTriples (generated .alice) (generated .bob) (exportedBytes lnumCmps l b)) (tid : ℕ)
    {p : ℕ} (hp : p < exportedBytes lnumCmps l b) :
    let alice := tripleThread generated tid .alice lnumCmps l b
    let bob := tripleThread generated tid .bob lnumCmps l b
    ValidTriple (alice.ai.getD p 0) (bob.ai.getD p 0) (alice.bi.getD p 0) (bob.bi.getD p 0)
        (alice.ci.getD p 0) (bob.ci.getD p 0) ↔
      (generated .alice).ci.getD p 0 ^^^ (generated .bob).ci.getD p 0 =
        (generated .alice).bi.getD p 0 ^^^ (generated .bob).bi.getD p 0 := by
  intro alice bob
  obtain ⟨haa, hab, hac⟩ := getD_tripleThread generated tid lnumCmps l b .alice hp
  obtain ⟨hba, hbb, hbc⟩ := getD_tripleThread generated tid lnumCmps l b .bob hp
  have hvalid := h.valid p hp
  rw [haa, hab, hac, hba, hbb, hbc]
  by_cases hodd : tid % 2 = 1
  · -- the roles are exchanged
    simp only [threadRole, hodd, if_true, Party.other]
    rw [hvalid.symm.second_iff, BitVec.xor_comm ((generated .bob).ci.getD p 0),
      BitVec.xor_comm ((generated .bob).bi.getD p 0)]
  · simp only [threadRole, hodd, if_false]
    exact hvalid.second_iff

/-- Shares of `0`, `1` and of their product, at every byte. -/
def zeroTimesOne : Party → Triple
  | .alice => { ai := [0], bi := [1], ci := [0] }
  | .bob => { ai := [0], bi := [0], ci := [0] }

/-- Shares of `1`, `1` and of their product. -/
def oneTimesOne : Party → Triple
  | .alice => { ai := [1], bi := [1], ci := [1] }
  | .bob => { ai := [0], bi := [0], ci := [0] }

end Sectric
