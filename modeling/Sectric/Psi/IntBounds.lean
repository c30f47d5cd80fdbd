import Sectric.Equality.BlockEquality
import Sectric.Equality.Triples
import Sectric.Psi.Cardinality
import Sectric.Psi.Geometry

/-!
# Quantities held in `int`

The degree bound and the number of vertices are 64-bit numbers.  On the way into
the equality test and in the sender's loops, products of them are held in `int`.
`Equality.IntValue` and `PsiIntValue` list these quantities.  The largest one of
an `Equality` object is `l * num_cmps`, which no array has as its length, and the
number of comparisons of a thread is the bin count.  So the bound on the bin
count is `2 ^ 25`, a degree bound of 5140 (`int_values_fit_iff`).

The counters of loops over bins, elements and items are `int` too.  The models of
these loops count in `ℕ`, so the results about them (`transfer_weights`,
`assemble_inRange_iff`, `senderView_hides`, `senderStore_pairs`,
`psiCa_cardinality`, `hintsDecode_iff`) are meant for loops of fewer than `2 ^ 31`
rounds.
-/

namespace Sectric

/-! ## The quantities -/

/-- The quantities an `Equality` object holds in `int`: its members and lengths,
the indices of `computeLeafOTs`, and those of a run of
`traverse_and_compute_ANDs`. -/
inductive Equality.IntValue (eq : Equality) (run : List (Traversal × ℕ)) : ℕ → Prop
  | numCmps : IntValue eq run eq.numCmps
  | totalTriplesCount : IntValue eq run (eq.l * eq.numCmps)
  | triples : IntValue eq run (eq.numTriples * eq.numCmps)
  | digits : IntValue eq run (eq.numDigits * eq.numCmps)
  | leafHead : IntValue eq run (eq.numCmps * (eq.numDigits - 1))
  | leafIndex {i j : ℕ} (hi : i < eq.numDigits) (hj : j < eq.numCmps) :
      IntValue eq run (i * eq.numCmps + j)
  | traversal {v : ℕ} (hv : TraversalInt eq.numDigits eq.numCmps run v) : IntValue eq run v

/-- The `Equality` object of thread `tid`, with `l` 64 and `beta` 5. -/
def threadEquality (nbins tid : ℕ) : Equality where
  l := 64
  beta := 5
  numCmps := chunkOf (2 * nbins) tid

/-- The quantities `psi_ca_sender` and `psi_ca_receiver` hold in `int`: those of
`perform_equality` and its two threads, and the counters of the sender's loops
over its elements, its rows and its keys.  `run` gives the levels of the two
traversals. -/
inductive PsiIntValue (cfg : PsiConfig) (run : ℕ → List (Traversal × ℕ))
    (rows : List (List Block)) : ℕ → Prop
  | numCmps : PsiIntValue cfg run rows (2 * cfg.nbins)
  | chunkSize : PsiIntValue cfg run rows (2 * cfg.nbins / (8 * 2) * 8)
  | thread {tid v : ℕ} (htid : tid < 2)
      (hv : (threadEquality cfg.nbins tid).IntValue (run tid) v) : PsiIntValue cfg run rows v
  | elementCounter {i : ℕ} (hi : i ≤ cfg.realNum2) : PsiIntValue cfg run rows i
  | rowCounter {i : ℕ} (hi : i ≤ rows.length) : PsiIntValue cfg run rows i
  | keyCounter {tmp : ℕ} (htmp : tmp ≤ rows.flatten.length) : PsiIntValue cfg run rows tmp

/-! ## The largest of them -/

/-- No quantity of an object exceeds `l * num_cmps`. -/
theorem Equality.IntValue.le {eq : Equality} {run : List (Traversal × ℕ)}
    (haligned : Aligned eq.numDigits eq.numCmps run) (hnd : 0 < eq.numDigits)
    (h8 : 8 ∣ eq.numCmps) (hl : eq.numDigits ≤ eq.l) {v : ℕ} (hv : eq.IntValue run v) :
    v ≤ eq.l * eq.numCmps := by
  have hcells : eq.numDigits * eq.numCmps ≤ eq.l * eq.numCmps := Nat.mul_le_mul_right _ hl
  cases hv with
  | numCmps => exact Nat.le_mul_of_pos_left _ (hnd.trans_le hl)
  | totalTriplesCount => exact le_rfl
  | triples => exact (Nat.mul_le_mul_right _ (Nat.sub_le _ _)).trans hcells
  | digits => exact hcells
  | leafHead =>
      rw [Nat.mul_comm]
      exact (Nat.mul_le_mul_right _ (Nat.sub_le _ _)).trans hcells
  | leafIndex hi hj => exact (Lib.cell_lt hi hj).le.trans hcells
  | traversal hv => exact (hv.le haligned hnd h8).trans hcells

/-! ## The bound -/

/-- The two threads share the comparisons evenly. -/
theorem threadEquality_numCmps (cfg : PsiConfig) (tid : ℕ) :
    (threadEquality cfg.nbins tid).numCmps = cfg.nbins := by
  obtain ⟨k, hk⟩ := cfg.dvd_nbins
  simp only [threadEquality, chunkOf, hk]
  split <;> omega

/-- Every quantity stays below `2 ^ 31` exactly if the square of the degree bound
is at most 26420807, and the number of the sender's elements and the number of
its keys are below `2 ^ 31`. -/
theorem int_values_fit_iff (cfg : PsiConfig) (h : HashFamily) (set : List Block)
    (rows : List (List Block)) (packing : BitPacking) (triplesAlice triplesBob : ℕ → Triple)
    (leafAlice leafBob : ℕ → List Byte) (hrows : senderRows cfg h cfg.nbins set = .ok rows) :
    (∀ v, PsiIntValue cfg (fun tid => traversalRounds packing (triplesAlice tid) (triplesBob tid)
        (threadEquality cfg.nbins tid).numDigits (threadEquality cfg.nbins tid).numCmps
        (leafAlice tid) (leafBob tid)) rows v → v < 2 ^ 31) ↔
      cfg.square ≤ 26420807 ∧ cfg.realNum2 < 2 ^ 31 ∧ cfg.realNum2 * cfg.nfuns < 2 ^ 31 := by
  obtain ⟨hlen, hkeys⟩ := senderRows_shape hrows
  rw [← PsiConfig.nbins_lt_iff]
  constructor
  · intro hall
    have htotal := hall _ (.thread (by decide : 0 < 2) .totalTriplesCount)
    rw [threadEquality_numCmps] at htotal
    have hl : (threadEquality cfg.nbins 0).l = 64 := rfl
    rw [hl] at htotal
    refine ⟨?_, hall _ (.elementCounter le_rfl), ?_⟩
    · omega
    · rw [← hkeys]
      exact hall _ (.keyCounter le_rfl)
  · rintro ⟨hbins, helements, hkeysBound⟩ v hv
    cases hv with
    | numCmps => omega
    | chunkSize => omega
    | thread htid hv =>
        rename_i tid
        have hl : (threadEquality cfg.nbins tid).l = 64 := rfl
        have hdigits : (threadEquality cfg.nbins tid).numDigits = 13 := by
          simp [threadEquality, Equality.numDigits]
        have hnd : 0 < (threadEquality cfg.nbins tid).numDigits := by omega
        have h8 : 8 ∣ (threadEquality cfg.nbins tid).numCmps := by
          rw [threadEquality_numCmps]
          exact cfg.dvd_nbins
        have hle := hv.le (fun r hr => traversalRounds_offsets hnd _ _ r hr) hnd h8 (by omega)
        rw [threadEquality_numCmps, hl] at hle
        omega
    | elementCounter hi => omega
    | rowCounter hi => omega
    | keyCounter htmp => omega

/-- The sender's rows of three elements, for a degree bound of three. -/
theorem senderRows_of_three :
    ∃ rows, senderRows ⟨3, 1, 3⟩ shiftHash (⟨3, 1, 3⟩ : PsiConfig).nbins [5, 6, 7] = .ok rows :=
  ⟨_, senderRows_eq ⟨3, 1, 3⟩ shiftHash (by decide) _⟩

theorem int_values_fit_of_three :
    ∃ rows, senderRows ⟨3, 1, 3⟩ shiftHash (⟨3, 1, 3⟩ : PsiConfig).nbins [5, 6, 7] = .ok rows ∧
      ∀ v, PsiIntValue ⟨3, 1, 3⟩ (fun tid => traversalRounds lsbPacking (onesTriples 24).1
        (onesTriples 24).2 (threadEquality (⟨3, 1, 3⟩ : PsiConfig).nbins tid).numDigits
        (threadEquality (⟨3, 1, 3⟩ : PsiConfig).nbins tid).numCmps [] []) rows v → v < 2 ^ 31 := by
  obtain ⟨rows, hrows⟩ := senderRows_of_three
  exact ⟨rows, hrows, (int_values_fit_iff ⟨3, 1, 3⟩ shiftHash [5, 6, 7] rows lsbPacking
    (fun _ => (onesTriples 24).1) (fun _ => (onesTriples 24).2) (fun _ => []) (fun _ => [])
    hrows).mpr ⟨by decide, by decide, by decide⟩⟩

/-- A degree bound of 5141: `l * num_cmps` of a thread is `2 ^ 31` or more. -/
theorem total_triples_count_overflows_at_5141 :
    ∃ rows, senderRows ⟨5141, 1, 3⟩ shiftHash (⟨5141, 1, 3⟩ : PsiConfig).nbins
        (countingPrg.genRandomBlocks 0 5141) = .ok rows ∧
      ∃ v, PsiIntValue ⟨5141, 1, 3⟩ (fun tid => traversalRounds lsbPacking (onesTriples 24).1
        (onesTriples 24).2 (threadEquality (⟨5141, 1, 3⟩ : PsiConfig).nbins tid).numDigits
        (threadEquality (⟨5141, 1, 3⟩ : PsiConfig).nbins tid).numCmps [] []) rows v ∧
        2 ^ 31 ≤ v := by
  have hbins : ¬ (⟨5141, 1, 3⟩ : PsiConfig).nbins < 2 ^ 25 := by
    rw [PsiConfig.nbins_lt_iff]
    decide
  refine ⟨_, senderRows_eq ⟨5141, 1, 3⟩ shiftHash (by omega) _, _,
    .thread (by decide : 0 < 2) .totalTriplesCount, ?_⟩
  have hl : (threadEquality (⟨5141, 1, 3⟩ : PsiConfig).nbins 0).l = 64 := rfl
  rw [threadEquality_numCmps, hl]
  omega

end Sectric
