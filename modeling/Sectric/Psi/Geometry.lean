import Sectric.Hashing.Calls
import Sectric.Lib.Counter
import Sectric.Psi.Store

/-!
# The sizes of the stores

Both parties make two Baxos objects each: one in `VOLEOPRF::Setup`, and one for
the sender's store.  The number of items of the latter is written as three keys
an element, and the number of keys is that of the hash functions
(`keys_fill_baxos_iff`).  The bin sizes are shifts by a logarithm less a
constant, and both the difference and the shift have their limits
(`bin_shifts_defined_iff`).
-/

namespace Sectric

open Lib (sub64 sub64_of_le sub64_of_lt)

/-! ## The keys -/

/-- The rows hold one key for every element and function. -/
theorem length_flatten_simpleRows (h : HashFamily) {nb : ℕ} (hnb : 0 < nb) (nf : ℕ)
    (elements : List Word) :
    (simpleRows h nb nf elements).flatten.length = elements.length * nf := by
  have hperm := Lib.perm_flatten_buckets (fun p => h p.1 p.2 % nb) pairBlock
    (filedPairs nf elements) fun p _ => Nat.mod_lt _ hnb
  rw [simpleRows, hperm.length_eq, List.length_map]
  simp [filedPairs]

/-- Any table that has rows has one a bin, with as many keys in all. -/
theorem asRaw2DVectorNoID_shape {h : HashFamily} {t : SimpleTable}
    {rows : List (List Block)} {columns : ℕ} (hrows : t.asRaw2DVectorNoID h = .ok (rows, columns)) :
    rows.length = t.numBins ∧ rows.flatten.length = t.elements.length * t.numOfHashFunctions := by
  rcases Nat.eq_zero_or_pos t.numBins with hnb | hnb
  · by_cases hidle : t.numOfHashFunctions = 0 ∨ t.elements = []
    · rw [asRaw2DVectorNoID_idle h hidle, hnb] at hrows
      cases hrows
      rcases hidle with hnf | hempty
      · simp [hnb, hnf]
      · simp [hnb, hempty]
    · rw [not_or] at hidle
      rw [asRaw2DVectorNoID_zero hnb (Nat.pos_of_ne_zero hidle.1) hidle.2] at hrows
      cases hrows
  · rw [asRaw2DVectorNoID_eq h t hnb] at hrows
    cases hrows
    exact ⟨Lib.length_buckets _ _ _ _, length_flatten_simpleRows h hnb _ _⟩

/-- The sender's rows, and its keys. -/
theorem senderRows_shape {cfg : PsiConfig} {h : HashFamily} {nbins : ℕ} {set : List Block}
    {rows : List (List Block)} (hrows : senderRows cfg h nbins set = .ok rows) :
    rows.length = nbins ∧ rows.flatten.length = cfg.realNum2 * cfg.nfuns := by
  rw [senderRows] at hrows
  cases htable : (((SimpleTable.ofNumOfBins nbins 0).setNumOfHashFunctions cfg.nfuns).insert
      (senderVec cfg set)).asRaw2DVectorNoID h with
  | error e =>
      rw [htable] at hrows
      cases hrows
  | ok result =>
      rw [htable] at hrows
      cases hrows
      obtain ⟨hlen, hkeys⟩ := asRaw2DVectorNoID_shape htable
      refine ⟨hlen, hkeys.trans ?_⟩
      simp [SimpleTable.insert, SimpleTable.setNumOfHashFunctions, SimpleTable.ofNumOfBins,
        senderVec]

/-- The number of keys the sender flattens is the item count of both parties'
Baxos objects exactly if there are three hash functions, or no element at all.
A vector holds less than `2 ^ 60` blocks of 16 bytes. -/
theorem keys_fill_baxos_iff (cfg : PsiConfig) (h : HashFamily) (nbins : ℕ) (set : List Block)
    (rows : List (List Block)) (hset : set.length = cfg.maxDegree * cfg.numVertex)
    (hvector : set.length < 2 ^ 60) (hrows : senderRows cfg h nbins set = .ok rows) :
    rows.flatten.length = cfg.okvsItems ↔
      cfg.nfuns = 3 ∨ cfg.maxDegree * cfg.numVertex = 0 := by
  have hreal : cfg.realNum2 = set.length := by
    rw [PsiConfig.realNum2, ← hset, Nat.mod_eq_of_lt (by omega)]
  have hitems : cfg.okvsItems = set.length * 3 := by
    rw [PsiConfig.okvsItems, ← hset, Nat.mod_eq_of_lt (by omega)]
  have hkeys := (senderRows_shape hrows).2
  rw [hreal] at hkeys
  rw [hkeys, hitems, ← hset]
  constructor
  · intro heq
    rcases Nat.eq_zero_or_pos set.length with hzero | hpos
    · exact .inr hzero
    · exact .inl (Nat.eq_of_mul_eq_mul_left hpos heq)
  · rintro (hnf | hzero)
    · rw [hnf]
    · rw [hzero, Nat.zero_mul, Nat.zero_mul]

theorem keys_fill_baxos_with_three_functions :
    ∃ rows, senderRows ⟨1, 1, 3⟩ shiftHash 8 [5] = .ok rows ∧
      rows.flatten.length = (⟨1, 1, 3⟩ : PsiConfig).okvsItems :=
  ⟨_, rfl, (keys_fill_baxos_iff ⟨1, 1, 3⟩ shiftHash 8 [5] _ rfl (by decide) rfl).mpr (.inl rfl)⟩

/-- Two hash functions and one element. -/
theorem keys_short_of_baxos_with_two_functions :
    ∃ rows, senderRows ⟨1, 1, 2⟩ shiftHash 8 [5] = .ok rows ∧
      rows.flatten.length ≠ (⟨1, 1, 2⟩ : PsiConfig).okvsItems := by
  refine ⟨_, rfl, ?_⟩
  decide

/-! ## The bin sizes -/

/-- A bin size `1 << std::max(floor, log - offset)` for one of the two literals,
where the difference is one of 64-bit numbers. -/
structure BinShift where
  log : ℕ
  offset : ℕ
  floor : ℕ
  literal : One

/-- The amount of the shift. -/
def BinShift.amount (s : BinShift) : ℕ := max s.floor (sub64 s.log s.offset)

/-- The shifted literal. -/
def BinShift.binSize (s : BinShift) : ℕ := s.literal.shift s.amount

/-- The difference does not wrap around and the amount is below the width. -/
def BinShift.Defined (s : BinShift) : Prop := s.offset ≤ s.log ∧ s.amount < s.literal.width

/-- `1ull << (std::max(uint64_t(8), LOG_INPUT_NUM - 7))`. -/
def setupShift (logInputNum : ℕ) : BinShift := ⟨logInputNum, 7, 8, .ull⟩

/-- `1 << (num - 6)`, a shift of an `int`. -/
def baxosShift (num : ℕ) : BinShift := ⟨num, 6, 0, .int⟩

/-- The sizes a Baxos object is made with. -/
structure BaxosGeometry where
  items : ℕ
  bins : BinShift

/-- The object of `VOLEOPRF::Setup`. -/
def setupGeometry (logInputNum : ℕ) : BaxosGeometry :=
  ⟨One.ull.shift logInputNum, setupShift logInputNum⟩

/-- The object of `send_baxos`. -/
def sendBaxosGeometry (baxosSize num : ℕ) : BaxosGeometry := ⟨baxosSize, baxosShift num⟩

/-- The two objects of `psi_ca_receiver`. -/
def receiverGeometry (cfg : PsiConfig) : List BaxosGeometry :=
  [setupGeometry (cfg.num1 + 1), ⟨cfg.okvsItems, baxosShift cfg.num2⟩]

/-- The two objects of `psi_ca_sender`. -/
def senderGeometry (cfg : PsiConfig) : List BaxosGeometry :=
  [setupGeometry (cfg.num1 + 1), sendBaxosGeometry cfg.okvsItems (Nat.clog 2 cfg.realNum2)]

/-- `setup` makes its object with these sizes. -/
theorem okvs_setup {Seed : Type} (baxos : ℕ → ℕ → Baxos Seed) (logInputNum : ℕ) :
    (setup baxos logInputNum).okvs = baxos (setupGeometry logInputNum).items
      (setupGeometry logInputNum).bins.binSize :=
  rfl

/-- The bin size of the sender's store is that of the shift. -/
theorem binSize_baxosShift (cfg : PsiConfig) :
    (baxosShift cfg.num2).binSize = cfg.okvsBinSize := by
  rw [BinShift.binSize, BinShift.amount, PsiConfig.okvsBinSize]
  simp [baxosShift, sub64]

/-- A shift without a floor is defined within bounds of its logarithm. -/
theorem baxosShift_defined_iff {num : ℕ} (h : num < 2 ^ 64) :
    (baxosShift num).Defined ↔ 6 ≤ num ∧ num ≤ 37 := by
  simp only [BinShift.Defined, BinShift.amount, baxosShift, One.width, Nat.zero_max]
  constructor
  · rintro ⟨hlow, hamount⟩
    rw [sub64_of_le hlow h] at hamount
    omega
  · rintro ⟨hlow, hhigh⟩
    rw [sub64_of_le hlow h]
    omega

/-- The floor of `Setup` does not help a difference that wraps around. -/
theorem setupShift_defined_iff {logInputNum : ℕ} (h : logInputNum ≤ 65) :
    (setupShift logInputNum).Defined ↔ 7 ≤ logInputNum := by
  simp only [BinShift.Defined, BinShift.amount, setupShift, One.width]
  constructor
  · exact And.left
  · intro hlow
    rw [sub64_of_le hlow (by omega)]
    omega

/-- All shifts are defined, and the parties' sizes agree, exactly if the degree
bound is six at least and the number of the sender's elements is above `2 ^ 5`
and not above `2 ^ 37`. -/
theorem bin_shifts_defined_iff (cfg : PsiConfig)
    (hsquare : cfg.maxDegree * cfg.maxDegree < 2 ^ 64)
    (hproduct : cfg.maxDegree * cfg.numVertex < 2 ^ 64) :
    ((∀ g ∈ receiverGeometry cfg ++ senderGeometry cfg, g.bins.Defined) ∧
        senderGeometry cfg = receiverGeometry cfg) ↔
      6 ≤ cfg.maxDegree ∧ 32 < cfg.maxDegree * cfg.numVertex ∧
        cfg.maxDegree * cfg.numVertex ≤ 2 ^ 37 := by
  have hnum1 : cfg.num1 = Nat.clog 2 (cfg.maxDegree * cfg.maxDegree) := by
    rw [PsiConfig.num1, PsiConfig.square, Nat.mod_eq_of_lt hsquare]
  have hnum2 : cfg.num2 = Nat.clog 2 (cfg.maxDegree * cfg.numVertex) := by
    rw [PsiConfig.num2, PsiConfig.realNum2, Nat.mod_eq_of_lt hproduct]
  have hsame : senderGeometry cfg = receiverGeometry cfg := rfl
  have hle1 : cfg.num1 ≤ 64 := by
    rw [hnum1]
    exact Nat.clog_le_of_le_pow hsquare.le
  have hle2 : cfg.num2 ≤ 64 := by
    rw [hnum2]
    exact Nat.clog_le_of_le_pow hproduct.le
  have hsetup : (setupShift (cfg.num1 + 1)).Defined ↔ 6 ≤ cfg.maxDegree := by
    rw [setupShift_defined_iff (by omega), Nat.succ_le_succ_iff, hnum1, Nat.succ_le_iff,
      Nat.lt_clog_iff_pow_lt (by decide)]
    constructor
    · intro h
      by_contra hlt
      have hsmall : cfg.maxDegree * cfg.maxDegree ≤ 5 * 5 := Nat.mul_le_mul (by omega) (by omega)
      omega
    · intro h
      have hbig : 6 * 6 ≤ cfg.maxDegree * cfg.maxDegree := Nat.mul_le_mul h h
      omega
  have hbaxos : (baxosShift cfg.num2).Defined ↔
      32 < cfg.maxDegree * cfg.numVertex ∧ cfg.maxDegree * cfg.numVertex ≤ 2 ^ 37 := by
    rw [baxosShift_defined_iff (by omega), hnum2, Nat.succ_le_iff,
      Nat.lt_clog_iff_pow_lt (by decide), Nat.clog_le_iff_le_pow (by decide)]
  rw [hsame, ← hsetup, ← hbaxos]
  constructor
  · rintro ⟨hall, -⟩
    exact ⟨hall (setupGeometry (cfg.num1 + 1)) (by simp [receiverGeometry]),
      hall ⟨cfg.okvsItems, baxosShift cfg.num2⟩ (by simp [receiverGeometry])⟩
  · rintro ⟨hfirst, hsecond⟩
    refine ⟨?_, rfl⟩
    intro g hg
    rw [List.mem_append, or_self] at hg
    rcases List.mem_cons.mp hg with rfl | hg
    · exact hfirst
    · rw [List.mem_singleton.mp hg]
      exact hsecond

/-- The sizes of a graph of a million vertices with a degree bound of a hundred. -/
theorem bin_shifts_defined_on_million :
    (∀ g ∈ receiverGeometry ⟨100, 1000000, 3⟩ ++ senderGeometry ⟨100, 1000000, 3⟩,
      g.bins.Defined) ∧
    senderGeometry ⟨100, 1000000, 3⟩ = receiverGeometry ⟨100, 1000000, 3⟩ :=
  (bin_shifts_defined_iff ⟨100, 1000000, 3⟩ (by decide) (by decide)).mpr
    ⟨by decide, by decide, by decide⟩

/-- A degree bound of five: the difference wraps around, and the amount of the
shift is near `2 ^ 64`. -/
theorem bin_shift_wraps_at_degree_five :
    (setupShift ((⟨5, 1000, 3⟩ : PsiConfig).num1 + 1)).amount = 2 ^ 64 - 1 ∧
      ¬ ∀ g ∈ receiverGeometry ⟨5, 1000, 3⟩, g.bins.Defined := by
  have hnum1 : (⟨5, 1000, 3⟩ : PsiConfig).num1 = 5 := by
    rw [PsiConfig.num1]
    exact le_antisymm (Nat.clog_le_of_le_pow (by decide))
      (Nat.succ_le_of_lt ((Nat.lt_clog_iff_pow_lt (by decide)).mpr (by decide)))
  have hamount : (setupShift ((⟨5, 1000, 3⟩ : PsiConfig).num1 + 1)).amount = 2 ^ 64 - 1 := by
    rw [hnum1]
    decide
  refine ⟨hamount, ?_⟩
  intro hall
  have hdefined := (hall (setupGeometry ((⟨5, 1000, 3⟩ : PsiConfig).num1 + 1))
    (by simp [receiverGeometry])).2
  have hlt : (setupShift ((⟨5, 1000, 3⟩ : PsiConfig).num1 + 1)).amount < 64 := hdefined
  omega

end Sectric
