import Mathlib.Data.List.Perm.Subperm
import Sectric.Lib.Interleaving

/-!
# Jobs in batches

Jobs are started a batch at a time, and the next batch when every job of the one
before has ended.  The jobs of a batch are started, send their message, and end,
in any order.  A job may fail to start, and a job that has nothing to send ends
without.  Either way it is lost.

In every state the jobs before the batch have ended, those after it wait, and each
job is in one place (`Pool.Fits`).  So no more jobs than a batch has are there at a
time.  A run has at most four steps a job, and goes on to the end from any state.
-/

namespace Sectric.Lib

variable {ι μ : Type} [DecidableEq ι]

/-- Where the jobs are: waiting for a batch, in the batch and not started, started,
past their message, ended after it, and ended without.  The messages are in the
order in which they are sent. -/
structure Pool (ι μ : Type) where
  waiting : List ι
  submitted : List ι
  running : List ι
  closing : List ι
  ended : List ι
  lost : List ι
  sent : List (ι × μ)

/-- What happens next. -/
inductive PoolEvent (ι μ : Type)
  | batch
  | start (i : ι)
  | fail (i : ι)
  | send (i : ι) (m : μ)
  | abort (i : ι)
  | exit (i : ι)

namespace Pool

/-- All jobs wait. -/
def initial (jobs : List ι) : Pool ι μ where
  waiting := jobs
  submitted := []
  running := []
  closing := []
  ended := []
  lost := []
  sent := []

/-- The batch is over. -/
def Idle (p : Pool ι μ) : Prop := p.submitted = [] ∧ p.running = [] ∧ p.closing = []

instance (p : Pool ι μ) : Decidable p.Idle := inferInstanceAs (Decidable (_ ∧ _ ∧ _))

/-- All jobs have ended. -/
def Finished (p : Pool ι μ) : Prop := p.waiting = [] ∧ p.Idle

instance (p : Pool ι μ) : Decidable p.Finished := inferInstanceAs (Decidable (_ ∧ _))

/-- A step of a pool whose batches have `width` jobs, where job `i` may send `m` if
`may i m`, and ends without a message if `silent i`. -/
def step (width : ℕ) (may : ι → μ → Bool) (silent : ι → Bool) (p : Pool ι μ) :
    PoolEvent ι μ → Option (Pool ι μ)
  | .batch =>
      if p.waiting ≠ [] ∧ p.Idle then
        some { p with waiting := p.waiting.drop width, submitted := p.waiting.take width }
      else none
  | .start i =>
      if i ∈ p.submitted then
        some { p with submitted := p.submitted.erase i, running := p.running ++ [i] }
      else none
  | .fail i =>
      if i ∈ p.submitted then
        some { p with submitted := p.submitted.erase i, lost := p.lost ++ [i] }
      else none
  | .send i m =>
      if i ∈ p.running ∧ may i m then
        some { p with running := p.running.erase i, closing := p.closing ++ [i],
                      sent := p.sent ++ [(i, m)] }
      else none
  | .abort i =>
      if i ∈ p.running ∧ silent i then
        some { p with running := p.running.erase i, lost := p.lost ++ [i] }
      else none
  | .exit i =>
      if i ∈ p.closing then
        some { p with closing := p.closing.erase i, ended := p.ended ++ [i] }
      else none

variable {width : ℕ} {may : ι → μ → Bool} {silent : ι → Bool} {p q : Pool ι μ}

/-- The steps of a pool. -/
def Step (width : ℕ) (may : ι → μ → Bool) (silent : ι → Bool) (p : Pool ι μ)
    (e : PoolEvent ι μ) (q : Pool ι μ) : Prop :=
  p.step width may silent e = some q

/-- What a step has done. -/
theorem step_cases {e : PoolEvent ι μ} (h : Step width may silent p e q) :
    (e = .batch ∧ p.waiting ≠ [] ∧ p.Idle ∧
      q = { p with waiting := p.waiting.drop width, submitted := p.waiting.take width }) ∨
    (∃ i ∈ p.submitted, e = .start i ∧
      q = { p with submitted := p.submitted.erase i, running := p.running ++ [i] }) ∨
    (∃ i ∈ p.submitted, e = .fail i ∧
      q = { p with submitted := p.submitted.erase i, lost := p.lost ++ [i] }) ∨
    (∃ i ∈ p.running, ∃ m, may i m = true ∧ e = .send i m ∧
      q = { p with running := p.running.erase i, closing := p.closing ++ [i],
                   sent := p.sent ++ [(i, m)] }) ∨
    (∃ i ∈ p.running, silent i = true ∧ e = .abort i ∧
      q = { p with running := p.running.erase i, lost := p.lost ++ [i] }) ∨
    ∃ i ∈ p.closing, e = .exit i ∧
      q = { p with closing := p.closing.erase i, ended := p.ended ++ [i] } := by
  cases e with
  | batch =>
      obtain ⟨⟨hwaiting, hidle⟩, hq⟩ := Option.ite_none_right_eq_some.mp h
      exact .inl ⟨rfl, hwaiting, hidle, (Option.some.inj hq).symm⟩
  | start i =>
      obtain ⟨hi, hq⟩ := Option.ite_none_right_eq_some.mp h
      exact .inr (.inl ⟨i, hi, rfl, (Option.some.inj hq).symm⟩)
  | fail i =>
      obtain ⟨hi, hq⟩ := Option.ite_none_right_eq_some.mp h
      exact .inr (.inr (.inl ⟨i, hi, rfl, (Option.some.inj hq).symm⟩))
  | send i m =>
      obtain ⟨⟨hi, hmay⟩, hq⟩ := Option.ite_none_right_eq_some.mp h
      exact .inr (.inr (.inr (.inl ⟨i, hi, m, hmay, rfl, (Option.some.inj hq).symm⟩)))
  | abort i =>
      obtain ⟨⟨hi, hsilent⟩, hq⟩ := Option.ite_none_right_eq_some.mp h
      exact .inr (.inr (.inr (.inr (.inl ⟨i, hi, hsilent, rfl, (Option.some.inj hq).symm⟩))))
  | exit i =>
      obtain ⟨hi, hq⟩ := Option.ite_none_right_eq_some.mp h
      exact .inr (.inr (.inr (.inr (.inr ⟨i, hi, rfl, (Option.some.inj hq).symm⟩))))

/-! ## What every run keeps -/

/-- The jobs before the batch, the batch and the waiting jobs are all jobs in order.
Those before the batch have ended, and those of the batch are in one place each.  Who
has sent a message is past it, and the messages are their jobs'. -/
structure Fits (width : ℕ) (may : ι → μ → Bool) (silent : ι → Bool) (jobs : List ι)
    (p : Pool ι μ) : Prop where
  split : ∃ before batch gone, jobs = before ++ batch ++ p.waiting ∧ batch.length ≤ width ∧
    (p.submitted ++ p.running ++ p.closing ++ gone).Perm batch ∧
    (p.ended ++ p.lost).Perm (before ++ gone)
  heard : (p.sent.map Prod.fst).Perm (p.ended ++ p.closing)
  messages : ∀ s ∈ p.sent, may s.1 s.2

omit [DecidableEq ι] in
theorem fits_initial (jobs : List ι) : (initial jobs : Pool ι μ).Fits width may silent jobs where
  split := ⟨[], [], [], rfl, Nat.zero_le _, .refl _, .refl _⟩
  heard := .refl _
  messages s hs := by cases hs

/-- A job that is moved is in the list it was in no more. -/
theorem count_erase_add {i : ι} {jobs : List ι} (hi : i ∈ jobs) (x : ι) :
    (jobs.erase i).count x + [i].count x = jobs.count x := by
  have hperm := (List.perm_cons_erase hi).count_eq x
  rw [hperm, List.count_singleton, List.count_cons]

/-- Every step keeps the jobs in their places. -/
theorem Fits.step {jobs : List ι} (hfits : p.Fits width may silent jobs) {e : PoolEvent ι μ}
    (h : Step width may silent p e q) : q.Fits width may silent jobs := by
  obtain ⟨⟨before, batch, gone, hjobs, hwidth, hbatch, hgone⟩, hheard, hmessages⟩ := hfits
  have hbatchCount := fun x => hbatch.count_eq x
  have hgoneCount := fun x => hgone.count_eq x
  have hheardCount := fun x => hheard.count_eq x
  simp only [List.count_append] at hbatchCount hgoneCount hheardCount
  rcases step_cases h with ⟨-, -, ⟨hsubmitted, hrunning, hclosing⟩, rfl⟩ | ⟨i, hi, -, rfl⟩ |
    ⟨i, hi, -, rfl⟩ | ⟨i, hi, m, hmay, -, rfl⟩ | ⟨i, hi, -, -, rfl⟩ | ⟨i, hi, -, rfl⟩
  · -- the jobs of the old batch are all gone
    refine ⟨⟨before ++ batch, p.waiting.take width, [], ?_, List.length_take_le _ _, ?_, ?_⟩,
      hheard, hmessages⟩
    · rw [hjobs, List.append_assoc (before ++ batch), List.take_append_drop]
    · simp [hrunning, hclosing]
    · rw [hsubmitted, hrunning, hclosing, List.nil_append] at hbatch
      rw [List.append_nil]
      exact hgone.trans (hbatch.append_left before)
  · refine ⟨⟨before, batch, gone, hjobs, hwidth, ?_, hgone⟩, hheard, hmessages⟩
    refine List.perm_iff_count.mpr fun x => ?_
    have hmove := count_erase_add hi x
    have hx := hbatchCount x
    simp only [List.count_append]
    omega
  · refine ⟨⟨before, batch, gone ++ [i], hjobs, hwidth, ?_, ?_⟩, hheard, hmessages⟩
    · refine List.perm_iff_count.mpr fun x => ?_
      have hmove := count_erase_add hi x
      have hx := hbatchCount x
      simp only [List.count_append]
      omega
    · rw [← List.append_assoc, ← List.append_assoc]
      exact hgone.append_right [i]
  · refine ⟨⟨before, batch, gone, hjobs, hwidth, ?_, hgone⟩, ?_, ?_⟩
    · refine List.perm_iff_count.mpr fun x => ?_
      have hmove := count_erase_add hi x
      have hx := hbatchCount x
      simp only [List.count_append]
      omega
    · rw [List.map_append, List.map_singleton, ← List.append_assoc]
      exact hheard.append_right [i]
    · intro s hs
      rcases List.mem_append.mp hs with hs | hs
      · exact hmessages s hs
      · rw [List.mem_singleton.mp hs]
        exact hmay
  · refine ⟨⟨before, batch, gone ++ [i], hjobs, hwidth, ?_, ?_⟩, hheard, hmessages⟩
    · refine List.perm_iff_count.mpr fun x => ?_
      have hmove := count_erase_add hi x
      have hx := hbatchCount x
      simp only [List.count_append]
      omega
    · rw [← List.append_assoc, ← List.append_assoc]
      exact hgone.append_right [i]
  · refine ⟨⟨before, batch, gone ++ [i], hjobs, hwidth, ?_, ?_⟩, ?_, hmessages⟩
    · refine List.perm_iff_count.mpr fun x => ?_
      have hmove := count_erase_add hi x
      have hx := hbatchCount x
      simp only [List.count_append]
      omega
    · refine List.perm_iff_count.mpr fun x => ?_
      have hx := hgoneCount x
      simp only [List.count_append]
      omega
    · refine List.perm_iff_count.mpr fun x => ?_
      have hmove := count_erase_add hi x
      have hx := hheardCount x
      simp only [List.count_append]
      omega

/-- So does every run. -/
theorem fits_of_run {jobs : List ι} {es : List (PoolEvent ι μ)}
    (h : Run (Step width may silent) (initial jobs) es p) : p.Fits width may silent jobs :=
  h.preserves (fun hfits hstep => hfits.step hstep) (fits_initial jobs)

omit [DecidableEq ι] in
/-- No more jobs than a batch has are there at a time. -/
theorem Fits.length_le {jobs : List ι} (hfits : p.Fits width may silent jobs) :
    p.submitted.length + p.running.length + p.closing.length ≤ width := by
  obtain ⟨before, batch, gone, -, hwidth, hbatch, -⟩ := hfits.split
  have hlen := hbatch.length_eq
  simp only [List.length_append] at hlen
  omega

/-- Each job is in one place. -/
theorem Fits.perm {jobs : List ι} (hfits : p.Fits width may silent jobs) :
    (p.sent.map Prod.fst ++ p.lost ++ p.submitted ++ p.running ++ p.waiting).Perm jobs := by
  obtain ⟨⟨before, batch, gone, hjobs, -, hbatch, hgone⟩, hheard, -⟩ := hfits
  refine List.perm_iff_count.mpr fun x => ?_
  have hbatchCount := hbatch.count_eq x
  have hgoneCount := hgone.count_eq x
  have hheardCount := hheard.count_eq x
  rw [hjobs]
  simp only [List.count_append] at hbatchCount hgoneCount hheardCount ⊢
  omega

omit [DecidableEq ι] in
/-- The jobs that are there are of one batch, and those before it have ended. -/
theorem Fits.in_order {jobs : List ι} (hfits : p.Fits width may silent jobs) :
    ∃ before batch, jobs = before ++ batch ++ p.waiting ∧ batch.length ≤ width ∧
      (p.submitted ++ p.running ++ p.closing).Subperm batch ∧
      before.Subperm (p.ended ++ p.lost) := by
  obtain ⟨before, batch, gone, hjobs, hwidth, hbatch, hgone⟩ := hfits.split
  refine ⟨before, batch, hjobs, hwidth, ?_, ?_⟩
  · exact (List.sublist_append_left _ gone).subperm.trans hbatch.subperm
  · exact (List.sublist_append_left before gone).subperm.trans hgone.symm.subperm

/-- In the end each job has sent its message or is lost. -/
theorem Fits.perm_of_finished {jobs : List ι} (hfits : p.Fits width may silent jobs)
    (hfinished : p.Finished) : (p.sent.map Prod.fst ++ p.lost).Perm jobs := by
  obtain ⟨hwaiting, hsubmitted, hrunning, -⟩ := hfinished
  have hperm := hfits.perm
  rwa [hwaiting, hsubmitted, hrunning, List.append_nil, List.append_nil, List.append_nil] at hperm

/-! ## Every run ends -/

/-- The steps that are left, at most. -/
def size (p : Pool ι μ) : ℕ :=
  4 * p.waiting.length + 3 * p.submitted.length + 2 * p.running.length + p.closing.length

theorem size_lt (hwidth : 0 < width) {e : PoolEvent ι μ} (h : Step width may silent p e q) :
    q.size < p.size := by
  rcases step_cases h with ⟨-, hwaiting, ⟨hsubmitted, -, -⟩, rfl⟩ | ⟨i, hi, -, rfl⟩ |
    ⟨i, hi, -, rfl⟩ | ⟨i, hi, m, -, -, rfl⟩ | ⟨i, hi, -, -, rfl⟩ | ⟨i, hi, -, rfl⟩
  · have hpos := List.length_pos_of_ne_nil hwaiting
    simp only [size, hsubmitted, List.length_drop, List.length_take, List.length_nil]
    omega
  all_goals
    have hlen := List.length_erase_add_one hi
    simp only [size, List.length_append, List.length_singleton]
    omega

/-- A pool that has not finished has a step. -/
theorem exists_step (hjob : ∀ i, silent i = true ∨ ∃ m, may i m = true) (h : ¬ p.Finished) :
    ∃ e q, Step width may silent p e q := by
  by_cases hsubmitted : p.submitted = []
  · by_cases hrunning : p.running = []
    · by_cases hclosing : p.closing = []
      · have hidle : p.Idle := ⟨hsubmitted, hrunning, hclosing⟩
        exact ⟨.batch, _, if_pos ⟨fun hwaiting => h ⟨hwaiting, hidle⟩, hidle⟩⟩
      · obtain ⟨i, hi⟩ := List.exists_mem_of_ne_nil _ hclosing
        exact ⟨.exit i, _, if_pos hi⟩
    · obtain ⟨i, hi⟩ := List.exists_mem_of_ne_nil _ hrunning
      rcases hjob i with hsilent | ⟨m, hmay⟩
      · exact ⟨.abort i, _, if_pos ⟨hi, hsilent⟩⟩
      · exact ⟨.send i m, _, if_pos ⟨hi, hmay⟩⟩
  · obtain ⟨i, hi⟩ := List.exists_mem_of_ne_nil _ hsubmitted
    exact ⟨.start i, _, if_pos hi⟩

end Pool

end Sectric.Lib
