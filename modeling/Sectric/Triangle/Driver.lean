import Sectric.Lib.Batches
import Sectric.Psi.Interleaving
import Sectric.Triangle.NeighborFile

/-!
# The script that starts the processes

For a target the script reads the numbers of its neighbours and starts the
receiver's process.  It starts a process for every neighbour, in batches of 50, and
waits for a batch to end before the next.  Last it starts the sender's process.  A
process for a neighbour connects to the receiver's, sends its store and ends.  One
whose file cannot be read ends without, and one that cannot be started is passed
over.

In whatever order the processes of a batch come to connect, every neighbour is
heard once or lost, and the receiver listens as long as one is to be heard
(`driver_run`).  Once the sender is started the receiver has its set exactly if no
neighbour is lost (`receiver_answers_iff`), and what it prints then is the number of
triangles in the graph that the files describe (`driver_countsTriangles`).
-/

namespace Sectric

open Lib Finset

variable {Seed : Type}

/-! ## The processes for the neighbours -/

/-- The files by their names. -/
abbrev Disk := List Char → Option (List Char)

/-- The name of the file of a vertex. -/
def neighborPath (name : List Char) (x : Word) : List Char :=
  "./data/neighbor_files_".toList ++ name ++ "/neighbor_".toList ++ Nat.toDigits 10 x.toNat ++
    ".txt".toList

/-- `main` of the process for a neighbour: what it sends, if it comes to that.
`optionWord` is what the option library makes of the number for an option of 64 bits. -/
def neighborProcess (s : TargetRun Seed) (optionWord : ℤ → Option Word) (disk : Disk)
    (name : List Char) (n : ℤ) : Option (List Byte) := do
  let idx ← optionWord n
  if idx = noValue then none
  else
    let text ← disk (neighborPath name idx)
    let file ← (readNumbers text).toOption
    return neighbor s.cfg s.lib.baxos s.prg (s.neighborSeed idx) idx file

/-- The options of a process take a number of 64 bits as it is. -/
def ReadsWords (optionWord : ℤ → Option Word) : Prop :=
  ∀ id : Word, optionWord (id.toNat : ℤ) = some id

/-! ## The script -/

/-- `batch_size`. -/
def batchSize : ℕ := 50

/-- The processes for the neighbours, and whether the sender's is started. -/
structure Driver where
  pool : Pool ℤ Conn
  senderStarted : Bool

/-- What happens next. -/
inductive DriverEvent
  | neighbor (e : PoolEvent ℤ Conn)
  | startSender

namespace Driver

/-- The script after it has started the receiver's process. -/
def initial (neighbors : List ℤ) : Driver where
  pool := Pool.initial neighbors
  senderStarted := false

variable (process : ℤ → Option (List Byte))

/-- A process sends what `process` says. -/
def may (n : ℤ) (c : Conn) : Bool := process n = some c.bytes

/-- A process sends nothing. -/
def silent (n : ℤ) : Bool := (process n).isNone

/-- A step of the script and of the processes for the neighbours. -/
def step (d : Driver) : DriverEvent → Option Driver
  | .neighbor e =>
      if d.senderStarted = true then none
      else (d.pool.step batchSize (may process) (silent process) e).map fun pool =>
        { d with pool := pool }
  | .startSender =>
      if d.pool.Finished ∧ d.senderStarted = false then some { d with senderStarted := true }
      else none

/-- The steps of the script. -/
def Step (d : Driver) (e : DriverEvent) (d' : Driver) : Prop := d.step process e = some d'

variable {process} {d d' : Driver}

/-- What a step has done. -/
theorem step_cases {e : DriverEvent} (h : Step process d e d') :
    (∃ e' pool, e = .neighbor e' ∧ d.senderStarted = false ∧
      Pool.Step batchSize (may process) (silent process) d.pool e' pool ∧
      d' = { d with pool := pool }) ∨
    (e = .startSender ∧ d.pool.Finished ∧ d.senderStarted = false ∧
      d' = { d with senderStarted := true }) := by
  cases e with
  | neighbor e =>
      obtain ⟨hstarted, hpool⟩ := Option.ite_none_left_eq_some.mp h
      obtain ⟨pool, hstep, rfl⟩ := Option.map_eq_some_iff.mp hpool
      exact .inl ⟨e, pool, rfl, Bool.eq_false_of_not_eq_true hstarted, hstep, rfl⟩
  | startSender =>
      obtain ⟨⟨hfinished, hstarted⟩, hd⟩ := Option.ite_none_right_eq_some.mp h
      exact .inr ⟨rfl, hfinished, hstarted, (Option.some.inj hd).symm⟩

/-- The jobs are in their places, and the sender comes after all of them. -/
structure Fits (process : ℤ → Option (List Byte)) (neighbors : List ℤ) (d : Driver) : Prop where
  pool : d.pool.Fits batchSize (may process) (silent process) neighbors
  last : d.senderStarted = true → d.pool.Finished

theorem Fits.step {neighbors : List ℤ} (hfits : d.Fits process neighbors) {e : DriverEvent}
    (h : Step process d e d') : d'.Fits process neighbors := by
  rcases step_cases h with ⟨e', pool, -, hstarted, hstep, rfl⟩ | ⟨-, hfinished, -, rfl⟩
  · refine ⟨hfits.pool.step hstep, fun hlast => ?_⟩
    rw [hstarted] at hlast
    cases hlast
  · exact ⟨hfits.pool, fun _ => hfinished⟩

theorem fits_of_run {neighbors : List ℤ} {es : List DriverEvent}
    (h : Run (Step process) (initial neighbors) es d) : d.Fits process neighbors :=
  h.preserves (fun hfits hstep => hfits.step hstep)
    ⟨Pool.fits_initial neighbors, fun hlast => by cases hlast⟩

/-- The steps that are left, at most. -/
def size (d : Driver) : ℕ := d.pool.size + if d.senderStarted then 0 else 1

theorem size_lt {e : DriverEvent} (h : Step process d e d') : d'.size < d.size := by
  rcases step_cases h with ⟨e', pool, -, -, hstep, rfl⟩ | ⟨-, -, hstarted, rfl⟩
  · exact Nat.add_lt_add_right (Pool.size_lt (by decide) hstep) _
  · simp [size, hstarted]

/-- Until the sender is started there is a step. -/
theorem exists_step (h : d.senderStarted ≠ true) : ∃ e d', Step process d e d' := by
  have hstarted : d.senderStarted = false := Bool.eq_false_of_not_eq_true h
  by_cases hfinished : d.pool.Finished
  · exact ⟨.startSender, _, if_pos ⟨hfinished, hstarted⟩⟩
  · have hjob : ∀ n, silent process n = true ∨ ∃ c, may process n c = true := by
      intro n
      cases hn : process n with
      | none => exact .inl (by rw [silent, hn]; rfl)
      | some bytes => exact .inr ⟨⟨bytes, fun _ => 0⟩, decide_eq_true hn⟩
    obtain ⟨e, pool, hstep⟩ := Pool.exists_step hjob hfinished
    refine ⟨.neighbor e, { d with pool := pool }, ?_⟩
    show (if d.senderStarted = true then none else (d.pool.step _ _ _ e).map _) = _
    rw [if_neg h, show d.pool.step _ _ _ e = some pool from hstep]
    rfl

/-- A process that runs sends its message. -/
theorem step_send {n : ℤ} {c : Conn} (hstarted : d.senderStarted = false) (hn : n ∈ d.pool.running)
    (hc : process n = some c.bytes) :
    Step process d (.neighbor (.send n c)) { d with pool := { d.pool with
      running := d.pool.running.erase n, closing := d.pool.closing ++ [n],
      sent := d.pool.sent ++ [(n, c)] } } := by
  have hpool : d.pool.step batchSize (may process) (silent process) (.send n c) = _ :=
    if_pos ⟨hn, decide_eq_true hc⟩
  rw [Step, step, if_neg (by rw [hstarted]; exact Bool.false_ne_true), hpool]
  rfl

/-- The connections the receiver is offered, in order. -/
def offered (d : Driver) : List Conn := d.pool.sent.map Prod.snd

end Driver

/-- In every run of the script the processes for neighbours that are there are at most
50 that follow each other in the list, those before them have ended, and each
neighbour is in one place: heard, lost, there, or waiting.  What is heard is what its
process sends.  While a neighbour is not heard the receiver is not done, and it listens
if it can take in what it has been offered.  The sender is started when all processes
have ended and none waits.  No run is longer than four steps a neighbour and one, and
every run goes on to the sender's start. -/
theorem driver_run (process : ℤ → Option (List Byte)) (neighbors : List ℤ) {es : List DriverEvent}
    {d : Driver} (h : Run (Driver.Step process) (Driver.initial neighbors) es d) :
    (∃ before batch, neighbors = before ++ batch ++ d.pool.waiting ∧ batch.length ≤ 50 ∧
      (d.pool.submitted ++ d.pool.running ++ d.pool.closing).Subperm batch ∧
      before.Subperm (d.pool.ended ++ d.pool.lost)) ∧
    (d.pool.sent.map Prod.fst ++ d.pool.lost ++ d.pool.submitted ++ d.pool.running ++
      d.pool.waiting).Perm neighbors ∧
    (∀ m ∈ d.pool.sent, process m.1 = some m.2.bytes) ∧
    (∀ size stale, d.pool.sent.length < neighbors.length →
      (∀ filed rest, startServer neighbors.length size stale d.offered ≠ .done filed rest) ∧
      (size * 16 + 4 < 2 ^ 63 →
        (∀ c ∈ d.offered, ∀ stale, (serverRead (size * 16 + 4) stale c).InBounds) →
        startServer neighbors.length size stale d.offered = .waits)) ∧
    (d.senderStarted = true →
      d.pool.Finished ∧ (d.pool.sent.map Prod.fst ++ d.pool.lost).Perm neighbors) ∧
    es.length ≤ 4 * neighbors.length + 1 ∧
    ∃ es' d', Run (Driver.Step process) d es' d' ∧ d'.senderStarted = true := by
  have hfits := Driver.fits_of_run h
  refine ⟨hfits.pool.in_order, hfits.pool.perm, ?_, ?_, ?_, ?_, ?_⟩
  · intro m hm
    exact of_decide_eq_true (hfits.pool.messages m hm)
  · intro size stale hshort
    exact startServer_short ((List.length_map ..).trans_lt hshort)
  · intro hstarted
    exact ⟨hfits.last hstarted, hfits.pool.perm_of_finished (hfits.last hstarted)⟩
  · have hlen := h.length_add_le Driver.size Driver.size_lt
    have hsize : (Driver.initial neighbors).size = 4 * neighbors.length + 1 := rfl
    omega
  · exact exists_run_of_progress Driver.size (fun d => d.senderStarted = true) Driver.size_lt
      (fun d hstarted => Driver.exists_step hstarted) d

/-- Two neighbours, of which the second is heard first and the other has no file. -/
theorem driver_run_of_two :
    ∃ d es' d', d.pool.lost = [3] ∧ Run (Driver.Step fun n => if n = 3 then none else some [7])
        d es' d' ∧ d'.senderStarted = true := by
  let process : ℤ → Option (List Byte) := fun n => if n = 3 then none else some [7]
  have hrun : Run (Driver.Step process) (Driver.initial [3, 4]) [.neighbor .batch,
      .neighbor (.start 3), .neighbor (.start 4), .neighbor (.send 4 ⟨[7], fun _ => 0⟩),
      .neighbor (.abort 3)]
      { pool := { waiting := [], submitted := [], running := [], closing := [4], ended := [],
                  lost := [3], sent := [(4, ⟨[7], fun _ => 0⟩)] }
        senderStarted := false } :=
    .cons rfl (.cons rfl (.cons rfl (.cons rfl (.cons rfl (.nil _)))))
  obtain ⟨-, -, -, -, -, -, es', d', hrun', hstarted⟩ := driver_run process [3, 4] hrun
  exact ⟨_, es', d', rfl, hrun', hstarted⟩

/-! ## From the files to the target's set -/

/-- The script started for a target: there is a run if it can read the target's file. -/
def startScript (disk : Disk) (name : List Char) (x : Word) : Option Driver := do
  let text ← disk (neighborPath name x)
  let neighbors ← readNeighbors text
  return Driver.initial neighbors

/-- The processes for a target, with the connections of a run of the script. -/
abbrev TargetRun.offer (s : TargetRun Seed) (d : Driver) : TargetRun Seed :=
  { s with pending := d.offered }

/-- The files that are there list their numbers. -/
def TargetRun.ReadsFrom (s : TargetRun Seed) (disk : Disk) (name : List Char) : Prop :=
  ∀ v : Fin s.cfg.numVertex, ∀ text ∈ disk (neighborPath name (vertexWord v)),
    ListsNumbers text (s.file (vertexWord v))

section Files

variable {s : TargetRun Seed} {optionWord : ℤ → Option Word} (hoption : ReadsWords optionWord)
  {disk : Disk} {name : List Char} (hdisk : s.ReadsFrom disk name)

include hoption hdisk

/-- The process of a vertex that has a file sends the vertex's store, and that of
another nothing. -/
theorem neighborProcess_eq (hfits : s.cfg.Fits) (v : Fin s.cfg.numVertex) :
    neighborProcess s optionWord disk name (vertexWord v).toNat =
      (disk (neighborPath name (vertexWord v))).map fun _ =>
        sendMessage (vertexWord v) (s.table (vertexWord v)) := by
  rw [neighborProcess, hoption, Option.bind_eq_bind, Option.bind_some,
    if_neg (vertexWord_ne_noValue hfits v)]
  cases htext : disk (neighborPath name (vertexWord v)) with
  | none => rfl
  | some text =>
      rw [Option.bind_eq_bind, Option.bind_some, readNumbers_of_listsNumbers (hdisk v text htext)]
      rfl

variable {x : Fin s.cfg.numVertex} {d₀ d : Driver} {es : List DriverEvent}
  (hscript : startScript disk name (vertexWord x) = some d₀)

include hscript

omit hoption in
/-- The script starts with the numbers of the target's file. -/
theorem startScript_eq :
    d₀ = Driver.initial ((s.file (vertexWord x)).map fun id => (id.toNat : ℤ)) := by
  obtain ⟨text, htext, h⟩ := Option.bind_eq_some_iff.mp hscript
  rw [readNeighbors_of_listsNumbers (hdisk x text htext)] at h
  exact (Option.some.inj h).symm

variable {l : List (Fin s.cfg.numVertex)} (hl : s.file (vertexWord x) = l.map vertexWord)
  (hrun : Run (Driver.Step (neighborProcess s optionWord disk name)) d₀ es d)
  (hstarted : d.senderStarted = true)

include hl hrun hstarted

omit hoption in
/-- Each neighbour is heard or lost. -/
theorem sent_perm : (d.pool.sent.map Prod.fst ++ d.pool.lost).Perm
    (l.map fun v => ((vertexWord v).toNat : ℤ)) := by
  rw [startScript_eq hdisk hscript, hl, List.map_map] at hrun
  have hfits := Driver.fits_of_run hrun
  exact hfits.pool.perm_of_finished (hfits.last hstarted)

variable (hfits : s.cfg.Fits) (hgrain : ∀ c ∈ d.offered, 3 ≤ c.grain 0)
  (hcounted : 16 * (degreeBaxos s.cfg s.lib.baxos).outputSize < 2 ^ 31)

include hfits hgrain hcounted

/-- Each connection brings the store of a neighbour. -/
theorem sent_carries {m : ℤ × Conn} (hm : m ∈ d.pool.sent) :
    ∃ v ∈ l, m.1 = ((vertexWord v).toNat : ℤ) ∧
      m.2.Carries (vertexWord v) (s.table (vertexWord v)) := by
  have hperm := sent_perm hdisk hscript hl hrun hstarted
  rw [startScript_eq hdisk hscript] at hrun
  obtain ⟨v, hv, hid⟩ := List.mem_map.mp
    (hperm.mem_iff.mp (List.mem_append_left _ (List.mem_map_of_mem hm)))
  have hbytes := of_decide_eq_true ((Driver.fits_of_run hrun).pool.messages m hm)
  rw [← hid, neighborProcess_eq hoption hdisk hfits v] at hbytes
  obtain ⟨text, -, hbytes⟩ := Option.map_eq_some_iff.mp hbytes
  refine ⟨v, hv, hid.symm, hbytes.symm, hgrain _ (List.mem_map_of_mem hm), ?_⟩
  rwa [show (s.table (vertexWord v)).length = _ from Baxos.length_solve ..]

/-- If none is lost the connections bring the stores of all neighbours. -/
theorem offered_arrivals (hlost : d.pool.lost = []) :
    Arrivals s.table (s.file (vertexWord x)) d.offered := by
  have hsent := fun m (hm : m ∈ d.pool.sent) =>
    sent_carries hoption hdisk hscript hl hrun hstarted hfits hgrain hcounted hm
  have hperm := sent_perm hdisk hscript hl hrun hstarted
  rw [hlost, List.append_nil] at hperm
  rw [hl]
  constructor
  · intro c hc
    obtain ⟨m, hm, rfl⟩ := List.mem_map.mp hc
    obtain ⟨v, hv, -, hcarries⟩ := hsent m hm
    exact ⟨vertexWord v, List.mem_map_of_mem hv, hcarries⟩
  · intro id hid
    obtain ⟨v, hv, rfl⟩ := List.mem_map.mp hid
    obtain ⟨m, hm, hm₁⟩ := List.mem_map.mp
      (hperm.mem_iff.mpr (List.mem_map_of_mem (f := fun v => ((vertexWord v).toNat : ℤ)) hv))
    obtain ⟨u, -, hu, hcarries⟩ := hsent m hm
    obtain rfl : v = u := by
      refine vertexWord_injective hfits.vertices (BitVec.eq_of_toNat_eq ?_)
      exact_mod_cast hm₁.symm.trans hu
    exact ⟨m.2, List.mem_map_of_mem hm, hcarries⟩

/-- If one is lost the server waits. -/
theorem startServer_of_lost (hlost : d.pool.lost ≠ []) (stale : ℕ → BitVec 32) :
    startServer l.length (degreeBaxos s.cfg s.lib.baxos).outputSize stale d.offered = .waits := by
  have hlen := (sent_perm hdisk hscript hl hrun hstarted).length_eq
  rw [List.length_append, List.length_map, List.length_map] at hlen
  have hpos := List.length_pos_of_ne_nil hlost
  have hshort : d.offered.length < l.length := by
    rw [Driver.offered, List.length_map]
    omega
  refine (startServer_short hshort).2 (by omega) ?_
  intro c hc stale
  obtain ⟨m, hm, rfl⟩ := List.mem_map.mp hc
  obtain ⟨v, -, -, hcarries⟩ :=
    sent_carries hoption hdisk hscript hl hrun hstarted hfits hgrain hcounted hm
  exact hcarries.inBounds (Baxos.length_solve ..).le stale

end Files

/-! ## The main results -/

section Main

variable (s : TargetRun Seed) (G : SimpleGraph (Fin s.cfg.numVertex)) [DecidableRel G.Adj]
  (x : Fin s.cfg.numVertex) (hfits : s.cfg.Fits) (hdegree : ∀ v, G.degree v ≤ s.cfg.maxDegree)
  (hx : 0 < G.degree x) (hfiles : FilesOf G s.file) {optionWord : ℤ → Option Word}
  (hoption : ReadsWords optionWord) {disk : Disk} {name : List Char}
  (hdisk : s.ReadsFrom disk name) {d₀ d : Driver} {es : List DriverEvent}
  (hscript : startScript disk name (vertexWord x) = some d₀)
  (hrun : Run (Driver.Step (neighborProcess s optionWord disk name)) d₀ es d)
  (hstarted : d.senderStarted = true) (hgrain : ∀ c ∈ d.offered, 3 ≤ c.grain 0)
  (hcounted : 16 * (degreeBaxos s.cfg s.lib.baxos).outputSize < 2 ^ 31)

include hfits hdegree hx hfiles hoption hdisk hscript hrun hstarted hgrain hcounted

/-- However the processes of the neighbours come to connect, the receiver has its set
when the sender is started exactly if no neighbour is lost.  Else it waits. -/
theorem receiver_answers_iff :
    ((∃ set, (s.offer d).set 1 (vertexWord x) = some (.ok set)) ↔ d.pool.lost = []) ∧
    (d.pool.lost ≠ [] → (s.offer d).set 1 (vertexWord x) = none) := by
  obtain ⟨l, hl, hnodup, hmem⟩ := hfiles.exists_list hfits.vertices x
  have hdeg : l.length = G.degree x := length_eq_degree hnodup hmem
  have hwaits : d.pool.lost ≠ [] → (s.offer d).set 1 (vertexWord x) = none := by
    intro hlost
    have hserver := startServer_of_lost hoption hdisk hscript hl hrun hstarted hfits hgrain hcounted
      hlost s.stale
    have hnumbers : (u64sToBlocks (s.file (vertexWord x))).length = l.length := by
      rw [u64sToBlocks, List.length_map, hl, List.length_map]
    show testRequest s.cfg s.lib.baxos s.prg s.rowSeed s.stale 1 (vertexWord x) noValue
      (u64sToBlocks (s.file (vertexWord x))) d.offered = none
    rw [testRequest, if_pos ⟨vertexWord_ne_noValue hfits x, rfl⟩, neighborRequest, hnumbers,
      hserver]
  refine ⟨⟨?_, ?_⟩, hwaits⟩
  · rintro ⟨set, hset⟩
    by_contra hlost
    rw [hwaits hlost] at hset
    cases hset
  · intro hlost
    have harrivals := offered_arrivals hoption hdisk hscript hl hrun hstarted hfits hgrain
      hcounted hlost
    exact ⟨_, TargetRun.set_one (s := s.offer d) hfits hl (hdeg ▸ hx) hnodup (hdeg ▸ hdegree x)
      harrivals⟩

variable (hlost : d.pool.lost = []) (hlib : s.lib.Lawful s.cfg s.random)
  (hstore : (degreeBaxos s.cfg s.lib.baxos).Exact s.cfg.maxDegree)
  (hrandom : (s.offer d).Random G x) (hrange : s.cfg.square ≤ 26420807) {threads : PsiThreads}
  (hthreads : threads.Delivers s.cfg s.lib s.random) {masksReceiver masksSender : ℕ → List Bool}
  (hmasks : DrawMasks (s.random.equality s.cfg.nbins).thread masksReceiver masksSender)
  {room : Role × Channel → ℕ} (hroom : ∀ k, 0 < room k)

include hlost hlib hstore hrandom hrange hthreads hmasks hroom

/-- From the files to the count: however the processes of the neighbours come to
connect, and however the steps of the two parties are ordered after that, the receiver
comes to the number of triangles through the target in the graph that the files
describe. -/
theorem driver_countsTriangles :
    ∃ receiverSet senderSet blockAns psiCaTmp n,
      (s.offer d).set 1 (vertexWord x) = some (.ok receiverSet) ∧
      (s.offer d).set 0 (vertexWord x) = some (.ok senderSet) ∧
      EndsIn (Program.Step threadChannel Role.other room) n
        (Net.between .receiver
          (psiCaReceiver s.cfg s.h s.lib threads (s.random.receiver masksReceiver) receiverSet)
          (psiCaSender s.cfg s.h s.prg s.lib threads (s.random.sender masksSender) senderSet))
        (Net.between .receiver (.done (.ok blockAns)) (.done (.ok psiCaTmp))) ∧
      blockAns.low.toNat / 2 = #{t ∈ G.cliqueFinset 3 | x ∈ t} := by
  obtain ⟨l, hl, hnodup, hmem⟩ := hfiles.exists_list hfits.vertices x
  have hdeg : l.length = G.degree x := length_eq_degree hnodup hmem
  have harrivals := offered_arrivals hoption hdisk hscript hl hrun hstarted hfits hgrain hcounted
    hlost
  have hone := TargetRun.set_one (s := s.offer d) hfits hl (hdeg ▸ hx) hnodup (hdeg ▸ hdegree x)
    harrivals
  obtain ⟨blockAns, psiCaTmp, n, hends, hcount⟩ := TargetRun.cells_endsIn (s.offer d) G x hfits
    hdegree hx hfiles hlib hstore harrivals hrandom hrange hthreads hmasks hroom hl hnodup hmem
  exact ⟨_, _, blockAns, psiCaTmp, n, hone, TargetRun.set_zero (s := s.offer d) hfits x, hends,
    hcount⟩

end Main

/-! ## An instance -/

/-- A disk with the files of the vertices below `n`. -/
def printedDisk (name : List Char) (n : ℕ) (file : Word → List Word) : Disk := fun path =>
  ((List.finRange n).find? fun v => neighborPath name (vertexWord v) = path).map fun v =>
    printed (file (vertexWord v))

theorem neighborPath_injective (name : List Char) {a b : Word}
    (h : neighborPath name a = neighborPath name b) : a = b := by
  have hdigits : Nat.toDigits 10 a.toNat = Nat.toDigits 10 b.toNat :=
    List.append_cancel_left (List.append_cancel_right h)
  have hvalue := congrArg (fun digits => Nat.ofDigitChars 10 digits 0) hdigits
  simp only [Nat.ofDigitChars_ten_toDigits] at hvalue
  exact BitVec.eq_of_toNat_eq hvalue

theorem printedDisk_eq (name : List Char) {n : ℕ} (hn : n ≤ 2 ^ 31) (file : Word → List Word)
    (v : Fin n) : printedDisk name n file (neighborPath name (vertexWord v)) =
      some (printed (file (vertexWord v))) := by
  rw [printedDisk, Option.map_eq_some_iff]
  cases hfind : (List.finRange n).find? fun u =>
      decide (neighborPath name (vertexWord u) = neighborPath name (vertexWord v)) with
  | none =>
      have hnot := List.find?_eq_none.mp hfind v (List.mem_finRange v)
      simp at hnot
  | some u =>
      have hpath : neighborPath name (vertexWord u) = neighborPath name (vertexWord v) := by
        simpa using List.find?_some hfind
      rw [vertexWord_injective hn (neighborPath_injective name hpath)]
      exact ⟨v, rfl, rfl⟩

/-- Numbers are taken modulo `2 ^ 64`, if they are not longer than that. -/
def wrappedWord (n : ℤ) : Option Word :=
  if n.natAbs < 2 ^ 64 then some (BitVec.ofInt 64 n) else none

theorem wrappedWord_reads : ReadsWords wrappedWord := by
  intro id
  have hlt := id.isLt
  rw [wrappedWord, if_pos (by omega), BitVec.ofInt_natCast, BitVec.ofNat_toNat, BitVec.setWidth_eq]

/-- The files of the diamond. -/
def diamondDisk : Disk := printedDisk "diamond".toList 4 (listNeighbors diamond)

theorem diamondDisk_eq (v : Fin 4) :
    diamondDisk (neighborPath "diamond".toList (vertexWord v)) =
      some (printed (diamondRun.file (vertexWord v))) :=
  printedDisk_eq "diamond".toList (by decide) (listNeighbors diamond) v

theorem diamondRun_readsFrom : diamondRun.ReadsFrom diamondDisk "diamond".toList := by
  intro v text htext
  exact .inl (Option.some.inj ((diamondDisk_eq v).symm.trans htext)).symm

/-- The script starts with the three neighbours of vertex 0. -/
theorem diamondDisk_script :
    startScript diamondDisk "diamond".toList (vertexWord (0 : Fin 4)) =
      some (Driver.initial [1, 2, 3]) := by
  have hread := readNeighbors_of_listsNumbers (.inl rfl :
    ListsNumbers (printed (diamondRun.file (vertexWord (0 : Fin 4)))) _)
  rw [startScript, diamondDisk_eq, Option.bind_eq_bind, Option.bind_some, hread, diamondRun_file]
  rfl

/-- The connection of a neighbour of the diamond. -/
def diamondConn (id : Word) : Conn where
  bytes := sendMessage id (diamondRun.table id)
  grain _ := 1499

theorem diamondDisk_process (v : Fin 4) :
    neighborProcess diamondRun wrappedWord diamondDisk "diamond".toList (vertexWord v).toNat =
      some (diamondConn (vertexWord v)).bytes :=
  (neighborProcess_eq wrappedWord_reads diamondRun_readsFrom diamondRun_fits v).trans
    (congrArg (Option.map fun _ => (diamondConn (vertexWord v)).bytes) (diamondDisk_eq v))

/-- The script after the three have connected in the order 2, 1, 3. -/
def diamondDriver : Driver where
  pool := { waiting := [], submitted := [], running := [], closing := [], ended := [3, 2, 1],
            lost := [], sent := [(2, diamondConn 2), (1, diamondConn 1), (3, diamondConn 3)] }
  senderStarted := true

theorem diamondDriver_run :
    Run (Driver.Step (neighborProcess diamondRun wrappedWord diamondDisk "diamond".toList))
      (Driver.initial [1, 2, 3])
      [.neighbor .batch, .neighbor (.start 3), .neighbor (.start 1), .neighbor (.start 2),
        .neighbor (.send 2 (diamondConn 2)), .neighbor (.send 1 (diamondConn 1)),
        .neighbor (.send 3 (diamondConn 3)), .neighbor (.exit 3), .neighbor (.exit 2),
        .neighbor (.exit 1), .startSender] diamondDriver := by
  refine .cons rfl (.cons rfl (.cons rfl (.cons rfl (.cons
    (Driver.step_send rfl (by decide) (diamondDisk_process 2)) (.cons
    (Driver.step_send rfl (by decide) (diamondDisk_process 1)) (.cons
    (Driver.step_send rfl (by decide) (diamondDisk_process 3)) (.cons rfl (.cons rfl (.cons rfl
    (.cons rfl (.nil _)))))))))))

theorem diamondDriver_grain : ∀ c ∈ diamondDriver.offered, 3 ≤ c.grain 0 := by
  intro c hc
  obtain ⟨id, -, rfl⟩ : ∃ id ∈ [(2 : Word), 1, 3], diamondConn id = c := List.mem_map.mp hc
  show 3 ≤ 1499
  decide

theorem diamondRun_counted :
    16 * (degreeBaxos diamondRun.cfg diamondRun.lib.baxos).outputSize < 2 ^ 31 := by
  decide

theorem receiver_answers_iff_of_diamond :
    ∃ set, (diamondRun.offer diamondDriver).set 1 (vertexWord (0 : Fin 4)) = some (.ok set) := by
  have hdegree : ∀ v : Fin 4, diamond.degree v ≤ 4 := by decide
  have hx : 0 < diamond.degree 0 := by decide
  obtain ⟨hiff, -⟩ := @receiver_answers_iff Block diamondRun diamond decidableDiamond (0 : Fin 4)
    diamondRun_fits hdegree hx (listNeighbors_filesOf (by decide) diamond) wrappedWord
    wrappedWord_reads diamondDisk "diamond".toList diamondRun_readsFrom _ _ _ diamondDisk_script
    diamondDriver_run rfl diamondDriver_grain diamondRun_counted
  exact hiff.mpr rfl

/-- From the files of the diamond to the two triangles at vertex 0. -/
theorem driver_countsTriangles_of_diamond :
    ∃ receiverSet senderSet blockAns psiCaTmp n,
      (diamondRun.offer diamondDriver).set 1 (vertexWord (0 : Fin 4)) = some (.ok receiverSet) ∧
      (diamondRun.offer diamondDriver).set 0 (vertexWord (0 : Fin 4)) = some (.ok senderSet) ∧
      EndsIn (Program.Step threadChannel Role.other fun _ => 1) n
        (Net.between .receiver
          (psiCaReceiver diamondRun.cfg diamondRun.h diamondRun.lib diamondThreads
            (diamondRun.random.receiver fun tid =>
              ((diamondRun.random.equality diamondRun.cfg.nbins).thread tid).masks) receiverSet)
          (psiCaSender diamondRun.cfg diamondRun.h diamondRun.prg diamondRun.lib diamondThreads
            (diamondRun.random.sender fun tid =>
              ((diamondRun.random.equality diamondRun.cfg.nbins).thread tid).masks) senderSet))
        (Net.between .receiver (.done (.ok blockAns)) (.done (.ok psiCaTmp))) ∧
      blockAns.low.toNat / 2 = 2 := by
  have hdegree : ∀ v : Fin 4, diamond.degree v ≤ 4 := by decide
  have hx : 0 < diamond.degree 0 := by decide
  obtain ⟨receiverSet, senderSet, blockAns, psiCaTmp, n, hone, hzero, hends, hcount⟩ :=
    @driver_countsTriangles Block diamondRun diamond decidableDiamond (0 : Fin 4) diamondRun_fits
      hdegree hx (listNeighbors_filesOf (by decide) diamond) wrappedWord wrappedWord_reads
      diamondDisk "diamond".toList diamondRun_readsFrom _ _ _ diamondDisk_script diamondDriver_run
      rfl diamondDriver_grain diamondRun_counted rfl diamondRun_lawful (pairStore_exact 4)
      diamondRun_random diamondRun_range diamondThreads diamondThreads_delivers _ _
      (sampleRandomness_drawMasks _) _ fun _ => Nat.one_pos
  have htriangles : #{t ∈ diamond.cliqueFinset 3 | (0 : Fin 4) ∈ t} = 2 := by decide
  exact ⟨_, _, _, _, n, hone, hzero, hends, hcount.trans htriangles⟩

end Sectric
