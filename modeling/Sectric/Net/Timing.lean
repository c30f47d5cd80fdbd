import Sectric.Lib.Rounding
import Sectric.Net.Channels
import Mathlib.Tactic

/-!
# Times of receiving

Both channel classes keep the time spent in receiving from the first data on, and
with the time waited for it.  `recv_data` adds the latter up.
`ReceiveDataInternal` assigns it, so it has the time of the last call only.

So the third component of the statistics is the sum over the calls, however sums are
rounded, exactly if no call before the last took time (`receive_times_iff`), and a
party prints the sum over its channels of what they keep.
-/

namespace Sectric

open Lib

/-! ## Calls and clock readings -/

/-- The calls that receive. -/
def receivesOf (calls : List NetCall) : List ReceiveCall :=
  calls.filterMap fun
    | .receive c => some c
    | .send _ => none

/-- The readings of the clock in a call.  A call that asks for nothing has no first
data. -/
def NetCall.readings : NetCall → List ℤ
  | .send c => [c.start, c.finish]
  | .receive c =>
      [c.start, c.startWithWait] ++ (if 0 < c.len then [c.first] else []) ++ [c.finish]

/-- The clock does not go back. -/
def Clocked (calls : List NetCall) : Prop := (calls.flatMap NetCall.readings).Pairwise (· ≤ ·)

instance (calls : List NetCall) : Decidable (Clocked calls) :=
  inferInstanceAs (Decidable (List.Pairwise _ _))

/-- The time from entry to completion. -/
def ReceiveCall.wait (round : ℚ → ℚ) (c : ReceiveCall) : ℚ :=
  toSeconds round (c.finish - c.startWithWait)

/-- The times from entry to completion of the calls that receive. -/
def waits (round : ℚ → ℚ) (calls : List NetCall) : List ℚ :=
  (receivesOf calls).map (ReceiveCall.wait round)

/-- A receive in a run of a clock that does not go back. -/
theorem Clocked.receive {calls : List NetCall} (h : Clocked calls) {c : ReceiveCall}
    (hc : NetCall.receive c ∈ calls) :
    c.startWithWait ≤ c.finish ∧ (0 < c.len → c.startWithWait ≤ c.first ∧ c.first ≤ c.finish) := by
  have hcall : (NetCall.receive c).readings.Pairwise (· ≤ ·) :=
    (List.pairwise_flatMap.mp h).1 _ hc
  rw [NetCall.readings] at hcall
  by_cases hlen : 0 < c.len
  · rw [if_pos hlen] at hcall
    simp at hcall
    omega
  · rw [if_neg hlen] at hcall
    simp at hcall
    omega

section Rounded

variable {round : ℚ → ℚ} (hround : Rounding round)

include hround

theorem toSeconds_mono {m n : ℤ} (h : m ≤ n) : toSeconds round m ≤ toSeconds round n := by
  apply hround.mono
  have hle : round m ≤ round n := hround.mono (by exact_mod_cast h)
  exact div_le_div_of_nonneg_right hle (by norm_num)

theorem toSeconds_zero : toSeconds round 0 = 0 := by
  rw [toSeconds, Int.cast_zero, hround.zero, zero_div, hround.zero]

theorem round_toSeconds (n : ℤ) : round (toSeconds round n) = toSeconds round n :=
  hround.idem _

/-- A call that took no time has no wait. -/
theorem ReceiveCall.wait_eq_zero {c : ReceiveCall} (h : c.finish = c.startWithWait) :
    c.wait round = 0 := by
  rw [ReceiveCall.wait, h, sub_self, toSeconds_zero hround]

end Rounded

/-! ## The counters after a run -/

section Run

variable (round : ℚ → ℚ)

theorem receivesOf_concat (calls : List NetCall) (call : NetCall) :
    receivesOf (calls ++ [call]) = receivesOf calls ++ receivesOf [call] :=
  List.filterMap_append ..

theorem waits_concat (calls : List NetCall) (call : NetCall) :
    waits round (calls ++ [call]) = waits round calls ++ waits round [call] := by
  rw [waits, receivesOf_concat, List.map_append]
  rfl

@[simp] theorem waits_send (c : SendCall) : waits round [.send c] = [] := rfl

@[simp] theorem waits_receive (c : ReceiveCall) : waits round [.receive c] = [c.wait round] := rfl

theorem NetIo.run_concat (calls : List NetCall) (call : NetCall) :
    NetIo.run round (calls ++ [call]) = (NetIo.run round calls).call round call := by
  rw [NetIo.run, List.foldl_append]
  rfl

theorem SciNetIo.run_concat (calls : List NetCall) (call : NetCall) :
    SciNetIo.run round (calls ++ [call]) = (SciNetIo.run round calls).call round call := by
  rw [SciNetIo.run, List.foldl_append]
  rfl

/-- `recv_data` adds its waits up. -/
theorem SciNetIo.recvTimeWithWait_run (calls : List NetCall) :
    (SciNetIo.run round calls).recvTimeWithWait = roundedSum round (waits round calls) := by
  induction calls using List.reverseRecOn with
  | nil => rfl
  | append_singleton calls call ih =>
      rw [SciNetIo.run_concat, waits_concat]
      cases call with
      | send c =>
          rw [waits_send, List.append_nil]
          exact ih
      | receive c =>
          rw [waits_receive, roundedSum_concat, ← ih]
          rfl

/-- `ReceiveDataInternal` keeps the last one. -/
theorem NetIo.recvTimeWithWait_run (calls : List NetCall) :
    (NetIo.run round calls).recvTimeWithWait = (waits round calls).getLastD 0 := by
  induction calls using List.reverseRecOn with
  | nil => rfl
  | append_singleton calls call ih =>
      rw [NetIo.run_concat, waits_concat]
      cases call with
      | send c =>
          rw [waits_send, List.append_nil]
          exact ih
      | receive c =>
          rw [waits_receive, List.getLastD_concat]
          rfl

/-- The time from the first data on, in a call of either class. -/
theorem recvTime_eq (len : ℕ) (grain : ℕ → ℕ) (first start finish : ℤ) (before : ℚ) :
    (let r := receiveLoop len grain first len 0 ⟨0, false, start⟩
     if r.started then round (before + toSeconds round (finish - r.start)) else before) =
      if 0 < len then round (before + toSeconds round (finish - first)) else before := by
  rw [receiveLoop_eq]
  by_cases hlen : 0 < len
  · simp [hlen]
  · simp [hlen]

/-- Both classes keep the same time from the first data on. -/
theorem NetIo.recvTime_run (calls : List NetCall) :
    (NetIo.run round calls).recvTime = (SciNetIo.run round calls).recvTime := by
  induction calls using List.reverseRecOn with
  | nil => rfl
  | append_singleton calls call ih =>
      rw [NetIo.run_concat, SciNetIo.run_concat]
      cases call with
      | send c => exact ih
      | receive c =>
          show (if (receiveLoop _ _ _ _ _ _).started then _ else _) =
            if (receiveLoop _ _ _ _ _ _).started then _ else _
          rw [ih]
          exact (recvTime_eq round ..).trans (recvTime_eq round ..).symm

/-- It is no more than the waits add up to. -/
theorem SciNetIo.recvTime_run_le {round : ℚ → ℚ} (hround : Rounding round) {calls : List NetCall}
    (hclock : Clocked calls) :
    (SciNetIo.run round calls).recvTime ≤ roundedSum round (waits round calls) := by
  induction calls using List.reverseRecOn with
  | nil => exact le_rfl
  | append_singleton calls call ih =>
      have hbefore : Clocked calls := by
        rw [Clocked, List.flatMap_append] at hclock
        exact (List.pairwise_append.mp hclock).1
      have ih := ih hbefore
      rw [SciNetIo.run_concat, waits_concat]
      cases call with
      | send c =>
          rw [waits_send, List.append_nil]
          exact ih
      | receive c =>
          obtain ⟨hwait, hfirst⟩ := hclock.receive (c := c) (by simp)
          rw [waits_receive, roundedSum_concat]
          refine (recvTime_eq round ..).trans_le ?_
          split
          · rename_i hlen
            refine hround.mono (add_le_add ih (toSeconds_mono hround ?_))
            obtain ⟨hentry, -⟩ := hfirst (by omega)
            omega
          · have hnonneg : 0 ≤ c.wait round := by
              rw [← toSeconds_zero hround]
              exact toSeconds_mono hround (by omega)
            refine ih.trans ?_
            rw [← hround.round_roundedSum]
            refine hround.mono ?_
            rw [hround.round_roundedSum]
            exact le_add_of_nonneg_right hnonneg

end Run

/-! ## Lost time -/

/-- No call that receives took time, up to the last one. -/
def NothingBeforeLast (calls : List NetCall) : Prop :=
  ∀ c ∈ (receivesOf calls).dropLast, c.finish = c.startWithWait

instance (calls : List NetCall) : Decidable (NothingBeforeLast calls) :=
  inferInstanceAs (Decidable (∀ c ∈ (receivesOf calls).dropLast, c.finish = c.startWithWait))

/-- Then the last wait is the sum of all. -/
theorem NothingBeforeLast.getLastD_waits {round : ℚ → ℚ} (hround : Rounding round)
    {calls : List NetCall} (h : NothingBeforeLast calls) :
    (waits round calls).getLastD 0 = roundedSum round (waits round calls) := by
  rw [NothingBeforeLast] at h
  rw [waits]
  revert h
  generalize receivesOf calls = receives
  intro h
  induction receives using List.reverseRecOn with
  | nil => rfl
  | append_singleton earlier last =>
      rw [List.dropLast_concat] at h
      have hsum : roundedSum round (earlier.map (ReceiveCall.wait round)) = 0 := by
        apply hround.roundedSum_eq_zero
        intro x hx
        obtain ⟨c, hc, rfl⟩ := List.mem_map.mp hx
        exact ReceiveCall.wait_eq_zero hround (h c hc)
      rw [List.map_append, List.map_singleton, List.getLastD_concat, roundedSum_concat, hsum,
        zero_add]
      exact (round_toSeconds hround _).symm

/-- In exact arithmetic only a call that took no time has no wait. -/
theorem ReceiveCall.wait_id_eq_zero_iff {c : ReceiveCall} :
    c.wait id = 0 ↔ c.finish = c.startWithWait := by
  constructor
  · intro h
    rw [ReceiveCall.wait, toSeconds, id, id, div_eq_zero_iff] at h
    rcases h with hdiff | habsurd
    · have hdiff : c.finish - c.startWithWait = 0 := by exact_mod_cast hdiff
      omega
    · norm_num at habsurd
  · exact ReceiveCall.wait_eq_zero rounding_id

/-- In exact arithmetic the last wait is the sum of all only then. -/
theorem nothingBeforeLast_of_id {calls : List NetCall} (hclock : Clocked calls)
    (h : (waits id calls).getLastD 0 = roundedSum id (waits id calls)) :
    NothingBeforeLast calls := by
  have hnonneg : ∀ c ∈ receivesOf calls, 0 ≤ c.wait id := by
    intro c hc
    obtain ⟨call, hcall, heq⟩ := List.mem_filterMap.mp hc
    cases call with
    | send c => cases heq
    | receive c =>
        cases heq
        have hle := (hclock.receive hcall).1
        rw [← toSeconds_zero rounding_id]
        exact toSeconds_mono rounding_id (by omega)
  rw [NothingBeforeLast]
  rw [waits] at h
  revert h hnonneg
  generalize receivesOf calls = receives
  intro h hnonneg
  induction receives using List.reverseRecOn with
  | nil => simp
  | append_singleton earlier last =>
      rw [List.map_append, List.map_singleton, List.getLastD_concat, roundedSum_id,
        List.sum_append, List.sum_singleton] at h
      have hsum : (earlier.map (ReceiveCall.wait id)).sum = 0 := add_eq_right.mp h.symm
      rw [List.dropLast_concat]
      intro c hc
      refine ReceiveCall.wait_id_eq_zero_iff.mp
        (List.all_zero_of_le_zero_le_of_sum_eq_zero ?_ hsum (List.mem_map_of_mem hc))
      rw [List.forall_mem_map]
      exact fun b hb => hnonneg b (List.mem_append_left _ hb)

/-! ## What a party prints -/

/-- The calls on the channels of a party. -/
structure PartyCalls where
  io : List NetCall
  io2 : List NetCall
  ioArr : Fin 3 → List NetCall

/-- `times` in `psi_ca_receiver` and `psi_ca_sender`. -/
def PartyCalls.times (round : ℚ → ℚ) (calls : PartyCalls) : List TimeStatistics :=
  [(NetIo.run round calls.io).getTimeStatistics, (NetIo.run round calls.io2).getTimeStatistics,
    (SciNetIo.run round (calls.ioArr 0)).getTimeStatistics,
    (SciNetIo.run round (calls.ioArr 1)).getTimeStatistics,
    (SciNetIo.run round (calls.ioArr 2)).getTimeStatistics]

/-- The times a party prints. -/
structure PrintedTimes where
  sendTime : ℚ
  recvTime : ℚ
  recvTimeWithWait : ℚ
  totalTime : ℚ
  totalTimeWithWait : ℚ

/-- The loop over `times`, and what is printed after it. -/
def printedTimes (round : ℚ → ℚ) (times : List TimeStatistics) : PrintedTimes :=
  let sum (component : TimeStatistics → ℚ) : ℚ :=
    (List.range 5).foldl (fun sum i => round (sum + component (times.getD i (0, 0, 0)))) 0
  let sendTime := sum fun time => time.1
  let recvTime := sum fun time => time.2.1
  let recvTimeWithWait := sum fun time => time.2.2
  { sendTime := sendTime
    recvTime := recvTime
    recvTimeWithWait := recvTimeWithWait
    totalTime := round (sendTime + recvTime)
    totalTimeWithWait := round (sendTime + recvTimeWithWait) }

/-- The third component of the statistics of a `NetIO` is the sum over its calls,
no less than the second, and what `sci::NetIO` keeps. -/
structure Accumulates (round : ℚ → ℚ) (calls : List NetCall) : Prop where
  sum : (NetIo.run round calls).getTimeStatistics.2.2 = roundedSum round (waits round calls)
  atLeast : (NetIo.run round calls).getTimeStatistics.2.1 ≤
    (NetIo.run round calls).getTimeStatistics.2.2
  asSci : (NetIo.run round calls).getTimeStatistics.2.2 =
    (SciNetIo.run round calls).getTimeStatistics.2.2

theorem NothingBeforeLast.accumulates {round : ℚ → ℚ} (hround : Rounding round)
    {calls : List NetCall} (hclock : Clocked calls) (h : NothingBeforeLast calls) :
    Accumulates round calls := by
  have hsum : (NetIo.run round calls).recvTimeWithWait = roundedSum round (waits round calls) := by
    rw [NetIo.recvTimeWithWait_run, h.getLastD_waits hround]
  refine ⟨hsum, ?_, hsum.trans (SciNetIo.recvTimeWithWait_run round calls).symm⟩
  show (NetIo.run round calls).recvTime ≤ (NetIo.run round calls).recvTimeWithWait
  rw [hsum, NetIo.recvTime_run]
  exact SciNetIo.recvTime_run_le hround hclock

theorem Accumulates.nothingBeforeLast {calls : List NetCall} (hclock : Clocked calls)
    (h : Accumulates id calls) : NothingBeforeLast calls := by
  refine nothingBeforeLast_of_id hclock ?_
  rw [← NetIo.recvTimeWithWait_run]
  exact h.sum

/-- The receive times of a party accumulate on both of its `NetIO` channels, and the
total it prints is that of the sums over all five channels. -/
structure PartyCalls.Accumulate (round : ℚ → ℚ) (calls : PartyCalls) : Prop where
  io : Accumulates round calls.io
  io2 : Accumulates round calls.io2
  printed : (printedTimes round (calls.times round)).recvTimeWithWait =
    roundedSum round (roundedSum round (waits round calls.io) ::
      roundedSum round (waits round calls.io2) ::
      (List.finRange 3).map fun i => roundedSum round (waits round (calls.ioArr i)))

theorem PartyCalls.accumulate_of {round : ℚ → ℚ} {calls : PartyCalls}
    (hio : Accumulates round calls.io) (hio2 : Accumulates round calls.io2) :
    calls.Accumulate round := by
  refine ⟨hio, hio2, ?_⟩
  show roundedSum round [(NetIo.run round calls.io).getTimeStatistics.2.2,
    (NetIo.run round calls.io2).getTimeStatistics.2.2,
    (SciNetIo.run round (calls.ioArr 0)).recvTimeWithWait,
    (SciNetIo.run round (calls.ioArr 1)).recvTimeWithWait,
    (SciNetIo.run round (calls.ioArr 2)).recvTimeWithWait] = _
  rw [hio.sum, hio2.sum, SciNetIo.recvTimeWithWait_run, SciNetIo.recvTimeWithWait_run,
    SciNetIo.recvTimeWithWait_run]
  rfl

/-- The times accumulate if on each `NetIO` channel no receive before the last one took
time, however sums are rounded.  In exact arithmetic they accumulate only then. -/
theorem receive_times_iff (calls : PartyCalls) (hio : Clocked calls.io)
    (hio2 : Clocked calls.io2) :
    (NothingBeforeLast calls.io ∧ NothingBeforeLast calls.io2 →
      ∀ round, Rounding round → calls.Accumulate round) ∧
    (calls.Accumulate id ↔ NothingBeforeLast calls.io ∧ NothingBeforeLast calls.io2) := by
  have henough : NothingBeforeLast calls.io ∧ NothingBeforeLast calls.io2 →
      ∀ round, Rounding round → calls.Accumulate round := by
    rintro ⟨hnothing, hnothing2⟩ round hround
    exact PartyCalls.accumulate_of (hnothing.accumulates hround hio)
      (hnothing2.accumulates hround hio2)
  refine ⟨henough, ?_, fun h => henough h id rounding_id⟩
  intro hexact
  exact ⟨hexact.io.nothingBeforeLast hio, hexact.io2.nothingBeforeLast hio2⟩

/-- A receive of one byte that starts at `start` and takes the given times until the
first data and after it, in seconds. -/
def receiveAt (start untilFirst after : ℤ) : NetCall :=
  .receive
    { len := 1
      start := start * 10 ^ 9
      startWithWait := start * 10 ^ 9
      first := (start + untilFirst) * 10 ^ 9
      finish := (start + untilFirst + after) * 10 ^ 9
      grain := fun _ => 0 }

/-- One receive on each channel. -/
def singleReceives : PartyCalls where
  io := [receiveAt 0 2 1]
  io2 := [receiveAt 3 0 1]
  ioArr _ := [receiveAt 0 1 1, receiveAt 2 1 1]

/-- Two receives, of six seconds and of one. -/
def repeatedReceives : PartyCalls where
  io := [receiveAt 0 1 5, receiveAt 6 0 1]
  io2 := []
  ioArr _ := []

theorem receive_times_of_singleReceives : singleReceives.Accumulate id :=
  (receive_times_iff singleReceives (by decide) (by decide)).2.mpr ⟨by decide, by decide⟩

/-- The statistics have the second one only, which is less than the time from the
first data on. -/
theorem receive_times_lost :
    Clocked repeatedReceives.io ∧
      (NetIo.run id repeatedReceives.io).getTimeStatistics = (0, 6, 1) ∧
      roundedSum id (waits id repeatedReceives.io) = 7 ∧
      (SciNetIo.run id repeatedReceives.io).getTimeStatistics = (0, 6, 7) ∧
      (printedTimes id (repeatedReceives.times id)).recvTimeWithWait = 1 := by
  refine ⟨by decide, ?_, ?_, ?_, ?_⟩ <;> decide +kernel

end Sectric
