import Sectric.Block
import Mathlib.Data.Rat.Defs

/-!
# The two channel classes

`sci::NetIO` carries the traffic of the equality test and `NetIO` the rest.  Both
send and receive in a loop over the stream, count bytes, and add up the times of
their calls.  The counters are members that start at zero.

The clock is read in nanoseconds.  A `duration<double>` holds seconds, and every
operation on it is the exact one followed by a rounding, which is a parameter
here.  A stream may take or deliver less than it is asked for.  Calls in which it
takes or delivers nothing are made again and change nothing, so only the others
are in the model.
-/

namespace Sectric

/-- There are channels to number among the three of `ioArr`. -/
instance neZeroThree : NeZero 3 := ⟨by decide⟩

/-! ## Calls -/

/-- A call that sends: what it is asked to send, what the clock reads at its two
ends, and how many bytes, less one, write `k` takes at most. -/
structure SendCall where
  len : ℤ
  start : ℤ
  finish : ℤ
  grain : ℕ → ℕ

/-- A call that receives.  The clock is read on entry, for `start` and for
`startWithWait`, when the first data is there, and at the end. -/
structure ReceiveCall where
  len : ℤ
  start : ℤ
  startWithWait : ℤ
  first : ℤ
  finish : ℤ
  grain : ℕ → ℕ

/-- A call on a channel. -/
inductive NetCall where
  | send (c : SendCall)
  | receive (c : ReceiveCall)

/-! ## The loops -/

/-- The loop of a call that sends, from write `k` on: what is sent.  Every round
sends a byte, which bounds the rounds. -/
def sendLoop (len : ℕ) (grain : ℕ → ℕ) : ℕ → ℕ → ℕ → ℕ
  | 0, _, sent => sent
  | rounds + 1, k, sent =>
      if sent < len then
        sendLoop len grain rounds (k + 1) (sent + min (len - sent) (grain k + 1))
      else sent

theorem sendLoop_eq (len : ℕ) (grain : ℕ → ℕ) :
    ∀ {rounds k sent : ℕ}, sent ≤ len → len ≤ sent + rounds →
      sendLoop len grain rounds k sent = len
  | 0, k, sent, hle, hrounds => by
      rw [sendLoop]
      omega
  | rounds + 1, k, sent, hle, hrounds => by
      rw [sendLoop]
      split
      · exact sendLoop_eq len grain (by omega) (by omega)
      · omega

/-- The bytes a call hands to its stream.  A negative length sends nothing. -/
def SendCall.written (c : SendCall) : ℕ := sendLoop c.len.toNat c.grain c.len.toNat 0 0

theorem SendCall.written_eq (c : SendCall) : c.written = c.len.toNat :=
  sendLoop_eq _ _ (Nat.zero_le _) (by omega)

/-- The variables of a call that receives. -/
structure Reception where
  received : ℕ
  started : Bool
  start : ℤ

/-- The loop of a call that receives, from read `k` on.  The first read that finds
something reads the clock. -/
def receiveLoop (len : ℕ) (grain : ℕ → ℕ) (first : ℤ) : ℕ → ℕ → Reception → Reception
  | 0, _, r => r
  | rounds + 1, k, r =>
      if r.received < len then
        receiveLoop len grain first rounds (k + 1)
          { received := r.received + min (len - r.received) (grain k + 1)
            started := true
            start := if r.started then r.start else first }
      else r

/-- Once data is there, `start` is the time of the first. -/
theorem receiveLoop_started {len : ℕ} {grain : ℕ → ℕ} {first : ℤ} :
    ∀ {rounds k : ℕ} {r : Reception}, r.received ≤ len → len ≤ r.received + rounds →
      r.started = true → r.start = first →
      receiveLoop len grain first rounds k r = { received := len, started := true, start := first }
  | 0, k, ⟨received, started, start⟩, hle, hrounds, hstarted, hstart => by
      obtain rfl : received = len := le_antisymm hle hrounds
      subst hstarted hstart
      rfl
  | rounds + 1, k, ⟨received, started, start⟩, hle, hrounds, hstarted, hstart => by
      subst hstarted hstart
      rw [receiveLoop]
      split
      · rename_i hless
        dsimp only at hle hrounds hless
        exact receiveLoop_started (by dsimp only; omega) (by dsimp only; omega) rfl rfl
      · rename_i hfull
        obtain rfl : received = len := le_antisymm hle (not_lt.mp hfull)
        rfl

/-- A call receives what it is asked for, and has a first read unless it is asked
for nothing. -/
theorem receiveLoop_eq (len : ℕ) (grain : ℕ → ℕ) (first start : ℤ) :
    receiveLoop len grain first len 0 ⟨0, false, start⟩ =
      { received := len
        started := decide (0 < len)
        start := if 0 < len then first else start } := by
  cases len with
  | zero => rfl
  | succ len =>
      rw [receiveLoop, if_pos (Nat.succ_pos len), if_pos (Nat.succ_pos len),
        decide_eq_true (Nat.succ_pos len)]
      exact receiveLoop_started (by dsimp only; omega) (by dsimp only; omega) rfl rfl

/-! ## Times -/

/-- A difference of clock readings as a `duration<double>`. -/
def toSeconds (round : ℚ → ℚ) (nanoseconds : ℤ) : ℚ := round (round nanoseconds / 10 ^ 9)

/-- `get_time_statistics`: the time spent sending, the time spent receiving, and
the latter with the time waited for the first data. -/
abbrev TimeStatistics := ℚ × ℚ × ℚ

/-! ## `NetIO` -/

/-- The counters of a `NetIO`. -/
structure NetIo where
  totalBytesSent : Word := 0
  totalBytesReceived : Word := 0
  sendTime : ℚ := 0
  recvTime : ℚ := 0
  recvTimeWithWait : ℚ := 0

section NetIo

variable (round : ℚ → ℚ)

/-- `SendDataInternal`. -/
def NetIo.sendDataInternal (io : NetIo) (c : SendCall) : NetIo :=
  { io with
    totalBytesSent := io.totalBytesSent + BitVec.ofInt 64 c.len
    sendTime := round (io.sendTime + toSeconds round (c.finish - c.start)) }

/-- `ReceiveDataInternal`. -/
def NetIo.receiveDataInternal (io : NetIo) (c : ReceiveCall) : NetIo :=
  let r := receiveLoop c.len.toNat c.grain c.first c.len.toNat 0 ⟨0, false, c.start⟩
  { io with
    totalBytesReceived := io.totalBytesReceived + BitVec.ofInt 64 c.len
    recvTimeWithWait := toSeconds round (c.finish - c.startWithWait)
    recvTime :=
      if r.started then round (io.recvTime + toSeconds round (c.finish - r.start))
      else io.recvTime }

/-- `NetIO::get_time_statistics`. -/
def NetIo.getTimeStatistics (io : NetIo) : TimeStatistics :=
  (io.sendTime, io.recvTime, io.recvTimeWithWait)

/-- A call. -/
def NetIo.call (io : NetIo) : NetCall → NetIo
  | .send c => io.sendDataInternal round c
  | .receive c => io.receiveDataInternal round c

/-- The calls on a channel from its construction on. -/
def NetIo.run (calls : List NetCall) : NetIo := calls.foldl (NetIo.call round) {}

end NetIo

/-! ## `sci::NetIO` -/

/-- The counters of a `sci::NetIO`. -/
structure SciNetIo where
  counter : Word := 0
  hasSent : Bool := false
  sendTime : ℚ := 0
  recvTime : ℚ := 0
  recvTimeWithWait : ℚ := 0

section SciNetIo

variable (round : ℚ → ℚ)

/-- `send_data`. -/
def SciNetIo.sendData (io : SciNetIo) (c : SendCall) : SciNetIo :=
  { io with
    counter := io.counter + BitVec.ofInt 64 c.len
    hasSent := true
    sendTime := round (io.sendTime + toSeconds round (c.finish - c.start)) }

/-- `recv_data`.  Its `start` is the epoch until data is there. -/
def SciNetIo.recvData (io : SciNetIo) (c : ReceiveCall) : SciNetIo :=
  let r := receiveLoop c.len.toNat c.grain c.first c.len.toNat 0 ⟨0, false, 0⟩
  { io with
    hasSent := false
    recvTimeWithWait :=
      round (io.recvTimeWithWait + toSeconds round (c.finish - c.startWithWait))
    recvTime :=
      if r.started then round (io.recvTime + toSeconds round (c.finish - r.start))
      else io.recvTime }

/-- `sci::NetIO::get_time_statistics`. -/
def SciNetIo.getTimeStatistics (io : SciNetIo) : TimeStatistics :=
  (io.sendTime, io.recvTime, io.recvTimeWithWait)

/-- A call. -/
def SciNetIo.call (io : SciNetIo) : NetCall → SciNetIo
  | .send c => io.sendData round c
  | .receive c => io.recvData round c

/-- The calls on a channel from its construction on. -/
def SciNetIo.run (calls : List NetCall) : SciNetIo := calls.foldl (SciNetIo.call round) {}

end SciNetIo

end Sectric
