import Sectric.Net.Channels

/-!
# A receive from a stream that ends

`ReceiveDataInternal` asks its stream for what is missing until nothing is.  A
stream that has ended delivers nothing, a read of nothing is repeated, and the
branch that reports an error is behind the test for zero of a count without a
sign.  So a call ends exactly if the stream holds what it is asked for, and it
never reports anything.

Where the stream holds enough, the loop is the one of `NetIo.receiveDataInternal`,
which counts the bytes only.
-/

namespace Sectric

/-! ## The loop -/

/-- The variables of a receive, its stream and what it prints. -/
structure Reading where
  /-- What is stored from `data` on, `HAVE_RECEIVE_LEN` bytes. -/
  stored : List Byte
  /-- What the stream still holds. -/
  stream : List Byte
  started : Bool
  start : ℤ
  /-- The lines written to `stderr`. -/
  reported : List String

/-- `fread`, the `k`-th one: a byte at least while the stream holds one, and
nothing from then on. -/
def fread (grain : ℕ → ℕ) (k request : ℕ) (stream : List Byte) : List Byte :=
  stream.take (min request (grain k + 1))

namespace Reading

/-- The body of the loop, with read `k`. -/
def round (len : ℕ) (grain : ℕ → ℕ) (first : ℤ) (k : ℕ) (r : Reading) : Reading :=
  let chunk := fread grain k (len - r.stored.length) r.stream
  let receiveLen := chunk.length
  if 0 < receiveLen then
    { r with
      stored := r.stored ++ chunk
      stream := r.stream.drop receiveLen
      started := true
      start := if r.started then r.start else first }
  else if receiveLen = 0 then r
  else
    { r with
      reported := r.reported ++ ["error: fail to receive data " ++ toString receiveLen ++ "\n"] }

/-- The loop from read `k` on, if it ends within the given number of rounds. -/
def loop (len : ℕ) (grain : ℕ → ℕ) (first : ℤ) : ℕ → ℕ → Reading → Option Reading
  | 0, _, r => if r.stored.length < len then none else some r
  | rounds + 1, k, r =>
      if r.stored.length < len then loop len grain first rounds (k + 1) (r.round len grain first k)
      else some r

end Reading

/-- The variables before the loop. -/
def Reading.entry (c : ReceiveCall) (stream : List Byte) : Reading where
  stored := []
  stream := stream
  started := false
  start := c.start
  reported := []

/-- `ReceiveDataInternal` on a stream, if it ends within the given number of
rounds. -/
def NetIo.receiveFrom (round : ℚ → ℚ) (io : NetIo) (c : ReceiveCall) (stream : List Byte)
    (rounds : ℕ) : Option (NetIo × Reading) := do
  let r ← (Reading.entry c stream).loop c.len.toNat c.grain c.first rounds 0
  let io : NetIo :=
    { io with
      totalBytesReceived := io.totalBytesReceived + BitVec.ofInt 64 c.len
      recvTimeWithWait := toSeconds round (c.finish - c.startWithWait)
      recvTime :=
        if r.started then round (io.recvTime + toSeconds round (c.finish - r.start))
        else io.recvTime }
  return (io, r)

/-! ## One round -/

namespace Reading

/-- What holds of a receive of `len` bytes from `bytes` between two reads: the
bytes stored and those left are the stream, and nothing is reported. -/
structure Of (len : ℕ) (bytes : List Byte) (r : Reading) : Prop where
  split : r.stored ++ r.stream = bytes
  short : r.stored.length ≤ len
  silent : r.reported = []

/-- A round stores what it reads, and a round that reads nothing changes nothing. -/
theorem round_eq (len : ℕ) (grain : ℕ → ℕ) (first : ℤ) (k : ℕ) (r : Reading) :
    r.round len grain first k =
      let chunk := fread grain k (len - r.stored.length) r.stream
      if chunk = [] then r
      else
        { r with
          stored := r.stored ++ chunk
          stream := r.stream.drop chunk.length
          started := true
          start := if r.started then r.start else first } := by
  rw [round]
  cases fread grain k (len - r.stored.length) r.stream with
  | nil => rfl
  | cons b chunk => rfl

theorem of_entry (c : ReceiveCall) (stream : List Byte) :
    Of c.len.toNat stream (entry c stream) := ⟨rfl, Nat.zero_le _, rfl⟩

theorem length_fread_le (grain : ℕ → ℕ) (k request : ℕ) (stream : List Byte) :
    (fread grain k request stream).length ≤ request := by
  rw [fread, List.length_take]
  omega

theorem fread_append_drop (grain : ℕ → ℕ) (k request : ℕ) (stream : List Byte) :
    fread grain k request stream ++ stream.drop (fread grain k request stream).length =
      stream := by
  have hprefix : fread grain k request stream <+: stream := List.take_prefix _ _
  conv_rhs => rw [← List.take_append_drop (fread grain k request stream).length stream]
  rw [← List.prefix_iff_eq_take.mp hprefix]

theorem Of.round {len : ℕ} {bytes : List Byte} {r : Reading} (h : r.Of len bytes)
    (grain : ℕ → ℕ) (first : ℤ) (k : ℕ) : (r.round len grain first k).Of len bytes := by
  rw [round_eq]
  dsimp only
  split
  · exact h
  · refine ⟨?_, ?_, h.silent⟩
    · rw [List.append_assoc, fread_append_drop]
      exact h.split
    · have hle := length_fread_le grain k (len - r.stored.length) r.stream
      have hshort := h.short
      rw [List.length_append]
      omega

/-- Run lemma: a receive that ends has stored the first `len` bytes of the stream
and reported nothing. -/
theorem Of.loop {len : ℕ} {bytes : List Byte} {grain : ℕ → ℕ} {first : ℤ} :
    ∀ {rounds k : ℕ} {r r' : Reading}, r.Of len bytes →
      r.loop len grain first rounds k = some r' → r'.Of len bytes ∧ r'.stored.length = len := by
  intro rounds
  induction rounds with
  | zero =>
      intro k r r' h hloop
      rw [Reading.loop] at hloop
      split at hloop
      · cases hloop
      · rename_i hfull
        cases hloop
        exact ⟨h, le_antisymm h.short (not_lt.mp hfull)⟩
  | succ rounds ih =>
      intro k r r' h hloop
      rw [Reading.loop] at hloop
      split at hloop
      · exact ih (h.round grain first k) hloop
      · rename_i hfull
        cases hloop
        exact ⟨h, le_antisymm h.short (not_lt.mp hfull)⟩

/-! ## The loop on a stream that holds enough -/

/-- The variables without the bytes. -/
def reception (r : Reading) : Reception where
  received := r.stored.length
  started := r.started
  start := r.start

/-- A read from a stream that holds what is missing delivers as many bytes as the
loop that counts takes. -/
theorem Of.length_fread {len : ℕ} {bytes : List Byte} {r : Reading} (h : r.Of len bytes)
    (henough : len ≤ bytes.length) (grain : ℕ → ℕ) (k : ℕ) :
    (fread grain k (len - r.stored.length) r.stream).length =
      min (len - r.stored.length) (grain k + 1) := by
  have hlen := congrArg List.length h.split
  rw [List.length_append] at hlen
  rw [fread, List.length_take]
  omega

theorem Of.reception_round {len : ℕ} {bytes : List Byte} {r : Reading} (h : r.Of len bytes)
    (henough : len ≤ bytes.length) (hless : r.stored.length < len) (grain : ℕ → ℕ) (first : ℤ)
    (k : ℕ) :
    (r.round len grain first k).reception =
      { received := r.stored.length + min (len - r.stored.length) (grain k + 1)
        started := true
        start := if r.started then r.start else first } := by
  have hlen := h.length_fread henough grain k
  have hsome : fread grain k (len - r.stored.length) r.stream ≠ [] := by
    intro hnil
    rw [hnil, List.length_nil] at hlen
    omega
  rw [round_eq]
  simp only [hsome, if_false, reception, List.length_append, hlen]

/-- Every round reads a byte, so the loop ends, and it does what the loop that
counts does. -/
theorem Of.loop_receiveLoop {len : ℕ} {bytes : List Byte} {rounds : ℕ} {r : Reading}
    (h : r.Of len bytes) (grain : ℕ → ℕ) (first : ℤ) (henough : len ≤ bytes.length) (k : ℕ)
    (hrounds : len ≤ r.stored.length + rounds) :
    ∃ r', r.loop len grain first rounds k = some r' ∧
      r'.reception = receiveLoop len grain first rounds k r.reception := by
  induction rounds generalizing k r with
  | zero => exact ⟨r, if_neg (by omega), rfl⟩
  | succ rounds ih =>
      rw [Reading.loop, receiveLoop]
      by_cases hless : r.stored.length < len
      · have hround := h.reception_round henough hless grain first k
        have hprogress : len ≤ (r.round len grain first k).stored.length + rounds := by
          have hstored := congrArg Reception.received hround
          simp only [reception] at hstored
          omega
        obtain ⟨r', hloop, hreception⟩ := ih (h.round grain first k) (k + 1) hprogress
        refine ⟨r', ?_, ?_⟩
        · rw [if_pos hless]
          exact hloop
        · rw [hreception, hround]
          exact (if_pos hless).symm
      · exact ⟨r, if_neg hless, (if_neg hless).symm⟩

end Reading

/-! ## The call -/

/-- The call ends.  It has stored the first `len` bytes of the stream in order and
counted them, or it has reported an error where the stream is shorter. -/
def ReceiveSettles (round : ℚ → ℚ) (io : NetIo) (c : ReceiveCall) (stream : List Byte) : Prop :=
  ∃ rounds io' r, io.receiveFrom round c stream rounds = some (io', r) ∧
    ((c.len.toNat ≤ stream.length ∧ r.stored = stream.take c.len.toNat ∧
        io'.totalBytesReceived = io.totalBytesReceived + BitVec.ofInt 64 c.len) ∨
      (stream.length < c.len.toNat ∧ r.reported ≠ []))

/-- What a call that ends has done. -/
theorem NetIo.receiveFrom_eq_some {round : ℚ → ℚ} {io io' : NetIo} {c : ReceiveCall}
    {stream : List Byte} {rounds : ℕ} {r : Reading}
    (h : io.receiveFrom round c stream rounds = some (io', r)) :
    c.len.toNat ≤ stream.length ∧ r.stored = stream.take c.len.toNat ∧ r.reported = [] ∧
      io'.totalBytesReceived = io.totalBytesReceived + BitVec.ofInt 64 c.len := by
  simp only [NetIo.receiveFrom, bind, Option.bind_eq_some_iff, pure, Option.some.injEq,
    Prod.mk.injEq] at h
  obtain ⟨r₀, hloop, hio, rfl⟩ := h
  have hentry : Reading.Of c.len.toNat stream (Reading.entry c stream) :=
    Reading.of_entry c stream
  obtain ⟨hof, hlen⟩ := hentry.loop hloop
  have hsplit := hof.split
  refine ⟨?_, ?_, hof.silent, ?_⟩
  · rw [← hsplit, List.length_append]
    omega
  · rw [← hsplit, ← hlen, List.take_left]
  · rw [← hio]

/-- From a stream that holds enough the call ends, as the call on a stream that
never runs dry does. -/
theorem NetIo.receiveFrom_of_le (round : ℚ → ℚ) (io : NetIo) {c : ReceiveCall}
    {stream : List Byte} (henough : c.len.toNat ≤ stream.length) :
    ∃ r, io.receiveFrom round c stream c.len.toNat = some (io.receiveDataInternal round c, r) := by
  obtain ⟨r, hloop, hreception⟩ :=
    (Reading.of_entry c stream).loop_receiveLoop c.grain c.first henough 0 (Nat.le_add_left _ _)
  have hstarted := congrArg Reception.started hreception
  have hstart := congrArg Reception.start hreception
  refine ⟨r, ?_⟩
  simp only [Reading.reception, Reading.entry, List.length_nil] at hstarted hstart
  simp only [NetIo.receiveFrom, hloop, NetIo.receiveDataInternal, bind, Option.bind, pure,
    hstarted, hstart]

/-- A call settles exactly if its stream holds what it is asked for.  From a
shorter one it never returns and reports nothing. -/
theorem receive_settles_iff (round : ℚ → ℚ) (io : NetIo) (c : ReceiveCall) (stream : List Byte) :
    (ReceiveSettles round io c stream ↔ c.len.toNat ≤ stream.length) ∧
      (stream.length < c.len.toNat → ∀ rounds, io.receiveFrom round c stream rounds = none) := by
  constructor
  · constructor
    · rintro ⟨rounds, io', r, hrun, -⟩
      exact (NetIo.receiveFrom_eq_some hrun).1
    · intro henough
      obtain ⟨r, hrun⟩ := NetIo.receiveFrom_of_le round io henough
      obtain ⟨-, hstored, -, htotal⟩ := NetIo.receiveFrom_eq_some hrun
      exact ⟨c.len.toNat, _, r, hrun, .inl ⟨henough, hstored, htotal⟩⟩
  · intro hshort rounds
    cases hrun : io.receiveFrom round c stream rounds with
    | none => rfl
    | some result =>
        have hle := (NetIo.receiveFrom_eq_some hrun).1
        omega

/-- A call for one byte. -/
def oneByte : ReceiveCall where
  len := 1
  start := 0
  startWithWait := 0
  first := 0
  finish := 0
  grain := fun _ => 0

/-- One byte is asked of a peer that has closed. -/
theorem receive_from_closed_never_settles : ¬ ReceiveSettles id {} oneByte [] := by
  rintro ⟨rounds, io', r, hrun, -⟩
  have hle := (NetIo.receiveFrom_eq_some hrun).1
  simp [oneByte] at hle

end Sectric
