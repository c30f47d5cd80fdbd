import Sectric.Bytes
import Sectric.Lib.Collect
import Mathlib.Tactic

/-!
# The neighbours' messages

A neighbour opens a connection, sends its id in network byte order and then the
blocks of its table, and closes.  The server accepts one connection after the
other, reads the id and then whatever comes until the end of the stream, and
files the blocks under the id.  It stops when it has as many ids as it wants.

A read returns what is there, which may be less than asked for.  So a connection
carries, with its bytes, how much each read finds.  The id is read once, into a
variable that is not set before.  The rest is read up to the size of a buffer, with
the bytes counted in an `int`, and all of it is copied into a vector that has room
for the whole blocks among it.

With whole messages the server is a collector of ids and tables
(`startServer_eq_collect`).
-/

namespace Sectric

open Lib

/-! ## Integers on the wire -/

/-- The four bytes of an `int` in memory. -/
def dwordBytes (x : BitVec 32) : List Byte :=
  [x.extractLsb' 0 8, x.extractLsb' 8 8, x.extractLsb' 16 8, x.extractLsb' 24 8]

/-- The `int` that four bytes of memory hold. -/
def dwordOfBytes (bytes : List Byte) : BitVec 32 :=
  (bytes.getD 3 0 ++ bytes.getD 2 0 : BitVec 16) ++ (bytes.getD 1 0 ++ bytes.getD 0 0 : BitVec 16)

/-- `htonl`, on a little-endian machine. -/
def htonl (x : BitVec 32) : BitVec 32 := dwordOfBytes (dwordBytes x).reverse

/-- `ntohl`. -/
def ntohl (x : BitVec 32) : BitVec 32 := dwordOfBytes (dwordBytes x).reverse

theorem dwordBytes_dwordOfBytes (b₀ b₁ b₂ b₃ : Byte) :
    dwordBytes (dwordOfBytes [b₀, b₁, b₂, b₃]) = [b₀, b₁, b₂, b₃] := by
  have hbyte : ∀ k < 4, (dwordOfBytes [b₀, b₁, b₂, b₃]).extractLsb' (8 * k) 8 =
      [b₀, b₁, b₂, b₃].getD k 0 := by
    intro k hk
    apply BitVec.eq_of_getLsbD_eq
    intro i hi
    simp only [dwordOfBytes, BitVec.getLsbD_extractLsb', hi, decide_true, Bool.true_and,
      BitVec.getLsbD_append]
    interval_cases k <;> grind
  have h₀ := hbyte 0 (by decide)
  have h₁ := hbyte 1 (by decide)
  have h₂ := hbyte 2 (by decide)
  have h₃ := hbyte 3 (by decide)
  simp only [dwordBytes]
  exact congrArg₂ _ h₀ (congrArg₂ _ h₁ (congrArg₂ _ h₂ (congrArg₂ _ h₃ rfl)))

theorem dwordOfBytes_dwordBytes (x : BitVec 32) : dwordOfBytes (dwordBytes x) = x := by
  apply BitVec.eq_of_getLsbD_eq
  intro i hi
  simp only [dwordOfBytes, dwordBytes, List.getD_cons_zero, List.getD_cons_succ,
    BitVec.getLsbD_append, BitVec.getLsbD_extractLsb']
  grind

theorem ntohl_htonl (x : BitVec 32) : ntohl (htonl x) = x := by
  have hreverse : (dwordBytes (htonl x)).reverse = dwordBytes x := by
    rw [htonl]
    simp only [dwordBytes, List.reverse_cons, List.reverse_nil, List.nil_append,
      List.cons_append]
    exact congrArg List.reverse (dwordBytes_dwordOfBytes (x.extractLsb' 24 8)
      (x.extractLsb' 16 8) (x.extractLsb' 8 8) (x.extractLsb' 0 8))
  rw [ntohl, hreverse, dwordOfBytes_dwordBytes]

/-! ## Sending -/

/-- `serializeVector`: the buffer after it.  A buffer that is too small stays as
it is. -/
def serializeVector (data : List Block) (buffer : List Byte) : List Byte :=
  let dataSize := data.length * 16
  if buffer.length < dataSize then buffer else blocksToBytes data ++ buffer.drop dataSize

/-- `sendMessage`: the bytes it sends.  The buffer has the size of the data. -/
def sendMessage (clientId : Word) (data : List Block) : List Byte :=
  dwordBytes (htonl (clientId.setWidth 32)) ++
    serializeVector data (List.replicate (data.length * 16) 0)

theorem sendMessage_eq (clientId : Word) (data : List Block) :
    sendMessage clientId data =
      dwordBytes (htonl (clientId.setWidth 32)) ++ blocksToBytes data := by
  rw [sendMessage, serializeVector, List.length_replicate, if_neg (lt_irrefl _),
    List.drop_of_length_le (by simp), List.append_nil]

theorem length_sendMessage (clientId : Word) (data : List Block) :
    (sendMessage clientId data).length = 4 + data.length * 16 := by
  rw [sendMessage_eq, List.length_append, length_blocksToBytes]
  rfl

/-! ## Receiving -/

/-- An accepted connection: what the client sends before it closes, and how many
bytes, less one, read `k` finds at most. -/
structure Conn where
  bytes : List Byte
  grain : ℕ → ℕ

/-- The most a `read` transfers. -/
def readMax : ℕ := 0x7ffff000

/-- What the loop leaves: the bytes it put into the buffer, and whether
`bytesReceived` has left the range of an `int`. -/
structure Fill where
  buffer : List Byte
  overflow : Bool

/-- The loop that fills the buffer, from read `k` on.  The signed addition
`bytesReceived += bytesRead` is where the run ends if the sum is no `int`. -/
def fillBuffer (bufferSize : ℕ) (grain : ℕ → ℕ) : ℕ → ℕ → List Byte → List Byte → Fill
  | 0, _, buffer, _ => ⟨buffer, false⟩
  | rounds + 1, k, buffer, stream =>
      if buffer.length < bufferSize then
        let bytesRead :=
          stream.take (min (bufferSize - buffer.length) (min (grain k + 1) readMax))
        if bytesRead.length = 0 then ⟨buffer, false⟩
        else if 2 ^ 31 ≤ buffer.length + bytesRead.length then ⟨buffer ++ bytesRead, true⟩
        else fillBuffer bufferSize grain rounds (k + 1) (buffer ++ bytesRead)
          (stream.drop bytesRead.length)
      else ⟨buffer, false⟩

/-- `int client_id`, as a key of the map. -/
def clientKey (clientIdNetwork : BitVec 32) : Word := (ntohl clientIdNetwork).signExtend 64

/-- The size of `buffer_vec`.  The constructor throws if no vector is that long. -/
def bufferVec (size : ℕ) : Option ℕ :=
  let bufferSize := (size * 16 + 4) % 2 ^ 64
  if bufferSize < 2 ^ 63 then some bufferSize else none

/-- What a connection leaves: the id as a key of the map, the size of the buffer,
and its content. -/
structure Receipt extends Fill where
  key : Word
  bufferSize : ℕ

/-- `bytesReceived`, which is also what `memcpy` copies. -/
def Receipt.bytesReceived (r : Receipt) : ℕ := r.buffer.length

/-- `receivedData`, with `bytesReceived / sizeof(__m128i)` elements. -/
def Receipt.receivedData (r : Receipt) : List Block := bytesToBlocks r.buffer

/-- The reads of one round of `startServer`.  `stale` is what `client_id_network`
holds before it is read. -/
def serverRead (bufferSize : ℕ) (stale : BitVec 32) (c : Conn) : Receipt :=
  let header := c.bytes.take (min 4 (c.grain 0 + 1))
  let stream := c.bytes.drop header.length
  { fillBuffer bufferSize c.grain (stream.length + 1) 1 [] stream with
    key := clientKey (dwordOfBytes (header ++ (dwordBytes stale).drop header.length))
    bufferSize := bufferSize }

/-- The run is defined up to the copy, the buffer has room for what was read, and
the vector for what is copied. -/
structure Receipt.InBounds (r : Receipt) : Prop where
  counted : r.overflow = false
  buffer : r.buffer.length ≤ r.bufferSize
  copy : r.bytesReceived ≤ 16 * r.receivedData.length

instance (r : Receipt) : Decidable r.InBounds :=
  decidable_of_iff (r.overflow = false ∧ r.buffer.length ≤ r.bufferSize ∧
      r.bytesReceived ≤ 16 * r.receivedData.length)
    ⟨fun h => ⟨h.1, h.2.1, h.2.2⟩, fun h => ⟨h.counted, h.buffer, h.copy⟩⟩

/-- Where `startServer` can be: at the exception of its buffer, in `accept` with
no connection left, past a step that has no defined result, or done, with the map
and the connections it did not accept. -/
inductive ServerRun where
  | throws
  | waits
  | undefined
  | done (clientDataMap : AList fun _ : Word => List Block) (pending : List Conn)

/-- The rounds of `startServer`, where `stale n` is what round `n` finds in its
`client_id_network`. -/
def serverRounds (recvNum bufferSize : ℕ) : (ℕ → BitVec 32) →
    AList (fun _ : Word => List Block) → List Conn → ServerRun
  | _, _, [] => .waits
  | stale, clientDataMap, newSocket :: pending =>
      let r := serverRead bufferSize (stale 0) newSocket
      if r.InBounds then
        let clientDataMap := clientDataMap.insert r.key r.receivedData
        if clientDataMap.keys.length ≥ recvNum then .done clientDataMap pending
        else serverRounds recvNum bufferSize (fun n => stale (n + 1)) clientDataMap pending
      else .undefined

/-- `startServer`, on the connections it is offered. -/
def startServer (recvNum size : ℕ) (stale : ℕ → BitVec 32) (pending : List Conn) : ServerRun :=
  match bufferVec size with
  | none => .throws
  | some bufferSize => serverRounds recvNum bufferSize stale ∅ pending

/-! ## The loop -/

/-- A round of the loop in which something is read. -/
theorem fillBuffer_round {bufferSize : ℕ} (grain : ℕ → ℕ) (rounds k : ℕ)
    {buffer stream : List Byte} (hroom : buffer.length < bufferSize) (hstream : stream ≠ []) :
    ∃ n, 0 < n ∧ n ≤ stream.length ∧ buffer.length + n ≤ bufferSize ∧
      fillBuffer bufferSize grain (rounds + 1) k buffer stream =
        if 2 ^ 31 ≤ buffer.length + n then ⟨buffer ++ stream.take n, true⟩
        else fillBuffer bufferSize grain rounds (k + 1) (buffer ++ stream.take n)
          (stream.drop n) := by
  obtain ⟨want, hwant⟩ :
      ∃ want, min (bufferSize - buffer.length) (min (grain k + 1) readMax) = want := ⟨_, rfl⟩
  have hpos : 0 < stream.length := List.length_pos_iff.mpr hstream
  have hmax : 0 < readMax := by decide
  have hlen : (stream.take want).length = min want stream.length := List.length_take ..
  refine ⟨min want stream.length, by omega, Nat.min_le_right .., by omega, ?_⟩
  rw [fillBuffer, if_pos hroom, hwant]
  dsimp only
  rw [hlen, if_neg (by omega), ← List.take_eq_take_min]

/-- A round in which nothing is read. -/
theorem fillBuffer_stop {bufferSize : ℕ} (grain : ℕ → ℕ) (rounds k : ℕ)
    {buffer stream : List Byte} (h : bufferSize ≤ buffer.length ∨ stream = []) :
    fillBuffer bufferSize grain rounds k buffer stream = ⟨buffer, false⟩ := by
  cases rounds with
  | zero => rfl
  | succ rounds =>
      rw [fillBuffer]
      rcases h with hfull | rfl
      · rw [if_neg (not_lt.mpr hfull)]
      · rw [List.take_nil]
        exact ite_self _

/-- The loop puts the stream into the buffer up to its size, unless the count
leaves the range of an `int`. -/
theorem fillBuffer_spec (bufferSize : ℕ) (grain : ℕ → ℕ) :
    ∀ (rounds k : ℕ) (buffer stream : List Byte), stream.length < rounds →
      buffer.length ≤ bufferSize → buffer.length < 2 ^ 31 →
      let fill := fillBuffer bufferSize grain rounds k buffer stream
      fill.buffer.length ≤ bufferSize ∧
        (fill.overflow = false ↔ min (buffer.length + stream.length) bufferSize < 2 ^ 31) ∧
        (fill.overflow = false →
          fill.buffer = buffer ++ stream.take (bufferSize - buffer.length)) := by
  intro rounds
  induction rounds with
  | zero =>
      intro k buffer stream hrounds
      omega
  | succ rounds ih =>
      intro k buffer stream hrounds hle hint
      by_cases hstop : bufferSize ≤ buffer.length ∨ stream = []
      · rw [fillBuffer_stop grain _ k hstop]
        rcases hstop with hfull | rfl
        · refine ⟨hle, by simp only [true_iff]; omega, fun _ => ?_⟩
          rw [Nat.sub_eq_zero_of_le hfull, List.take_zero, List.append_nil]
        · refine ⟨hle, by simp only [List.length_nil, true_iff]; omega, fun _ => ?_⟩
          rw [List.take_nil, List.append_nil]
      · rw [not_or, not_le] at hstop
        obtain ⟨n, hn, hns, hfit, hround⟩ :=
          fillBuffer_round grain rounds k hstop.1 hstop.2
        have hlen : (buffer ++ stream.take n).length = buffer.length + n := by
          rw [List.length_append, List.length_take, Nat.min_eq_left hns]
        rw [hround]
        split
        · rename_i hover
          refine ⟨by rw [hlen]; exact hfit, ?_, ?_⟩
          · simp only [Bool.true_eq_false, false_iff]
            omega
          · intro hfalse
            cases hfalse
        · rename_i hunder
          obtain ⟨hbound, hoverflow, hbuffer⟩ := ih (k + 1) (buffer ++ stream.take n)
            (stream.drop n) (by rw [List.length_drop]; omega) (by omega) (by omega)
          refine ⟨hbound, ?_, ?_⟩
          · have hsum : buffer.length + n + (stream.length - n) =
                buffer.length + stream.length := by omega
            rw [hoverflow, hlen, List.length_drop, hsum]
          · intro hdone
            have hsplit : bufferSize - buffer.length =
                n + (bufferSize - (buffer.length + n)) := by omega
            rw [hbuffer hdone, hlen, List.append_assoc, hsplit, List.take_add]

/-! ## What a connection leaves -/

theorem length_bytesToBlocks (bytes : List Byte) :
    (bytesToBlocks bytes).length = bytes.length / 16 := by
  rw [bytesToBlocks, List.length_map, List.length_range]

/-- The bytes that are left after the first read. -/
def Conn.left (c : Conn) : List Byte := c.bytes.drop (min 4 (c.grain 0 + 1))

theorem Conn.length_left (c : Conn) : c.left.length = c.bytes.length - min 4 (c.grain 0 + 1) :=
  List.length_drop ..

theorem Conn.drop_header (c : Conn) :
    c.bytes.drop (c.bytes.take (min 4 (c.grain 0 + 1))).length = c.left := by
  rw [Conn.left, List.length_take, ← List.drop_eq_drop_min]

/-- What the buffer holds after the loop. -/
theorem serverRead_spec (bufferSize : ℕ) (stale : BitVec 32) (c : Conn) :
    let r := serverRead bufferSize stale c
    r.buffer.length ≤ bufferSize ∧
      (r.overflow = false ↔ min c.left.length bufferSize < 2 ^ 31) ∧
      (r.overflow = false → r.buffer = c.left.take bufferSize) := by
  intro r
  have hspec := fillBuffer_spec bufferSize c.grain (c.left.length + 1) 1 [] c.left
    (Nat.lt_succ_self _) (Nat.zero_le _) (by decide)
  rw [← c.drop_header] at hspec ⊢
  simp only [List.length_nil, Nat.zero_add, Nat.sub_zero, List.nil_append] at hspec
  exact hspec

/-- The copy stays inside its vector when whole blocks are received. -/
theorem serverRead_inBounds {bufferSize : ℕ} {stale : BitVec 32} {c : Conn} :
    (serverRead bufferSize stale c).InBounds ↔
      min c.left.length bufferSize < 2 ^ 31 ∧ 16 ∣ min c.left.length bufferSize := by
  obtain ⟨hbuffer, hoverflow, hfill⟩ := serverRead_spec bufferSize stale c
  have hcopy : ∀ r : Receipt, r.bytesReceived ≤ 16 * r.receivedData.length ↔
      16 ∣ r.buffer.length := by
    intro r
    rw [Receipt.receivedData, length_bytesToBlocks, Receipt.bytesReceived]
    omega
  constructor
  · rintro ⟨hcounted, -, hwhole⟩
    rw [hcopy, hfill hcounted, List.length_take, Nat.min_comm] at hwhole
    exact ⟨hoverflow.mp hcounted, hwhole⟩
  · rintro ⟨hint, hdvd⟩
    have hcounted := hoverflow.mpr hint
    refine ⟨hcounted, hbuffer, ?_⟩
    rw [hcopy, hfill hcounted, List.length_take, Nat.min_comm]
    exact hdvd

theorem bufferVec_eq_some {size bufferSize : ℕ} :
    bufferVec size = some bufferSize ↔
      (size * 16 + 4) % 2 ^ 64 < 2 ^ 63 ∧ (size * 16 + 4) % 2 ^ 64 = bufferSize := by
  rw [bufferVec, Option.ite_none_right_eq_some, Option.some.injEq]

/-- The first read takes the whole id. -/
structure Conn.WholeHeader (c : Conn) : Prop where
  sent : 4 ≤ c.bytes.length
  read : 3 ≤ c.grain 0

/-- Then the key does not depend on what the memory holds. -/
theorem Conn.WholeHeader.key_eq {c : Conn} (hc : c.WholeHeader) (bufferSize : ℕ)
    (stale : BitVec 32) :
    (serverRead bufferSize stale c).key = clientKey (dwordOfBytes (c.bytes.take 4)) := by
  have hheader : min 4 (c.grain 0 + 1) = 4 := Nat.min_eq_left (Nat.succ_le_succ hc.read)
  have hlen : (c.bytes.take 4).length = 4 := by
    rw [List.length_take, Nat.min_eq_left hc.sent]
  have hstale : (dwordBytes stale).drop 4 = [] := rfl
  show clientKey (dwordOfBytes (c.bytes.take (min 4 (c.grain 0 + 1)) ++
    (dwordBytes stale).drop (c.bytes.take (min 4 (c.grain 0 + 1))).length)) = _
  rw [hheader, hlen, hstale, List.append_nil]

/-! ## A message arrives -/

/-- What a round files for a connection if its memory is clear. -/
def receiveMessage (size : ℕ) (c : Conn) : Word × List Block :=
  let r := serverRead ((size * 16 + 4) % 2 ^ 64) 0 c
  (r.key, r.receivedData)

theorem receiveMessage_eq {size : ℕ} (hsize : size * 16 + 4 < 2 ^ 63) (c : Conn) :
    receiveMessage size c = ((serverRead (size * 16 + 4) 0 c).key,
      (serverRead (size * 16 + 4) 0 c).receivedData) := by
  have hmod : (size * 16 + 4) % 2 ^ 64 = size * 16 + 4 := by omega
  rw [receiveMessage, hmod]

/-- A connection that carries a whole message, with the id in one piece and no more
bytes than an `int` counts. -/
structure Conn.Carries (c : Conn) (clientId : Word) (data : List Block) : Prop where
  bytes_eq : c.bytes = sendMessage clientId data
  header : 3 ≤ c.grain 0
  counted : 16 * data.length < 2 ^ 31

/-- The id under which a message of `clientId` is filed. -/
def filedId (clientId : Word) : Word := clientKey (htonl (clientId.setWidth 32))

theorem clientKey_htonl {clientId : Word} (hid : clientId.toNat < 2 ^ 31) :
    clientKey (htonl (clientId.setWidth 32)) = clientId := by
  have hmsb : (clientId.setWidth 32).msb = false := by
    rw [BitVec.msb_eq_false_iff_two_mul_lt, BitVec.toNat_setWidth]
    omega
  rw [clientKey, ntohl_htonl, BitVec.signExtend_eq_setWidth_of_msb_false hmsb]
  apply BitVec.eq_of_toNat_eq
  rw [BitVec.toNat_setWidth, BitVec.toNat_setWidth]
  omega

section Carries

variable {size : ℕ} {c : Conn} {clientId : Word} {data : List Block}
  (hc : c.Carries clientId data)

include hc

theorem Conn.Carries.wholeHeader : c.WholeHeader where
  sent := by
    rw [hc.bytes_eq, length_sendMessage]
    omega
  read := hc.header

theorem Conn.Carries.left_eq : c.left = blocksToBytes data := by
  rw [Conn.left, Nat.min_eq_left (Nat.succ_le_succ hc.header), hc.bytes_eq, sendMessage_eq]
  rfl

theorem Conn.Carries.key_eq (bufferSize : ℕ) (stale : BitVec 32) :
    (serverRead bufferSize stale c).key = filedId clientId := by
  have hsent : c.bytes.take 4 = dwordBytes (htonl (clientId.setWidth 32)) := by
    rw [hc.bytes_eq, sendMessage_eq]
    rfl
  rw [hc.wholeHeader.key_eq, hsent, dwordOfBytes_dwordBytes]
  rfl

variable (hlen : data.length ≤ size)

include hlen

/-- Of a message of at most the expected size whole blocks are received. -/
theorem Conn.Carries.inBounds (stale : BitVec 32) :
    (serverRead (size * 16 + 4) stale c).InBounds := by
  have hleft : min c.left.length (size * 16 + 4) = 16 * data.length := by
    rw [hc.left_eq, length_blocksToBytes]
    omega
  rw [serverRead_inBounds, hleft]
  exact ⟨hc.counted, Nat.dvd_mul_right ..⟩

/-- The blocks of the message are received as they were sent. -/
theorem Conn.Carries.receivedData_eq (stale : BitVec 32) :
    (serverRead (size * 16 + 4) stale c).receivedData = data := by
  have hleft : c.left.length ≤ size * 16 + 4 := by
    rw [hc.left_eq, length_blocksToBytes]
    omega
  rw [Receipt.receivedData, (serverRead_spec _ _ _).2.2 (hc.inBounds hlen stale).counted,
    List.take_of_length_le hleft, hc.left_eq, bytesToBlocks_blocksToBytes]

theorem receiveMessage_of_carries (hsize : size * 16 + 4 < 2 ^ 63) :
    receiveMessage size c = (filedId clientId, data) := by
  rw [receiveMessage_eq hsize, hc.key_eq, hc.receivedData_eq hlen]

end Carries

/-! ## The server collects -/

/-- The run of a server that collects. -/
def ServerRun.ofCollect :
    Option (AList (fun _ : Word => List Block) × List Conn) → ServerRun
  | none => .waits
  | some (clientDataMap, pending) => .done clientDataMap pending

/-- A round files what it receives, if that is in bounds. -/
theorem serverRounds_cons {recvNum bufferSize : ℕ} {stale : ℕ → BitVec 32}
    {clientDataMap : AList fun _ : Word => List Block} {c : Conn} {pending : List Conn}
    {id : Word} {data : List Block} (hbounds : (serverRead bufferSize (stale 0) c).InBounds)
    (hkey : (serverRead bufferSize (stale 0) c).key = id)
    (hdata : (serverRead bufferSize (stale 0) c).receivedData = data) :
    serverRounds recvNum bufferSize stale clientDataMap (c :: pending) =
      if (clientDataMap.insert id data).keys.length ≥ recvNum then
        .done (clientDataMap.insert id data) pending
      else serverRounds recvNum bufferSize (fun n => stale (n + 1))
        (clientDataMap.insert id data) pending := by
  rw [serverRounds, ← hkey, ← hdata]
  exact if_pos hbounds

/-- A first round out of bounds is where the run ends. -/
theorem startServer_undefined {recvNum size : ℕ} {stale : ℕ → BitVec 32} {c : Conn}
    {pending : List Conn} (hsize : size * 16 + 4 < 2 ^ 63)
    (hbounds : ¬ (serverRead (size * 16 + 4) (stale 0) c).InBounds) :
    startServer recvNum size stale (c :: pending) = .undefined := by
  have hvec : bufferVec size = some (size * 16 + 4) := bufferVec_eq_some.mpr (by omega)
  rw [startServer, hvec]
  exact if_neg hbounds

/-- A connection whose id comes in one piece and whose rest the server takes in. -/
structure Conn.Served (size : ℕ) (c : Conn) : Prop where
  whole : c.WholeHeader
  inBounds : ∀ stale, (serverRead (size * 16 + 4) stale c).InBounds

/-- With such connections the server ends with the map of the collector, or waits. -/
theorem startServer_eq_collect {recvNum size : ℕ} (hsize : size * 16 + 4 < 2 ^ 63)
    {stale : ℕ → BitVec 32} {pending : List Conn} (hserved : ∀ c ∈ pending, c.Served size) :
    startServer recvNum size stale pending =
      .ofCollect (collect (receiveMessage size) recvNum ∅ pending) := by
  have hvec : bufferVec size = some (size * 16 + 4) := bufferVec_eq_some.mpr (by omega)
  rw [startServer, hvec]
  dsimp only
  generalize (∅ : AList fun _ : Word => List Block) = clientDataMap
  induction pending generalizing stale clientDataMap with
  | nil => rfl
  | cons c pending ih =>
      have hc := hserved c List.mem_cons_self
      have hkey : (serverRead (size * 16 + 4) (stale 0) c).key = (receiveMessage size c).1 := by
        rw [hc.whole.key_eq, receiveMessage_eq hsize, hc.whole.key_eq]
      have hdata : (serverRead (size * 16 + 4) (stale 0) c).receivedData =
          (receiveMessage size c).2 := by
        simp only [receiveMessage_eq hsize, Receipt.receivedData, serverRead]
      rw [serverRounds_cons (hc.inBounds _) hkey hdata, collect]
      split
      · rfl
      · exact ih (fun c hc => hserved c (List.mem_cons_of_mem _ hc)) _

/-- With fewer connections than ids are wanted the server is not done. -/
theorem serverRounds_short {recvNum bufferSize : ℕ} {pending : List Conn} :
    ∀ {stale : ℕ → BitVec 32} {clientDataMap : AList fun _ : Word => List Block},
      clientDataMap.keys.length + pending.length < recvNum →
      (∀ filed rest, serverRounds recvNum bufferSize stale clientDataMap pending ≠
        .done filed rest) ∧
      ((∀ c ∈ pending, ∀ stale, (serverRead bufferSize stale c).InBounds) →
        serverRounds recvNum bufferSize stale clientDataMap pending = .waits) := by
  induction pending with
  | nil =>
      intro stale clientDataMap hshort
      exact ⟨fun _ _ => ServerRun.noConfusion, fun _ => rfl⟩
  | cons c pending ih =>
      intro stale clientDataMap hshort
      rw [List.length_cons] at hshort
      by_cases hbounds : (serverRead bufferSize (stale 0) c).InBounds
      · have hinsert : ∀ id data,
            (clientDataMap.insert id data).keys.length ≤ clientDataMap.keys.length + 1 := by
          intro id data
          rw [AList.keys_insert, List.length_cons]
          exact Nat.succ_le_succ (List.length_erase_le ..)
        rw [serverRounds_cons hbounds rfl rfl]
        have hroom := hinsert (serverRead bufferSize (stale 0) c).key
          (serverRead bufferSize (stale 0) c).receivedData
        rw [if_neg (by omega)]
        have hshort₁ : (clientDataMap.insert (serverRead bufferSize (stale 0) c).key
            (serverRead bufferSize (stale 0) c).receivedData).keys.length + pending.length <
              recvNum := by
          omega
        refine ⟨(ih hshort₁).1, fun hall => (ih hshort₁).2 ?_⟩
        exact fun c hc => hall c (List.mem_cons_of_mem _ hc)
      · have hundefined : serverRounds recvNum bufferSize stale clientDataMap (c :: pending) =
            .undefined := if_neg hbounds
        refine ⟨fun filed rest hdone => ?_, fun hall => ?_⟩
        · rw [hundefined] at hdone
          cases hdone
        · exact absurd (hall c List.mem_cons_self _) hbounds

/-- The same of the whole server. -/
theorem startServer_short {recvNum size : ℕ} {stale : ℕ → BitVec 32} {pending : List Conn}
    (hshort : pending.length < recvNum) :
    (∀ filed rest, startServer recvNum size stale pending ≠ .done filed rest) ∧
    (size * 16 + 4 < 2 ^ 63 →
      (∀ c ∈ pending, ∀ stale, (serverRead (size * 16 + 4) stale c).InBounds) →
        startServer recvNum size stale pending = .waits) := by
  have hempty : (∅ : AList fun _ : Word => List Block).keys.length + pending.length < recvNum := by
    rw [AList.keys_empty, List.length_nil, Nat.zero_add]
    exact hshort
  constructor
  · intro filed rest hdone
    rw [startServer] at hdone
    split at hdone
    · cases hdone
    · exact (serverRounds_short hempty).1 filed rest hdone
  · intro hsize hbounds
    have hvec : bufferVec size = some (size * 16 + 4) := bufferVec_eq_some.mpr (by omega)
    rw [startServer, hvec]
    exact (serverRounds_short hempty).2 hbounds

end Sectric
