import Sectric.Net.Server

/-!
# The server's reads and its memory

A message is filed as it was sent only if the first read delivers the whole id and
an `int` counts its bytes (`Conn.filedAs_message_iff`), and the copy stays inside its
vector only if whole blocks were received (`serverRead_inBounds_iff`).  The buffer
itself is never overrun.
-/

namespace Sectric

/-! ## The copy -/

/-- The buffer is never overrun, and the copy stays inside its vector exactly when
whole blocks arrive after the first read, fewer than the buffer takes and an `int`
counts, or there is no buffer. -/
theorem serverRead_inBounds_iff (size : ℕ) (stale : BitVec 32) (c : Conn) :
    (∀ bufferSize ∈ bufferVec size,
      (serverRead bufferSize stale c).buffer.length ≤ bufferSize) ∧
      ((∀ bufferSize ∈ bufferVec size, (serverRead bufferSize stale c).InBounds) ↔
        2 ^ 63 ≤ (size * 16 + 4) % 2 ^ 64 ∨
          16 ∣ c.bytes.length - min 4 (c.grain 0 + 1) ∧
            c.bytes.length - min 4 (c.grain 0 + 1) < (size * 16 + 4) % 2 ^ 64 ∧
            c.bytes.length - min 4 (c.grain 0 + 1) < 2 ^ 31) := by
  have hsize : (size * 16 + 4) % 2 ^ 64 % 16 = 4 := by omega
  refine ⟨fun bufferSize _ => (serverRead_spec bufferSize stale c).1, ?_⟩
  simp only [Option.mem_def, bufferVec_eq_some, serverRead_inBounds]
  rw [← c.length_left]
  constructor
  · intro h
    by_cases hfits : (size * 16 + 4) % 2 ^ 64 < 2 ^ 63
    · obtain ⟨hint, hdvd⟩ := h _ ⟨hfits, rfl⟩
      right
      omega
    · exact .inl (not_lt.mp hfits)
  · rintro h bufferSize ⟨hfits, rfl⟩
    obtain hlong | ⟨hdvd, hlt, hint⟩ := h
    · omega
    · rw [Nat.min_eq_left hlt.le]
      exact ⟨hint, hdvd⟩

/-- An id and five bytes, for a vector of one block. -/
def truncatedConn : Conn where
  bytes := [0, 0, 0, 1, 11, 12, 13, 14, 15]
  grain _ := 3

/-- All five bytes are copied into a vector of no blocks. -/
theorem serverRead_truncatedConn :
    bufferVec 1 = some 20 ∧
      ¬ (serverRead 20 0 truncatedConn).bytesReceived ≤
          16 * (serverRead 20 0 truncatedConn).receivedData.length ∧
      (serverRead 20 0 truncatedConn).bytesReceived = 5 ∧
      (serverRead 20 0 truncatedConn).receivedData = [] := by
  decide

/-! ## A message is filed -/

/-- The server files `data` under `id` for the connection, whatever it has filed
before, waits for, and finds in its memory. -/
def Conn.FiledAs (c : Conn) (size : ℕ) (id : Word) (data : List Block) : Prop :=
  ∃ bufferSize ∈ bufferVec size, ∀ recvNum stale clientDataMap pending,
    serverRounds recvNum bufferSize stale clientDataMap (c :: pending) =
      if (clientDataMap.insert id data).keys.length ≥ recvNum then
        .done (clientDataMap.insert id data) pending
      else serverRounds recvNum bufferSize (fun n => stale (n + 1))
        (clientDataMap.insert id data) pending

theorem Conn.filedAs_of_serverRead {c : Conn} {size bufferSize : ℕ} {id : Word} {data : List Block}
    (hsize : bufferSize ∈ bufferVec size)
    (h : ∀ stale, (serverRead bufferSize stale c).InBounds ∧
      (serverRead bufferSize stale c).key = id ∧
        (serverRead bufferSize stale c).receivedData = data) :
    c.FiledAs size id data := by
  refine ⟨bufferSize, hsize, ?_⟩
  intro recvNum stale clientDataMap pending
  obtain ⟨hbounds, hkey, hdata⟩ := h (stale 0)
  exact serverRounds_cons hbounds hkey hdata

/-- A round that files something is in bounds. -/
theorem Conn.FiledAs.inBounds {c : Conn} {size : ℕ} {id : Word} {data : List Block}
    (h : c.FiledAs size id data) (stale : BitVec 32) :
    ∃ bufferSize ∈ bufferVec size, (serverRead bufferSize stale c).InBounds := by
  obtain ⟨bufferSize, hsize, hround⟩ := h
  refine ⟨bufferSize, hsize, ?_⟩
  by_contra hbounds
  have hdone := hround 0 (fun _ => stale) ∅ []
  rw [if_pos (Nat.zero_le _)] at hdone
  have hundefined : serverRounds 0 bufferSize (fun _ => stale) ∅ [c] = .undefined := if_neg hbounds
  rw [hundefined] at hdone
  cases hdone

/-- A message is filed as it was sent exactly when the first read takes the whole
id, and an `int` counts its bytes. -/
theorem Conn.filedAs_message_iff {c : Conn} {size : ℕ} {id : Word} {data : List Block}
    (hbytes : c.bytes = sendMessage id data) (hid : id.toNat < 2 ^ 31)
    (hlen : data.length = size) :
    c.FiledAs size id data ↔ 3 ≤ c.grain 0 ∧ data.length * 16 < 2 ^ 31 := by
  have hleft : c.left.length = 4 + data.length * 16 - min 4 (c.grain 0 + 1) := by
    rw [c.length_left, hbytes, length_sendMessage]
  constructor
  · intro h
    obtain ⟨bufferSize, hsize, hbounds⟩ := h.inBounds 0
    rw [serverRead_inBounds, hleft] at hbounds
    obtain ⟨hfits, hbuffer⟩ := bufferVec_eq_some.mp hsize
    rw [hlen] at hbounds ⊢
    omega
  · rintro ⟨hread, hint⟩
    have hcarries : c.Carries id data := ⟨hbytes, hread, by omega⟩
    have hsize : bufferVec size = some (size * 16 + 4) := bufferVec_eq_some.mpr (by omega)
    refine Conn.filedAs_of_serverRead hsize fun stale => ⟨?_, ?_, ?_⟩
    · exact hcarries.inBounds hlen.le stale
    · exact (hcarries.key_eq _ stale).trans (clientKey_htonl hid)
    · exact hcarries.receivedData_eq hlen.le stale

/-- A message of one block from client `5`, all of which is there when it is
read, or of which reads find at most `n + 1` bytes. -/
def fiveConn (n : ℕ) : Conn where
  bytes := sendMessage 5 [7]
  grain _ := n

theorem Conn.filedAs_message_iff_fiveConn :
    (fiveConn 19).bytes = sendMessage 5 [7] ∧ (5 : Word).toNat < 2 ^ 31 ∧
      [(7 : Block)].length = 1 ∧ (fiveConn 19).FiledAs 1 5 [7] :=
  ⟨rfl, by decide, rfl,
    (Conn.filedAs_message_iff (rfl : (fiveConn 19).bytes = sendMessage 5 [7]) (by decide) rfl).mpr
      ⟨by decide, by decide⟩⟩

/-- A read that finds two bytes of the id leaves the other two to the payload,
which is then one block and two bytes for a vector of one block; the key is made
of the two bytes and of what the memory holds. -/
theorem fiveConn_not_filedAs :
    ¬ (fiveConn 1).FiledAs 1 5 [7] ∧ (serverRead 20 0 (fiveConn 1)).key ≠ 5 ∧
      (serverRead 20 0 (fiveConn 1)).receivedData ≠ [7] ∧
      (serverRead 20 0 (fiveConn 1)).bytesReceived = 18 := by
  refine ⟨?_, by decide, by decide, by decide⟩
  intro h
  obtain ⟨bufferSize, hsize, hbounds⟩ := h.inBounds 0
  rw [show bufferVec 1 = some 20 from rfl, Option.mem_some] at hsize
  subst hsize
  revert hbounds
  decide

end Sectric
