import Sectric.Psi.Interleaving

/-!
# Vectors on a connection

`SendBytesVector` sends the number of its items and the length of the first, and then
as many bytes of every item.  `ReceiveBytesVector` reads both numbers and cuts what
follows.  `SendStringVector` and `ReceiveStringVector` are given the length instead.
An item that is longer is cut off, and one that is shorter is read past its end.

So in any order of steps a vector arrives as it was sent exactly if all its items have
that length, and there are not too many (`bytesVector_arrives_iff`,
`stringVector_arrives_iff`).
-/

namespace Sectric

open Lib

/-! ## The model -/

/-- `A[i]`, in memory. -/
def itemAt (A : List (List Byte)) (i : ℕ) : Except String (List Byte) :=
  match A[i]? with
  | none => .error "index out of range"
  | some item => .ok item

/-- One round of the loop that fills the buffer with `len` bytes of every item. -/
def pushItem (len : ℕ) (buffer item : List Byte) : Except String (List Byte) :=
  if item.length < len then .error "read past the end of an item"
  else .ok (buffer ++ item.take len)

/-- The loop that fills the buffer. -/
def fillItems (len : ℕ) (A : List (List Byte)) : Except String (List Byte) :=
  intLoop A.length (fun buffer i => itemAt A i >>= pushItem len buffer) []

/-- One round of the loop that cuts the buffer into items. -/
def cutItem (len : ℕ) (buffer : List Byte) (A : List (List Byte)) (i : ℕ) :
    Except String (List (List Byte)) :=
  if buffer.length < (i + 1) * len then .error "read past the end of the buffer"
  else .ok (A ++ [(buffer.drop (i * len)).take len])

/-- The loop that cuts the buffer. -/
def cutItems (num len : ℕ) (buffer : List Byte) : Except String (List (List Byte)) :=
  intLoop num (cutItem len buffer) []

/-- `SendBytes(buffer, LEN * NUM)` of the buffer the loop has filled. -/
def sendItems (len : ℕ) (A : List (List Byte)) : Thread Byte (Except String Unit) :=
  match fillItems len A with
  | .error e => return .error e
  | .ok buffer => do
      .sendAll (buffer.take (len * A.length % 2 ^ 64))
      return .ok ()

/-- `ReceiveBytes(buffer, LEN * NUM)`, and the loop that cuts the buffer. -/
def receiveItems (num len : ℕ) : Thread Byte (Except String (List (List Byte))) := do
  let buffer ← .receiveMany (len * num % 2 ^ 64)
  return cutItems num len buffer

/-- `SendBytesVector`.  It looks at `A[0]`. -/
def sendBytesVector (A : List (List Byte)) : Thread Byte (Except String Unit) :=
  match itemAt A 0 with
  | .error e => return .error e
  | .ok first => do
      sendInteger A.length
      sendInteger first.length
      sendItems first.length A

/-- `ReceiveBytesVector`. -/
def receiveBytesVector : Thread Byte (Except String (List (List Byte))) := do
  let num ← receiveInteger
  let len ← receiveInteger
  receiveItems num len

/-- Strings in memory: there is a zero behind each. -/
def inMemory (A : List (List Byte)) : List (List Byte) := A.map fun str => str ++ [0]

/-- `SendStringVector`. -/
def sendStringVector (A : List (List Byte)) (len : ℕ) : Thread Byte (Except String Unit) := do
  sendInteger A.length
  sendItems len (inMemory A)

/-- `ReceiveStringVector`. -/
def receiveStringVector (len : ℕ) : Thread Byte (Except String (List (List Byte))) := do
  let num ← receiveInteger
  receiveItems num len

/-! ## The buffer -/

/-- A loop over the places of a list is one over its items. -/
theorem foldlM_itemAt {σ : Type} (f : σ → List Byte → Except String σ) (A : List (List Byte))
    (s : σ) :
    (List.range A.length).foldlM (fun s i => itemAt A i >>= f s) s = A.foldlM f s := by
  induction A using List.reverseRecOn generalizing s with
  | nil => rfl
  | append_singleton A item ih =>
      have hfront : (List.range A.length).foldlM (fun s i => itemAt (A ++ [item]) i >>= f s) s =
          (List.range A.length).foldlM (fun s i => itemAt A i >>= f s) s := by
        apply foldlM_congr
        intro s i hi
        rw [itemAt, itemAt, List.getElem?_append_left (List.mem_range.mp hi)]
      have hlast : itemAt (A ++ [item]) A.length = .ok item := by
        simp [itemAt]
      rw [List.length_append, List.length_singleton, List.range_succ, List.foldlM_append, hfront,
        ih, List.foldlM_append]
      congr 1
      funext s'
      rw [List.foldlM_cons, List.foldlM_cons, hlast]
      rfl

/-- The buffer is filled exactly if the items are long enough. -/
theorem foldlM_pushItem {len : ℕ} {A : List (List Byte)} :
    ∀ {buffer out : List Byte}, A.foldlM (pushItem len) buffer = .ok out ↔
      (∀ item ∈ A, len ≤ item.length) ∧ out = buffer ++ A.flatMap (List.take len) := by
  induction A with
  | nil =>
      intro buffer out
      rw [List.foldlM_nil, List.flatMap_nil, List.append_nil]
      constructor
      · intro h
        exact ⟨fun _ hitem => absurd hitem List.not_mem_nil, (Except.ok.inj h).symm⟩
      · rintro ⟨-, rfl⟩
        rfl
  | cons item A ih =>
      intro buffer out
      rw [List.foldlM_cons, pushItem, List.forall_mem_cons, List.flatMap_cons]
      by_cases hlen : len ≤ item.length
      · rw [if_neg (not_lt.mpr hlen), ← List.append_assoc]
        refine Iff.trans (@ih (buffer ++ item.take len) out) ?_
        rw [and_iff_right hlen]
      · rw [if_pos (not_le.mp hlen)]
        constructor
        · intro h
          cases h
        · rintro ⟨⟨h, -⟩, -⟩
          exact absurd h hlen

theorem fillItems_eq_ok_iff {len : ℕ} {A : List (List Byte)} {buffer : List Byte} :
    fillItems len A = .ok buffer ↔ A.length < 2 ^ 31 ∧ (∀ item ∈ A, len ≤ item.length) ∧
      buffer = A.flatMap (List.take len) := by
  rw [fillItems, intLoop_eq_ok_iff, foldlM_itemAt, foldlM_pushItem, List.nil_append]

theorem length_filled {len : ℕ} {A : List (List Byte)} (hlen : ∀ item ∈ A, len ≤ item.length) :
    (A.flatMap (List.take len)).length = len * A.length :=
  length_flatMap_width fun item hitem => List.length_take_of_le (hlen item hitem)

/-- The receiver cuts the items out again. -/
theorem cutItems_filled {len : ℕ} {A : List (List Byte)} (hcount : A.length < 2 ^ 31)
    (hlen : ∀ item ∈ A, len ≤ item.length) :
    cutItems A.length len (A.flatMap (List.take len)) = .ok (A.map (List.take len)) := by
  have hround : ∀ i ∈ List.range A.length, ∀ rows,
      cutItem len (A.flatMap (List.take len)) rows i =
        .ok (rows ++ [((A.flatMap (List.take len)).drop (i * len)).take len]) := by
    intro i hi rows
    rw [cutItem, if_neg]
    rw [length_filled hlen, Nat.mul_comm len]
    exact not_lt.mpr (Nat.mul_le_mul_right len (List.mem_range.mp hi))
  have hloop := foldlM_appending id
    (fun i => [((A.flatMap (List.take len)).drop (i * len)).take len]) (List.range A.length) []
    hround
  rw [cutItems, intLoop_eq hcount]
  refine hloop.trans ?_
  rw [← List.map_eq_flatMap,
    map_cut_flatMap fun item hitem => List.length_take_of_le (hlen item hitem)]
  rfl

/-- Items that are long enough are cut off nowhere exactly if none is longer. -/
theorem map_take_eq_self_iff {len : ℕ} {A : List (List Byte)}
    (hlen : ∀ item ∈ A, len ≤ item.length) :
    A.map (List.take len) = A ↔ ∀ item ∈ A, item.length = len := by
  constructor
  · intro h item hitem
    have hmap : A.map (List.take len) = A.map id := by rw [h, List.map_id]
    have htake : item.take len = item := List.map_inj_left.mp hmap item hitem
    exact le_antisymm (List.take_eq_self_iff item |>.mp htake) (hlen item hitem)
  · intro h
    conv_rhs => rw [← List.map_id A]
    apply List.map_congr_left
    intro item hitem
    exact List.take_of_length_le (h item hitem).le

/-! ## The two threads -/

/-- The number of bytes of a buffer is computed as it is, if the items fit the memory. -/
theorem filled_lt {len : ℕ} {A : List (List Byte)} (hmemory : A.flatten.length < 2 ^ 64)
    (hlen : ∀ item ∈ A, len ≤ item.length) : len * A.length < 2 ^ 64 := by
  rw [← length_filled hlen]
  refine lt_of_le_of_lt ?_ hmemory
  rw [List.length_flatMap, List.length_flatten]
  apply List.sum_le_sum
  intro item _
  exact List.length_take_le' ..

/-- Where all items are long enough they arrive, cut off at the length. -/
theorem sendItems_meets {len : ℕ} {A : List (List Byte)} (hmemory : A.flatten.length < 2 ^ 64)
    (hcount : A.length < 2 ^ 31) (hlen : ∀ item ∈ A, len ≤ item.length) :
    (sendItems len A).Meets (receiveItems A.length len) (.ok ())
      (.ok (A.map (List.take len))) := by
  have hlt : len * A.length % 2 ^ 64 = (A.flatMap (List.take len)).length := by
    rw [length_filled hlen, Nat.mod_eq_of_lt (filled_lt hmemory hlen)]
  have hfill : fillItems len A = .ok (A.flatMap (List.take len)) :=
    fillItems_eq_ok_iff.mpr ⟨hcount, hlen, rfl⟩
  rw [sendItems, hfill, receiveItems, hlt]
  dsimp only
  rw [List.take_length]
  refine (Thread.sendAll_meets _).bind ?_
  rw [cutItems_filled hcount hlen]
  exact .done _ _

/-- The receiver gets what fits the length. -/
theorem sendBytesVector_meets {A : List (List Byte)} {first : List Byte}
    (hmemory : A.flatten.length < 2 ^ 64) (hfirst : itemAt A 0 = .ok first)
    (hcount : A.length < 2 ^ 31) (hlen : ∀ item ∈ A, first.length ≤ item.length) :
    (sendBytesVector A).Meets receiveBytesVector (.ok ())
      (.ok (A.map (List.take first.length))) := by
  have hsize : first.length < 2 ^ 64 := by
    cases A with
    | nil => cases hfirst
    | cons item A =>
        cases hfirst
        rw [List.flatten_cons, List.length_append] at hmemory
        exact lt_of_le_of_lt (Nat.le_add_right ..) hmemory
  rw [sendBytesVector, hfirst]
  refine (sendInteger_meets (hcount.trans (by decide))).bind ?_
  refine (sendInteger_meets hsize).bind ?_
  exact sendItems_meets hmemory hcount hlen

/-- A sender that comes to its end has filled the buffer. -/
theorem fillItems_of_yields {len : ℕ} {A : List (List Byte)}
    (h : (Program.onLine .io (sendItems len A) : PartyProgram _).Yields (.ok ())) :
    A.length < 2 ^ 31 ∧ ∀ item ∈ A, len ≤ item.length := by
  rw [sendItems] at h
  cases hfill : fillItems len A with
  | error e =>
      rw [hfill] at h
      cases h
  | ok buffer =>
      obtain ⟨hcount, hlen, -⟩ := fillItems_eq_ok_iff.mp hfill
      exact ⟨hcount, hlen⟩

theorem sendBytesVector_of_yields {A : List (List Byte)}
    (h : (Program.onLine .io (sendBytesVector A) : PartyProgram _).Yields (.ok ())) :
    ∃ first, itemAt A 0 = .ok first ∧ A.length < 2 ^ 31 ∧
      ∀ item ∈ A, first.length ≤ item.length := by
  rw [sendBytesVector] at h
  cases hfirst : itemAt A 0 with
  | error e =>
      rw [hfirst] at h
      cases h
  | ok first =>
      rw [hfirst] at h
      obtain ⟨hcount, hlen⟩ := fillItems_of_yields h.of_sendAll.of_sendAll
      exact ⟨first, rfl, hcount, hlen⟩

/-- A string that arrives as it was sent has the length: a shorter one would arrive with
a zero behind it. -/
theorem inMemory_take_eq_iff {A : List (List Byte)} {len : ℕ}
    (hlen : ∀ item ∈ inMemory A, len ≤ item.length) :
    (inMemory A).map (List.take len) = A ↔ ∀ str ∈ A, str.length = len := by
  have hcut : (inMemory A).map (List.take len) = A.map fun str => (str ++ [0]).take len := by
    rw [inMemory, List.map_map]
    rfl
  rw [hcut]
  constructor
  · intro h str hstr
    have hmap : A.map (fun str => (str ++ [0]).take len) = A.map id := by rw [h, List.map_id]
    have htake : (str ++ [0]).take len = str := List.map_inj_left.mp hmap str hstr
    have hle : len ≤ (str ++ [0]).length := hlen _ (List.mem_map_of_mem hstr)
    rw [← List.length_take_of_le hle, htake]
  · intro h
    conv_rhs => rw [← List.map_id A]
    apply List.map_congr_left
    intro str hstr
    exact List.take_left' (h str hstr)

theorem sendStringVector_meets {A : List (List Byte)} {len : ℕ}
    (hmemory : (inMemory A).flatten.length < 2 ^ 64) (hcount : A.length < 2 ^ 31)
    (hlen : ∀ item ∈ inMemory A, len ≤ item.length) :
    (sendStringVector A len).Meets (receiveStringVector len) (.ok ())
      (.ok ((inMemory A).map (List.take len))) := by
  have hnum : A.length = (inMemory A).length := (List.length_map ..).symm
  refine (sendInteger_meets (hcount.trans (by decide))).bind ?_
  rw [hnum] at hcount ⊢
  exact sendItems_meets hmemory hcount hlen

theorem sendStringVector_of_yields {A : List (List Byte)} {len : ℕ}
    (h : (Program.onLine .io (sendStringVector A len) : PartyProgram _).Yields (.ok ())) :
    A.length < 2 ^ 31 ∧ ∀ item ∈ inMemory A, len ≤ item.length := by
  obtain ⟨hcount, hlen⟩ := fillItems_of_yields h.of_sendAll
  rw [inMemory, List.length_map] at hcount
  exact ⟨hcount, hlen⟩

/-! ## In any order of steps -/

/-- A sender, which goes on with its vector `A`, and a receiver. -/
def vectorNet (sender : Thread Byte (Except String Unit))
    (receiver : Thread Byte (Except String (List (List Byte)))) (A : List (List Byte)) :
    Net Role Channel Byte (PartyProgram (Except String (List (List Byte)))) :=
  Net.between .receiver (Program.onLine .io receiver) do
    let sent ← Program.onLine .io sender
    return sent.map fun _ => A

/-- Both have the vector, and nothing is left on the connections. -/
def vectorArrived (A : List (List Byte)) :
    Net Role Channel Byte (PartyProgram (Except String (List (List Byte)))) :=
  Net.between .receiver (.done (.ok A)) (.done (.ok A))

section Arrives

variable {sender : Thread Byte (Except String Unit)}
  {receiver : Thread Byte (Except String (List (List Byte)))} {A B : List (List Byte)}
  {room : Role × Channel → ℕ}

theorem sender_yields {n : ℕ}
    (h : EndsIn (Program.Step threadChannel Role.other room) n (vectorNet sender receiver A)
      (vectorArrived A)) : (Program.onLine .io sender : PartyProgram _).Yields (.ok ()) := by
  obtain ⟨ls, hrun, -⟩ := h.2 [] _ (.nil _)
  have hdone : ((vectorArrived A).party .sender).Yields (.ok A) := .done _
  obtain ⟨sent, hsent, hreturn⟩ := (Program.Yields.of_run hrun hdone).of_bind
  cases sent with
  | error e => cases hreturn
  | ok u => exact hsent

variable (hroom : ∀ k, 0 < room k)

include hroom

theorem vectorNet_endsIn (h : sender.Meets receiver (.ok ()) (.ok B)) :
    ∃ n, EndsIn (Program.Step threadChannel Role.other room) n (vectorNet sender receiver A)
      (Net.between .receiver (.done (.ok B)) (.done (.ok A))) := by
  have honline : (Program.onLine .io receiver : PartyProgram _).Meets (Program.onLine .io sender)
      (.ok B) (.ok ()) := Program.Meets.onLine Channel.io h.symm
  exact (honline.convert fun sent => sent.map fun _ => A).endsIn facing_roles hroom
    threadChannel_injective

/-- What arrives is all there is to a meeting. -/
theorem eq_of_arrives {n : ℕ} (h : sender.Meets receiver (.ok ()) (.ok B))
    (harrives : EndsIn (Program.Step threadChannel Role.other room) n
      (vectorNet sender receiver A) (vectorArrived A)) : B = A := by
  obtain ⟨m, hends⟩ := vectorNet_endsIn hroom h
  have hnet := harrives.unique hends
  have hparty := congrArg (fun s => Net.party s Role.receiver) hnet
  cases hparty
  rfl

end Arrives

/-- Two items of two bytes. -/
def twoRows : List (List Byte) := [[1, 2], [3, 4]]

section Vectors

variable {A : List (List Byte)} {room : Role × Channel → ℕ} (hroom : ∀ k, 0 < room k)

include hroom

/-- In any order of steps a vector arrives as it was sent exactly if it has an item, its
items have one length, and an `int` counts them. -/
theorem bytesVector_arrives_iff (hmemory : A.flatten.length < 2 ^ 64) :
    (∃ n, EndsIn (Program.Step threadChannel Role.other room) n
        (vectorNet (sendBytesVector A) receiveBytesVector A) (vectorArrived A)) ↔
      A ≠ [] ∧ A.length < 2 ^ 31 ∧ ∀ item ∈ A, ∀ other ∈ A, item.length = other.length := by
  constructor
  · rintro ⟨n, h⟩
    obtain ⟨first, hfirst, hcount, hlen⟩ := sendBytesVector_of_yields (sender_yields h)
    have heq := eq_of_arrives hroom (sendBytesVector_meets hmemory hfirst hcount hlen) h
    have hsame := (map_take_eq_self_iff hlen).mp heq
    refine ⟨?_, hcount, ?_⟩
    · rintro rfl
      cases hfirst
    · intro item hitem other hother
      rw [hsame item hitem, hsame other hother]
  · rintro ⟨hne, hcount, hsame⟩
    obtain ⟨first, rest, rfl⟩ := List.exists_cons_of_ne_nil hne
    have hlen : ∀ item ∈ first :: rest, item.length = first.length := by
      intro item hitem
      exact hsame item hitem first (List.mem_cons_self ..)
    have hle : ∀ item ∈ first :: rest, first.length ≤ item.length := by
      intro item hitem
      exact (hlen item hitem).ge
    have hmeets := sendBytesVector_meets hmemory rfl hcount hle
    rw [(map_take_eq_self_iff hle).mpr hlen] at hmeets
    exact vectorNet_endsIn hroom hmeets

omit hroom in
/-- Two rows, on connections that hold one byte. -/
theorem bytesVector_arrives_iff_of_two_rows :
    (∃ n, EndsIn (Program.Step threadChannel Role.other fun _ => 1) n
        (vectorNet (sendBytesVector twoRows) receiveBytesVector twoRows)
        (vectorArrived twoRows)) ↔
      twoRows ≠ [] ∧ twoRows.length < 2 ^ 31 ∧
        ∀ item ∈ twoRows, ∀ other ∈ twoRows, item.length = other.length :=
  bytesVector_arrives_iff (fun _ => Nat.one_pos) (by decide)

/-- With the length given, a vector of strings arrives as it was sent exactly if all of
them have it, and an `int` counts them. -/
theorem stringVector_arrives_iff {len : ℕ} (hmemory : (inMemory A).flatten.length < 2 ^ 64) :
    (∃ n, EndsIn (Program.Step threadChannel Role.other room) n
        (vectorNet (sendStringVector A len) (receiveStringVector len) A) (vectorArrived A)) ↔
      A.length < 2 ^ 31 ∧ ∀ str ∈ A, str.length = len := by
  constructor
  · rintro ⟨n, h⟩
    obtain ⟨hcount, hlen⟩ := sendStringVector_of_yields (sender_yields h)
    have heq := eq_of_arrives hroom (sendStringVector_meets hmemory hcount hlen) h
    exact ⟨hcount, (inMemory_take_eq_iff hlen).mp heq⟩
  · rintro ⟨hcount, hsame⟩
    have hlen : ∀ item ∈ inMemory A, len ≤ item.length := by
      intro item hitem
      obtain ⟨str, hstr, rfl⟩ := List.mem_map.mp hitem
      rw [List.length_append, hsame str hstr]
      exact Nat.le_succ len
    have hmeets := sendStringVector_meets hmemory hcount hlen
    rw [(inMemory_take_eq_iff hlen).mpr hsame] at hmeets
    exact vectorNet_endsIn hroom hmeets

omit hroom in
/-- Two strings, on connections that hold one byte. -/
theorem stringVector_arrives_iff_of_two_rows :
    (∃ n, EndsIn (Program.Step threadChannel Role.other fun _ => 1) n
        (vectorNet (sendStringVector twoRows 2) (receiveStringVector 2) twoRows)
        (vectorArrived twoRows)) ↔
      twoRows.length < 2 ^ 31 ∧ ∀ str ∈ twoRows, str.length = 2 :=
  stringVector_arrives_iff (fun _ => Nat.one_pos) (by decide)

end Vectors

end Sectric
