import Sectric.Triangle.Request

/-!
# Vertex ids over the wire

A vertex id is a 64-bit number.  `sendMessage` sends it as an `int`, and
`startServer` makes an `int` of what it reads and that `int` a key of its map.  So
a table is filed under the sign extension of the low half of the id (`filedId`).
`neighborRequest` looks the table up under the id itself.

Both are the same number exactly for the ids that are an `int`, taken as 64-bit
numbers (`ids_survive_iff`).  Two ids with the same low half share an entry, and
the server waits for one more that never comes.
-/

namespace Sectric

open Lib

/-! ## Where a table is filed -/

/-- The id is the 64-bit form of an `int`. -/
def FitsInt (id : Word) : Prop := id.toNat < 2 ^ 31 ∨ 2 ^ 64 - 2 ^ 31 ≤ id.toNat

instance (id : Word) : Decidable (FitsInt id) := inferInstanceAs (Decidable (_ ∨ _))

theorem filedId_eq (id : Word) : filedId id = (id.setWidth 32).signExtend 64 := by
  rw [filedId, clientKey, ntohl_htonl]

/-- The conversions keep the low half. -/
theorem setWidth_filedId (id : Word) : (filedId id).setWidth 32 = id.setWidth 32 := by
  rw [filedId_eq]
  apply BitVec.eq_of_getLsbD_eq
  intro i hi
  rw [BitVec.getLsbD_setWidth, BitVec.getLsbD_signExtend]
  simp [hi, show i < 64 by omega]

/-- Two tables share an entry exactly if their ids have the same low half. -/
theorem filedId_eq_iff {a b : Word} : filedId a = filedId b ↔ a.setWidth 32 = b.setWidth 32 := by
  constructor
  · intro h
    rw [← setWidth_filedId a, h, setWidth_filedId]
  · intro h
    rw [filedId_eq, h, ← filedId_eq]

/-- What is filed is an `int`. -/
theorem filedId_filedId (id : Word) : filedId (filedId id) = filedId id :=
  filedId_eq_iff.mpr (setWidth_filedId id)

theorem filedId_eq_self_iff {id : Word} : filedId id = id ↔ FitsInt id := by
  have hlow : (id.setWidth 32).toNat = id.toNat % 2 ^ 32 := BitVec.toNat_setWidth ..
  have hlt : id.toNat < 2 ^ 64 := id.isLt
  rw [filedId_eq, ← BitVec.toNat_inj, BitVec.toNat_signExtend, FitsInt, BitVec.toNat_setWidth,
    BitVec.msb_eq_decide, hlow]
  split
  · rename_i hneg
    rw [decide_eq_true_eq] at hneg
    omega
  · rename_i hpos
    rw [decide_eq_true_eq] at hpos
    omega

/-! ## The server's map -/

section Serve

variable {table : Word → List Block} {ids : List Word} {pending : List Conn} {size : ℕ}
  (hbuffer : size * 16 + 4 < 2 ^ 63) (hsize : ∀ id ∈ ids, (table id).length ≤ size)

include hbuffer hsize

/-- A server that is done has collected. -/
theorem Arrivals.collect_of_done (h : Arrivals table ids pending) {recvNum : ℕ}
    {stale : ℕ → BitVec 32} {clientData : AList (fun _ : Word => List Block)} {rest : List Conn}
    (hserver : startServer recvNum size stale pending = .done clientData rest) :
    collect (receiveMessage size) recvNum ∅ pending = some (clientData, rest) := by
  rw [h.startServer_eq hbuffer hsize] at hserver
  cases hcollect : collect (receiveMessage size) recvNum ∅ pending with
  | none =>
      rw [hcollect] at hserver
      cases hserver
  | some answer =>
      rw [hcollect] at hserver
      cases hserver
      rfl

/-- The server has no entry but those its senders are filed under. -/
theorem Arrivals.keys_filed (h : Arrivals table ids pending) {recvNum : ℕ}
    {stale : ℕ → BitVec 32} {clientData : AList (fun _ : Word => List Block)} {rest : List Conn}
    (hserver : startServer recvNum size stale pending = .done clientData rest) {key : Word}
    (hkey : key ∈ clientData.keys) : ∃ id ∈ ids, key = filedId id := by
  have hcollect := h.collect_of_done hbuffer hsize hserver
  rcases mem_keys_of_collect _ _ hcollect hkey with hempty | harrived
  · cases hempty
  · obtain ⟨c, hc, rfl⟩ := List.mem_map.mp harrived
    obtain ⟨id, hid, hcarries⟩ := h.carries c hc
    refine ⟨id, hid, ?_⟩
    rw [receiveMessage_of_carries hcarries (hsize id hid) hbuffer]

/-- An id whose table is found is an `int`. -/
theorem Arrivals.fitsInt_of_lookup (h : Arrivals table ids pending) {recvNum : ℕ}
    {stale : ℕ → BitVec 32} {clientData : AList (fun _ : Word => List Block)} {rest : List Conn}
    (hserver : startServer recvNum size stale pending = .done clientData rest) {id : Word}
    (hfound : clientData.lookup id = some (table id)) : FitsInt id := by
  have hkey : id ∈ clientData.keys := by
    rw [← AList.mem_keys, ← AList.lookup_isSome, hfound]
    rfl
  obtain ⟨other, -, rfl⟩ := h.keys_filed hbuffer hsize hserver hkey
  exact filedId_eq_self_iff.mp (filedId_filedId other)

/-- Whatever the order, the server finds all tables exactly if all ids are an
`int`. -/
theorem Arrivals.tables_found_iff (h : Arrivals table ids pending) (hnodup : ids.Nodup)
    (hne : ids ≠ []) (stale : ℕ → BitVec 32) :
    (∃ clientData rest, startServer ids.length size stale pending = .done clientData rest ∧
      clientData.keys.Perm ids ∧ ∀ id ∈ ids, clientData.lookup id = some (table id)) ↔
    ∀ id ∈ ids, FitsInt id := by
  constructor
  · rintro ⟨clientData, rest, hserver, -, hlookup⟩ id hid
    exact h.fitsInt_of_lookup hbuffer hsize hserver (hlookup id hid)
  · intro hfits
    have hfiled : ∀ id ∈ ids, filedId id = id := fun id hid =>
      filedId_eq_self_iff.mpr (hfits id hid)
    obtain ⟨-, -, rest, clientData, -, hserver, -, -, hkeys, hlookup⟩ :=
      startServer_complete hbuffer hsize hfiled h hnodup hne stale
    exact ⟨clientData, rest, hserver, hkeys, hlookup⟩

/-- The server waits for ever if two of its senders share an entry. -/
theorem Arrivals.waits_of_shared (h : Arrivals table ids pending)
    (hshared : ¬ (ids.map filedId).Nodup) (stale : ℕ → BitVec 32) :
    startServer ids.length size stale pending = .waits := by
  have hserver := h.startServer_eq hbuffer hsize ids.length stale
  cases hcollect : collect (receiveMessage size) ids.length ∅ pending with
  | none =>
      rw [hserver, hcollect]
      rfl
  | some answer =>
      obtain ⟨clientData, rest⟩ := answer
      rw [hcollect] at hserver
      have henough := le_length_of_collect _ _ hcollect
      have hsub : clientData.keys ⊆ ids.map filedId := by
        intro key hkey
        obtain ⟨id, hid, rfl⟩ := h.keys_filed hbuffer hsize hserver hkey
        exact List.mem_map_of_mem hid
      have hperm : clientData.keys.Perm (ids.map filedId) :=
        (List.subperm_of_subset clientData.keys_nodup hsub).perm_of_length_le
          (by rwa [List.length_map])
      exact absurd (hperm.nodup_iff.mp clientData.keys_nodup) hshared

end Serve

/-! ## The trip of the ids -/

/-- The ids of a target's neighbours survive the trip: different ones are filed
apart, each where `neighborRequest` looks it up, and once every neighbour's
message has arrived the server has as many entries as there are neighbours and
every neighbour's table is found. -/
structure IdsSurvive (ids : List Word) : Prop where
  apart : ∀ a ∈ ids, ∀ b ∈ ids, a ≠ b → filedId a ≠ filedId b
  lookedUp : ∀ id ∈ ids, filedId id = (makeBlock 0 id).low
  found : ∀ (table : Word → List Block) (size : ℕ) (stale : ℕ → BitVec 32)
    (pending : List Conn), size * 16 + 4 < 2 ^ 63 → (∀ id ∈ ids, (table id).length ≤ size) →
    Arrivals table ids pending → pending ≠ [] →
      ∃ clientData rest,
        startServer (u64sToBlocks ids).length size stale pending = .done clientData rest ∧
        clientData.keys.length = (u64sToBlocks ids).length ∧
        ∀ b ∈ u64sToBlocks ids, clientData.lookup b.low = some (table b.low)

theorem forall_u64sToBlocks {ids : List Word} {p : Word → Prop} :
    (∀ b ∈ u64sToBlocks ids, p b.low) ↔ ∀ id ∈ ids, p id := by
  rw [u64sToBlocks, List.forall_mem_map]
  simp only [low_makeBlock]

/-- One message of every neighbour. -/
theorem slowConns_arrivals (ids : List Word) : Arrivals idTable ids (ids.map slowConn) where
  carries c hc := by
    obtain ⟨id, hid, rfl⟩ := List.mem_map.mp hc
    exact ⟨id, hid, slowConn_carries id⟩
  cover id hid := ⟨slowConn id, List.mem_map_of_mem hid, slowConn_carries id⟩

/-- Distinct ids survive exactly if all of them are an `int`. -/
theorem ids_survive_iff (ids : List Word) (hnodup : ids.Nodup) :
    IdsSurvive ids ↔ ∀ id ∈ ids, FitsInt id := by
  constructor
  · intro h id hid
    have hlooked := h.lookedUp id hid
    rw [low_makeBlock] at hlooked
    exact filedId_eq_self_iff.mp hlooked
  · intro hfits
    have hfiled : ∀ id ∈ ids, filedId id = id := fun id hid =>
      filedId_eq_self_iff.mpr (hfits id hid)
    constructor
    · intro a ha b hb hne
      rwa [hfiled a ha, hfiled b hb]
    · intro id hid
      rw [hfiled id hid, low_makeBlock]
    · intro table size stale pending hbuffer hsize h hpending
      have hne : ids ≠ [] := by
        rintro rfl
        obtain ⟨c, hc⟩ := List.exists_mem_of_ne_nil pending hpending
        obtain ⟨id, hid, -⟩ := h.carries c hc
        cases hid
      have hlen : (u64sToBlocks ids).length = ids.length := List.length_map ..
      obtain ⟨clientData, rest, hserver, hkeys, hlookup⟩ :=
        (h.tables_found_iff hbuffer hsize hnodup hne stale).mpr hfits
      rw [hlen]
      exact ⟨clientData, rest, hserver, hkeys.length_eq, forall_u64sToBlocks.mpr hlookup⟩

/-- The ids at the two ends of the range. -/
theorem ids_survive_at_ends : IdsSurvive [0x7fffffff, 0xffffffff80000000] :=
  (ids_survive_iff [0x7fffffff, 0xffffffff80000000] (by decide)).mpr (by simp [FitsInt])

/-- The first id past the range is filed under another number, where its table is
not found.  Two ids that differ by `2 ^ 32` are filed under one number, and the
server waits although both messages have come. -/
theorem ids_lost_past_int :
    (¬ IdsSurvive [0x80000000] ∧ filedId 0x80000000 = 0xffffffff80000000 ∧
      Arrivals idTable [0x80000000] [slowConn 0x80000000] ∧
      ∃ clientData, startServer 1 7 (fun _ => 0) [slowConn 0x80000000] = .done clientData [] ∧
        clientData.lookup 0x80000000 = none) ∧
    filedId 1 = filedId 0x100000001 ∧
      Arrivals idTable [1, 0x100000001] [slowConn 1, slowConn 0x100000001] ∧
      startServer 2 7 (fun _ => 0) [slowConn 1, slowConn 0x100000001] = .waits := by
  have hfiled : filedId 0x80000000 = 0xffffffff80000000 := by decide
  have hshared : filedId 1 = filedId 0x100000001 := by decide
  have hone : Arrivals idTable [0x80000000] [slowConn 0x80000000] :=
    slowConns_arrivals [0x80000000]
  have htwo : Arrivals idTable [1, 0x100000001] [slowConn 1, slowConn 0x100000001] :=
    slowConns_arrivals [1, 0x100000001]
  have hcollect : collect (receiveMessage 7) 1 ∅ [slowConn 0x80000000] =
      some ((∅ : AList fun _ : Word => List Block).insert 0xffffffff80000000
        (idTable 0x80000000), []) := by
    rw [collect, receiveMessage_of_carries (slowConn_carries 0x80000000) (by decide : 2 ≤ 7)
      (by decide), hfiled]
    exact if_pos (by decide)
  have hlost : ((∅ : AList fun _ : Word => List Block).insert 0xffffffff80000000
      (idTable 0x80000000)).lookup 0x80000000 = none :=
    AList.lookup_insert_ne (by decide)
  refine ⟨⟨?_, hfiled, hone, _, ?_, hlost⟩, hshared, htwo, ?_⟩
  · intro h
    have hlooked := h.lookedUp 0x80000000 (List.mem_singleton_self _)
    rw [hfiled, low_makeBlock] at hlooked
    exact absurd hlooked (by decide)
  · rw [hone.startServer_eq (by decide) (fun id _ => (by decide : 2 ≤ 7)), hcollect]
    rfl
  · refine htwo.waits_of_shared (by decide) (fun id _ => (by decide : 2 ≤ 7)) ?_ _
    rw [List.map_cons, List.map_cons, hshared]
    simp

end Sectric
