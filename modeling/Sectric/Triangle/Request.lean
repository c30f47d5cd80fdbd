import Sectric.Psi.Store
import Sectric.Triangle.Model

/-!
# The order of arrival does not matter

The server stops with the connection that brings the last missing id, and then
holds one table per id.  The target decodes table `i` at key `j` into cell `j` of
row `i`.  Both depend on which neighbours there are and not on when they come.
-/

namespace Sectric

open Lib

/-- The connections offered to the server: whole messages of the neighbours, each
with its own table, maybe more than once, and every neighbour among them. -/
structure Arrivals (table : Word → List Block) (ids : List Word) (pending : List Conn) :
    Prop where
  carries : ∀ c ∈ pending, ∃ id ∈ ids, c.Carries id (table id)
  cover : ∀ id ∈ ids, ∃ c ∈ pending, c.Carries id (table id)

section Serve

variable {table : Word → List Block} {ids : List Word} {pending : List Conn} {size : ℕ}
  (hbuffer : size * 16 + 4 < 2 ^ 63) (hsize : ∀ id ∈ ids, (table id).length ≤ size)

include hbuffer hsize

/-- Connections that carry tables of the expected size make the server a collector. -/
theorem Arrivals.startServer_eq (h : Arrivals table ids pending) (recvNum : ℕ)
    (stale : ℕ → BitVec 32) :
    startServer recvNum size stale pending =
      .ofCollect (collect (receiveMessage size) recvNum ∅ pending) := by
  refine startServer_eq_collect hbuffer ?_
  intro c hc
  obtain ⟨id, hid, hcarries⟩ := h.carries c hc
  exact ⟨hcarries.wholeHeader, hcarries.inBounds (hsize id hid)⟩

variable (hids : ∀ id ∈ ids, filedId id = id)

include hids

theorem Arrivals.complete (h : Arrivals table ids pending) :
    Complete (receiveMessage size) table ids pending where
  sent c hc := by
    obtain ⟨id, hid, hcarries⟩ := h.carries c hc
    have hreceive := receiveMessage_of_carries hcarries (hsize id hid) hbuffer
    rw [hids id hid] at hreceive
    exact ⟨id, hid, hreceive⟩
  cover id hid := by
    obtain ⟨c, hc, hcarries⟩ := h.cover id hid
    refine List.mem_map.mpr ⟨c, hc, ?_⟩
    rw [receiveMessage_of_carries hcarries (hsize id hid) hbuffer]
    exact hids id hid

/-- The server stops at the first moment all ids have been seen, with one table
per id. -/
theorem startServer_complete (h : Arrivals table ids pending) (hnodup : ids.Nodup)
    (hne : ids ≠ []) (stale : ℕ → BitVec 32) :
    ∃ taken last rest clientData, pending = taken ++ last :: rest ∧
      startServer ids.length size stale pending = .done clientData rest ∧
      (¬ ∀ id ∈ ids, id ∈ keysOf (receiveMessage size) taken) ∧
      (∀ id ∈ ids, id ∈ keysOf (receiveMessage size) (taken ++ [last])) ∧
      clientData.keys.Perm ids ∧ ∀ id ∈ ids, clientData.lookup id = some (table id) := by
  obtain ⟨taken, last, rest, clientData, hsplit, hcollect, hstop⟩ :=
    collect_complete hnodup hne (h.complete hbuffer hsize hids)
  refine ⟨taken, last, rest, clientData, hsplit, ?_, hstop⟩
  rw [h.startServer_eq hbuffer hsize, hcollect]
  rfl

end Serve

/-! ## Decoding -/

section Decode

variable {Seed : Type}

theorem flatten_eq (vec2D : List (List Block)) : flatten vec2D = vec2D.flatten := by
  have hloop : ∀ (rows : List (List Block)) (vec1D : List Block),
      rows.foldl (fun vec1D row => vec1D ++ row) vec1D = vec1D ++ rows.flatten := by
    intro rows
    induction rows with
    | nil =>
        intro vec1D
        rw [List.foldl_nil, List.flatten_nil, List.append_nil]
    | cons row rows ih =>
        intro vec1D
        rw [List.foldl_cons, ih, List.flatten_cons, List.append_assoc]
  exact hloop vec2D []

/-- Decoding overwrites the cells that have a key. -/
theorem decodeInto_eq (okvs : Baxos Seed) (prg : Prg Seed) (seed : Seed) {keys : List Block}
    {n : ℕ} (table : List Block) (hlen : keys.length ≤ n) :
    okvs.decodeInto keys (prg.genRandomBlocks seed n) table =
      .ok ((List.range n).map fun j =>
        if j < keys.length then okvs.decodeKey table (keys.getD j 0) else prg.block seed j) := by
  rw [Baxos.decodeInto, Prg.length_genRandomBlocks, if_neg (not_lt.mpr hlen)]
  congr 1
  apply List.ext_getElem?
  intro j
  rw [Baxos.decode, List.getElem?_mapIdx, Prg.genRandomBlocks, List.getElem?_map,
    List.getElem?_map]
  rcases Nat.lt_or_ge j n with hj | hj
  · rw [List.getElem?_range hj, Option.map_some, Option.map_some, Option.map_some]
    split
    · rename_i hkey
      rw [List.getElem?_eq_getElem hkey, List.getD_eq_getElem _ _ hkey]
      rfl
    · rename_i hkey
      rw [List.getElem?_eq_none (not_lt.mp hkey)]
      rfl
  · have hnone : (List.range n)[j]? = none := List.getElem?_eq_none (by rwa [List.length_range])
    rw [hnone]
    rfl

/-- Cell `j` of row `i` of the target's result. -/
def requestCell (okvs : Baxos Seed) (prg : Prg Seed) (seeds : ℕ → Seed)
    (table : Word → List Block) (neighbors : List Block) (i j : ℕ) : Block :=
  if j < neighbors.length then
    okvs.decodeKey (table (neighbors.getD i 0).low) (neighbors.getD j 0)
  else prg.block (seeds i) j

/-- The target's result. -/
theorem neighborRequest_eq {cfg : PsiConfig} {baxos : ℕ → ℕ → Baxos Seed} {prg : Prg Seed}
    {seeds : ℕ → Seed} {stale : ℕ → BitVec 32} {neighbors : List Block} {pending : List Conn}
    {table : Word → List Block} {clientData : AList (fun _ : Word => List Block)}
    {rest : List Conn} (hdegree : neighbors.length ≤ cfg.maxDegree)
    (hserver : startServer neighbors.length (degreeBaxos cfg baxos).outputSize stale pending =
      .done clientData rest)
    (hlookup : ∀ b ∈ neighbors, clientData.lookup b.low = some (table b.low)) :
    neighborRequest cfg baxos prg seeds stale neighbors pending =
      some (.ok (rowMajor neighbors.length cfg.maxDegree
        (requestCell (degreeBaxos cfg baxos) prg seeds table neighbors))) := by
  have hrow : ∀ i ∈ List.range neighbors.length,
      (degreeBaxos cfg baxos).decodeInto neighbors (prg.genRandomBlocks (seeds i) cfg.maxDegree)
          ((neighbors.map fun b => (clientData.lookup b.low).getD []).getD i []) =
        .ok ((List.range cfg.maxDegree).map
          (requestCell (degreeBaxos cfg baxos) prg seeds table neighbors i)) := by
    intro i hi
    have hi : i < neighbors.length := List.mem_range.mp hi
    have hb : neighbors.getD i 0 = neighbors[i] := List.getD_eq_getElem _ _ hi
    have htable : (neighbors.map fun b => (clientData.lookup b.low).getD []).getD i [] =
        table (neighbors.getD i 0).low := by
      rw [getD_map_of_getElem? _ _ (List.getElem?_eq_getElem hi), hlookup _ (List.getElem_mem hi),
        hb]
      rfl
    rw [htable, decodeInto_eq _ _ _ _ hdegree]
    rfl
  rw [neighborRequest, hserver]
  show some (List.mapM _ (List.range neighbors.length) >>= _) = _
  rw [mapM_eq_ok hrow]
  show some (Except.ok (flatten _)) = _
  rw [flatten_eq, ← List.flatMap_def]
  rfl

/-! ## The main result -/

section Order

variable (cfg : PsiConfig) (baxos : ℕ → ℕ → Baxos Seed) (prg : Prg Seed) (neighbors : List Block)
  (table : Word → List Block)

/-- The ids of the target's neighbours. -/
def neighborIds (neighbors : List Block) : List Word := neighbors.map Block.low

variable (hne : neighbors ≠ []) (hdegree : neighbors.length ≤ cfg.maxDegree)
  (hnodup : (neighborIds neighbors).Nodup) (hids : ∀ id ∈ neighborIds neighbors, id.toNat < 2 ^ 31)
  (hbuffer : (degreeBaxos cfg baxos).outputSize * 16 + 4 < 2 ^ 63)
  (hsize : ∀ id ∈ neighborIds neighbors,
    (table id).length ≤ (degreeBaxos cfg baxos).outputSize)

include hne hdegree hnodup hids hbuffer hsize

/-- A request is answered, with the server stopping when it has all tables. -/
theorem neighborRequest_ok {pending : List Conn}
    (h : Arrivals table (neighborIds neighbors) pending) (seeds : ℕ → Seed)
    (stale : ℕ → BitVec 32) :
    ∃ taken last rest clientData, pending = taken ++ last :: rest ∧
      startServer neighbors.length (degreeBaxos cfg baxos).outputSize stale pending =
        .done clientData rest ∧
      (¬ ∀ id ∈ neighborIds neighbors,
        id ∈ keysOf (receiveMessage (degreeBaxos cfg baxos).outputSize) taken) ∧
      (∀ id ∈ neighborIds neighbors,
        id ∈ keysOf (receiveMessage (degreeBaxos cfg baxos).outputSize) (taken ++ [last])) ∧
      clientData.keys.Perm (neighborIds neighbors) ∧
      neighborRequest cfg baxos prg seeds stale neighbors pending =
        some (.ok (rowMajor neighbors.length cfg.maxDegree
          (requestCell (degreeBaxos cfg baxos) prg seeds table neighbors))) := by
  have hlen : (neighborIds neighbors).length = neighbors.length := List.length_map ..
  have hids_ne : neighborIds neighbors ≠ [] := by
    intro hnil
    exact hne (List.map_eq_nil_iff.mp hnil)
  obtain ⟨taken, last, rest, clientData, rfl, hserver, hlack, hfull, hkeys, hlookup⟩ :=
    startServer_complete hbuffer hsize (fun id hid => clientKey_htonl (hids id hid)) h hnodup
      hids_ne stale
  rw [hlen] at hserver
  refine ⟨taken, last, rest, clientData, rfl, hserver, hlack, hfull, hkeys, ?_⟩
  refine neighborRequest_eq hdegree hserver ?_
  intro b hb
  exact hlookup b.low (List.mem_map_of_mem hb)

/-- The server stops at the first moment all ids have been seen and keeps one
table per id.  Cell `j` of row `i` of the result is table `i` decoded at key `j`,
so it is the same for every order of arrival.  The other cells of a row are the
row's own random blocks. -/
theorem neighborRequest_order_independent :
    (∀ pending seeds stale, Arrivals table (neighborIds neighbors) pending →
      ∃ taken last rest clientData flat, pending = taken ++ last :: rest ∧
        startServer neighbors.length (degreeBaxos cfg baxos).outputSize stale pending =
          .done clientData rest ∧
        (¬ ∀ id ∈ neighborIds neighbors,
          id ∈ keysOf (receiveMessage (degreeBaxos cfg baxos).outputSize) taken) ∧
        (∀ id ∈ neighborIds neighbors,
          id ∈ keysOf (receiveMessage (degreeBaxos cfg baxos).outputSize) (taken ++ [last])) ∧
        clientData.keys.Perm (neighborIds neighbors) ∧
        neighborRequest cfg baxos prg seeds stale neighbors pending = some (.ok flat) ∧
        (∀ i (hi : i < neighbors.length) j (hj : j < neighbors.length),
          flat[i * cfg.maxDegree + j]? =
            some ((degreeBaxos cfg baxos).decodeKey (table neighbors[i].low) neighbors[j])) ∧
        ∀ i < neighbors.length, ∀ j, neighbors.length ≤ j → j < cfg.maxDegree →
          flat[i * cfg.maxDegree + j]? =
            (prg.genRandomBlocks (seeds i) cfg.maxDegree)[j]?) ∧
    ∀ pending pending' seeds seeds' stale stale' flat flat',
      Arrivals table (neighborIds neighbors) pending →
      Arrivals table (neighborIds neighbors) pending' →
      neighborRequest cfg baxos prg seeds stale neighbors pending = some (.ok flat) →
      neighborRequest cfg baxos prg seeds' stale' neighbors pending' = some (.ok flat') →
      ∀ i < neighbors.length, ∀ j < neighbors.length,
        flat[i * cfg.maxDegree + j]? = flat'[i * cfg.maxDegree + j]? := by
  have hok := fun (pending : List Conn) (seeds : ℕ → Seed) (stale : ℕ → BitVec 32)
      (h : Arrivals table (neighborIds neighbors) pending) =>
    neighborRequest_ok cfg baxos prg neighbors table hne hdegree hnodup hids hbuffer hsize h seeds
      stale
  -- a cell with a key, whatever the random blocks
  have hcell : ∀ seeds i, i < neighbors.length → ∀ j, j < neighbors.length →
      (rowMajor neighbors.length cfg.maxDegree
        (requestCell (degreeBaxos cfg baxos) prg seeds table neighbors))[i * cfg.maxDegree + j]? =
        some ((degreeBaxos cfg baxos).decodeKey (table (neighbors.getD i 0).low)
          (neighbors.getD j 0)) := by
    intro seeds i hi j hj
    rw [getElem?_rowMajor _ _ (lt_of_lt_of_le hj hdegree) hi, requestCell, if_pos hj]
  have hgetD : ∀ i (hi : i < neighbors.length), neighbors.getD i 0 = neighbors[i] :=
    fun i hi => List.getD_eq_getElem _ _ hi
  refine ⟨?_, ?_⟩
  · intro pending seeds stale h
    obtain ⟨taken, last, rest, clientData, hsplit, hserver, hlack, hfull, hkeys, hrequest⟩ :=
      hok pending seeds stale h
    refine ⟨taken, last, rest, clientData, _, hsplit, hserver, hlack, hfull, hkeys, hrequest,
      ?_, ?_⟩
    · intro i hi j hj
      rw [hcell seeds i hi j hj, hgetD i hi, hgetD j hj]
    · intro i hi j hge hj
      rw [getElem?_rowMajor _ _ hj hi, requestCell, if_neg (not_lt.mpr hge), Prg.genRandomBlocks,
        List.getElem?_map, List.getElem?_range hj]
      rfl
  · intro pending pending' seeds seeds' stale stale' flat flat' h h' hflat hflat' i hi j hj
    obtain ⟨-, -, -, -, -, -, -, -, -, hrequest⟩ := hok pending seeds stale h
    obtain ⟨-, -, -, -, -, -, -, -, -, hrequest'⟩ := hok pending' seeds' stale' h'
    rw [hflat, Option.some.injEq, Except.ok.injEq] at hrequest
    rw [hflat', Option.some.injEq, Except.ok.injEq] at hrequest'
    rw [hrequest, hrequest', hcell seeds i hi j hj, hcell seeds' i hi j hj]

end Order

end Decode

/-! ## Instances -/

/-- Degrees up to a bound. -/
def degreeConfig (maxDegree : ℕ) : PsiConfig where
  maxDegree := maxDegree
  numVertex := 4
  nfuns := 3

/-- A table of one key and one value. -/
def idTable (id : Word) : List Block := [makeBlock 0 1, makeBlock 0 id]

/-- A message that arrives four bytes at a time. -/
def slowConn (id : Word) : Conn where
  bytes := sendMessage id (idTable id)
  grain _ := 3

theorem slowConn_carries (id : Word) : (slowConn id).Carries id (idTable id) :=
  ⟨rfl, le_rfl, show 16 * 2 < 2 ^ 31 by decide⟩

/-- The second neighbour's message comes first, and twice. -/
theorem slowConn_arrivals : Arrivals idTable [1, 2] [slowConn 2, slowConn 2, slowConn 1] where
  carries c hc := by
    have hconn : c = slowConn 2 ∨ c = slowConn 1 := by simpa using hc
    rcases hconn with rfl | rfl
    · exact ⟨2, by simp, slowConn_carries 2⟩
    · exact ⟨1, by simp, slowConn_carries 1⟩
  cover id hid := by
    have hid : id = 1 ∨ id = 2 := by simpa using hid
    rcases hid with rfl | rfl
    · exact ⟨slowConn 1, by simp, slowConn_carries 1⟩
    · exact ⟨slowConn 2, by simp, slowConn_carries 2⟩

theorem neighborRequest_order_independent_on_slowConns :
    ∃ flat, neighborRequest (degreeConfig 3) (fun n _ => pairStore n) countingPrg
        (fun i => BitVec.ofNat 128 i) (fun _ => 0) [1, 2]
          [slowConn 2, slowConn 2, slowConn 1] = some (.ok flat) ∧
      flat[0 * 3 + 1]? = some ((pairStore 3).decodeKey (idTable 1) 2) := by
  have hlow : neighborIds [1, 2] = [1, 2] := by decide
  have hids : ∀ id ∈ neighborIds [1, 2], id.toNat < 2 ^ 31 := by
    rw [hlow]
    simp
  obtain ⟨hanswer, -⟩ := neighborRequest_order_independent (degreeConfig 3)
    (fun n _ => pairStore n) countingPrg [1, 2] idTable (by simp) (by decide) (by decide) hids
    (by decide) (fun id _ => by show 2 ≤ 7; decide)
  obtain ⟨-, -, -, -, flat, -, -, -, -, -, hflat, hcell, -⟩ :=
    hanswer [slowConn 2, slowConn 2, slowConn 1] (fun i => BitVec.ofNat 128 i) (fun _ => 0)
      (hlow ▸ slowConn_arrivals)
  exact ⟨flat, hflat, hcell 0 (by decide) 1 (by decide)⟩

/-- A message whose id arrives in two pieces. -/
def splitConn (id : Word) : Conn where
  bytes := sendMessage id (idTable id)
  grain _ := 1

/-- A message with a table of `n` blocks. -/
def longConn (n : ℕ) (id : Word) : Conn where
  bytes := sendMessage id (List.replicate n 0)
  grain _ := 1499

/-- From `2 ^ 27` blocks on an `int` does not count their bytes. -/
theorem startServer_longConn {n : ℕ} (hlong : 2 ^ 27 ≤ n) (hn : n < 2 ^ 58) (recvNum : ℕ)
    (stale : ℕ → BitVec 32) (id : Word) (pending : List Conn) :
    startServer recvNum n stale (longConn n id :: pending) = .undefined := by
  refine startServer_undefined (by omega) ?_
  have hleft : (longConn n id).left.length = n * 16 := by
    rw [Conn.length_left, longConn, length_sendMessage, List.length_replicate]
    exact Nat.add_sub_cancel_left ..
  rw [serverRead_inBounds, hleft]
  omega

/-- Without neighbours the server waits for a connection all the same.  With more
neighbours than the degree bound the target decodes past the end of a row.  A
message whose id comes in two pieces leaves two bytes too many for the copy, and the
bytes of a table of `2 ^ 27` blocks are more than an `int` counts. -/
theorem neighborRequest_fails_out_of_bounds :
    (Arrivals idTable [] [] ∧
      startServer 0 (degreeBaxos (degreeConfig 3) fun n _ => pairStore n).outputSize (fun _ => 0)
        [] = .waits ∧
      neighborRequest (degreeConfig 3) (fun n _ => pairStore n) countingPrg
        (fun i => BitVec.ofNat 128 i) (fun _ => 0) [] [] = none) ∧
    (Arrivals idTable [1, 2] [slowConn 2, slowConn 2, slowConn 1] ∧
      neighborRequest (degreeConfig 1) (fun n _ => pairStore n) countingPrg
        (fun i => BitVec.ofNat 128 i) (fun _ => 0) [1, 2]
          [slowConn 2, slowConn 2, slowConn 1] =
            some (.error "write past the end of the output")) ∧
    ((splitConn 1).bytes = sendMessage 1 (idTable 1) ∧
      startServer 1 (degreeBaxos (degreeConfig 3) fun n _ => pairStore n).outputSize (fun _ => 0)
        [splitConn 1] = .undefined) ∧
    (longConn (2 ^ 27) 1).bytes = sendMessage 1 (List.replicate (2 ^ 27) 0) ∧
      startServer 1 (2 ^ 27) (fun _ => 0) [longConn (2 ^ 27) 1] = .undefined := by
  refine ⟨⟨⟨by simp, by simp⟩, rfl, rfl⟩, ⟨slowConn_arrivals, ?_⟩, ⟨rfl, ?_⟩, rfl, ?_⟩
  · decide +kernel
  · exact startServer_undefined (by decide) (by decide +kernel)
  · exact startServer_longConn le_rfl (by decide) ..

end Sectric
