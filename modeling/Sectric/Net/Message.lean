import Sectric.Bytes

/-!
# Messages

A message of a session goes over one of the connections, from one of the two
parties to the other.  An observer of the connection sees its shape: where it
goes, who sends it and how many bytes it has.
-/

namespace Sectric

/-- The two parties of an exchange. -/
inductive Role where
  | receiver
  | sender
  deriving DecidableEq, Repr

/-- `io`, `io2` and `ioArr[i]`. -/
inductive Channel where
  | io
  | io2
  | ioArr (i : ℕ)
  deriving DecidableEq, Repr

structure Message where
  channel : Channel
  source : Role
  payload : List Byte

/-- What an observer sees of a message. -/
def Message.shape (m : Message) : Channel × Role × ℕ := (m.channel, m.source, m.payload.length)

/-- What an observer sees of an exchange. -/
def shapes (messages : List Message) : List (Channel × Role × ℕ) := messages.map Message.shape

@[simp] theorem shapes_nil : shapes [] = [] := rfl

@[simp] theorem shapes_cons (m : Message) (messages : List Message) :
    shapes (m :: messages) = m.shape :: shapes messages := rfl

@[simp] theorem shapes_append (first rest : List Message) :
    shapes (first ++ rest) = shapes first ++ shapes rest := List.map_append ..

/-- Two exchanges that both end and look the same to an observer. -/
def SameShapes (x y : Except String (List Message)) : Prop :=
  ∃ sent sent', x = .ok sent ∧ y = .ok sent' ∧ shapes sent = shapes sent'

theorem SameShapes.append {x x' y y' : Except String (List Message)} (h : SameShapes x y)
    (h' : SameShapes x' y') :
    SameShapes (do return (← x) ++ (← x')) (do return (← y) ++ (← y')) := by
  obtain ⟨sent₁, sent₂, rfl, rfl, hsent⟩ := h
  obtain ⟨sent₁', sent₂', rfl, rfl, hsent'⟩ := h'
  refine ⟨sent₁ ++ sent₁', sent₂ ++ sent₂', rfl, rfl, ?_⟩
  rw [shapes_append, shapes_append, hsent, hsent']

/-! ## Payloads -/

/-- `SendInteger` of a 64-bit number, and `SendBytes(&n, 8)`. -/
def Message.word (channel : Channel) (source : Role) (w : Word) : Message where
  channel := channel
  source := source
  payload := (List.range 8).map fun k => w.extractLsb' (8 * k) 8

@[simp] theorem shape_word (channel : Channel) (source : Role) (w : Word) :
    (Message.word channel source w).shape = (channel, source, 8) := by
  rw [Message.shape, Message.word, List.length_map, List.length_range]

/-- `SendBlocks(data, size)`. -/
def Message.blocks (channel : Channel) (source : Role) (data : List Block) : Message where
  channel := channel
  source := source
  payload := blocksToBytes data

@[simp] theorem shape_blocks (channel : Channel) (source : Role) (data : List Block) :
    (Message.blocks channel source data).shape = (channel, source, data.length * 16) := by
  rw [Message.shape, Message.blocks, length_blocksToBytes]

/-- `send_data(data, size)`. -/
def Message.data (channel : Channel) (source : Role) (data : List Byte) (size : ℕ) : Message where
  channel := channel
  source := source
  payload := data.take size

theorem shape_data {channel : Channel} {source : Role} {data : List Byte} {size : ℕ}
    (h : size ≤ data.length) :
    (Message.data channel source data size).shape = (channel, source, size) := by
  rw [Message.shape, Message.data, List.length_take, Nat.min_eq_left h]

end Sectric
