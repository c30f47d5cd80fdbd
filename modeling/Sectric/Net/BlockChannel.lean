import Sectric.Bytes
import Sectric.Lib.Pipe

/-!
# A channel of received blocks

The receiver thread appends the blocks that come in for a channel to its queue.  A call
of `blocking_receive` with a buffer and a size takes bytes off the queue: a block that
fits, the front of one that is too long, whose rest stays, or one that is too short,
and then more, by calling itself.  A call without a size takes the next block whole.
Every call waits while the queue is empty.  The thread may append between any two of
these steps.

Read as bytes, the channel is a pipe (`BlockChannel.refines`).  So what the calls with
a size return is the bytes in order, cut into the sizes asked for.  Neither how the
bytes were cut into blocks nor when these came shows (`blockingReceive_pieces`).
-/

namespace Sectric

open Lib

/-! ## The model -/

/-- `channel`.  A call under way has filled a part of its buffer and wants more.  The
last member records what the calls have returned. -/
structure BlockChannel where
  /-- `m_qRcvedBlocks`. -/
  queue : List (List Byte)
  /-- `m_eFin` is set. -/
  fin : Bool
  receiving : Option (List Byte × ℕ)
  returned : List (List Byte)

/-- What happens next. -/
inductive ChannelEvent
  | arrive (block : List Byte)
  | finish
  | call (rcvsize : ℕ)
  | take
  | callWhole

namespace BlockChannel

/-- The channel at its start. -/
def start : BlockChannel := ⟨[], false, none, []⟩

/-- `blocking_receive(rcvbuf, rcvsize)` with the lock, on the front block. -/
def takeBlock (c : BlockChannel) (got : List Byte) (rcvsize : ℕ) (front : List Byte)
    (rest : List (List Byte)) : BlockChannel :=
  if front.length = rcvsize then
    { c with queue := rest, receiving := none, returned := c.returned ++ [got ++ front] }
  else if rcvsize < front.length then
    { c with queue := front.drop rcvsize :: rest, receiving := none,
             returned := c.returned ++ [got ++ front.take rcvsize] }
  else
    { c with queue := rest, receiving := some (got ++ front, rcvsize - front.length) }

/-- A step of the receiver thread or of the caller.  The thread appends nothing after
the end is signalled. -/
def step (c : BlockChannel) : ChannelEvent → Option BlockChannel
  | .arrive block => if c.fin then none else some { c with queue := c.queue ++ [block] }
  | .finish => some { c with fin := true }
  | .call rcvsize =>
      match c.receiving with
      | none => some { c with receiving := some ([], rcvsize) }
      | some _ => none
  | .take =>
      match c.receiving, c.queue with
      | some (got, rcvsize), front :: rest => some (c.takeBlock got rcvsize front rest)
      | some _, [] => none
      | none, _ => none
  | .callWhole =>
      match c.receiving, c.queue with
      | none, front :: rest => some { c with queue := rest, returned := c.returned ++ [front] }
      | none, [] => none
      | some _, _ => none

/-- The steps of a channel. -/
def Step (c : BlockChannel) (e : ChannelEvent) (d : BlockChannel) : Prop := c.step e = some d

/-- `is_alive`. -/
def isAlive (c : BlockChannel) : Bool := !(c.queue.isEmpty && c.fin)

/-- The bytes that have arrived. -/
def arrived (es : List ChannelEvent) : List Byte :=
  es.flatMap fun
    | .arrive block => block
    | .finish | .call _ | .take | .callWhole => []

/-- The sizes asked for. -/
def sizes (es : List ChannelEvent) : List ℕ :=
  es.filterMap fun
    | .call rcvsize => some rcvsize
    | .arrive _ | .finish | .take | .callWhole => none

theorem arrived_cons (e : ChannelEvent) (es : List ChannelEvent) :
    arrived (e :: es) = arrived [e] ++ arrived es := by
  simp [arrived]

theorem sizes_cons (e : ChannelEvent) (es : List ChannelEvent) :
    sizes (e :: es) = sizes [e] ++ sizes es := by
  rw [← List.singleton_append, sizes, List.filterMap_append]
  rfl

/-! ## The channel is a pipe -/

/-- What a call has in its buffer. -/
def got (c : BlockChannel) : List Byte := (c.receiving.map Prod.fst).getD []

/-- The channel read as bytes.  What a call has in its buffer is not read yet. -/
def pipe (c : BlockChannel) : Pipe Byte where
  unread := c.got ++ c.queue.flatten
  asked := c.receiving.map fun r => r.1.length + r.2
  returned := c.returned

/-- The front block decides whether the call returns. -/
theorem takeBlock_pipe {c : BlockChannel} {got : List Byte} {rcvsize : ℕ} {front : List Byte}
    {rest : List (List Byte)} (hreceiving : c.receiving = some (got, rcvsize))
    (hqueue : c.queue = front :: rest) :
    if rcvsize ≤ front.length then
      c.pipe.step .answer = some (c.takeBlock got rcvsize front rest).pipe
    else (c.takeBlock got rcvsize front rest).pipe = c.pipe := by
  have hpipe : c.pipe = ⟨got ++ (front ++ rest.flatten), some (got.length + rcvsize),
      c.returned⟩ := by
    rw [pipe, BlockChannel.got, hreceiving, hqueue]
    rfl
  split
  · rename_i hle
    have htake : (got ++ (front ++ rest.flatten)).take (got.length + rcvsize) =
        got ++ front.take rcvsize := by
      rw [List.take_length_add_append, List.take_append_of_le_length hle]
    have hdrop : (got ++ (front ++ rest.flatten)).drop (got.length + rcvsize) =
        front.drop rcvsize ++ rest.flatten := by
      rw [List.drop_length_add_append, List.drop_append_of_le_length hle]
    have hroom : got.length + rcvsize ≤ (got ++ (front ++ rest.flatten)).length := by
      simp only [List.length_append]
      omega
    rw [hpipe, Pipe.step_answer rfl hroom, htake, hdrop, takeBlock]
    split
    · rename_i heq
      rw [← heq, List.take_length, List.drop_length]
      rfl
    · rename_i hne
      rw [if_pos (by omega)]
      rfl
  · rename_i hgt
    rw [hpipe, takeBlock, if_neg (by omega), if_neg (by omega), pipe, BlockChannel.got]
    simp only [Option.map_some, Option.getD_some, List.length_append, List.append_assoc]
    congr 2
    omega

/-- A step of the channel is one of the pipe, or two, or none. -/
theorem step_refines {c d : BlockChannel} {e : ChannelEvent} (h : Step c e d) :
    ∃ es, Run Pipe.Step c.pipe es d.pipe ∧ Pipe.written es = arrived [e] ∧
      (e ≠ .callWhole → Pipe.sizes es = sizes [e]) := by
  cases e with
  | arrive block =>
      obtain ⟨-, hd⟩ := Option.ite_none_left_eq_some.mp h
      obtain rfl := Option.some.inj hd
      refine ⟨[.write block], .cons ?_ (.nil _), rfl, fun _ => rfl⟩
      simp [Pipe.Step, Pipe.step, pipe, got]
  | finish =>
      obtain rfl := Option.some.inj h
      exact ⟨[], .nil _, rfl, fun _ => rfl⟩
  | call rcvsize =>
      rw [Step, step] at h
      split at h
      · rename_i hidle
        obtain rfl := Option.some.inj h
        refine ⟨[.ask rcvsize], .cons ?_ (.nil _), rfl, fun _ => rfl⟩
        simp [Pipe.Step, Pipe.step, pipe, got, hidle]
      · cases h
  | take =>
      rw [Step, step] at h
      split at h
      · rename_i buf rcvsize front rest hreceiving hqueue
        obtain rfl := Option.some.inj h
        have hpipe := takeBlock_pipe hreceiving hqueue
        split at hpipe
        · exact ⟨[.answer], .cons hpipe (.nil _), rfl, fun _ => rfl⟩
        · refine ⟨[], ?_, rfl, fun _ => rfl⟩
          rw [hpipe]
          exact .nil _
      · cases h
      · cases h
  | callWhole =>
      rw [Step, step] at h
      split at h
      · rename_i front rest hidle hqueue
        obtain rfl := Option.some.inj h
        refine ⟨[.ask front.length, .answer],
          .cons (t := { c.pipe with asked := some front.length }) ?_ (.cons ?_ (.nil _)), rfl,
          fun hne => absurd rfl hne⟩
        · simp [Pipe.Step, Pipe.step, pipe, hidle]
        · simp [Pipe.Step, Pipe.step, pipe, got, hidle, hqueue]
      · cases h
      · cases h

/-- A run of the channel is one of the pipe, with the same bytes, and the same sizes
where no block is taken whole. -/
theorem refines {c d : BlockChannel} {es : List ChannelEvent} (h : Run Step c es d) :
    ∃ es', Run Pipe.Step c.pipe es' d.pipe ∧ Pipe.written es' = arrived es ∧
      ((∀ e ∈ es, e ≠ .callWhole) → Pipe.sizes es' = sizes es) := by
  induction h with
  | nil c => exact ⟨[], .nil _, rfl, fun _ => rfl⟩
  | @cons c c' d e es first _ ih =>
      obtain ⟨es₁, hfirst, hwritten₁, hsizes₁⟩ := step_refines first
      obtain ⟨es₂, hrest, hwritten₂, hsizes₂⟩ := ih
      refine ⟨es₁ ++ es₂, hfirst.append hrest, ?_, ?_⟩
      · rw [Pipe.written_append, hwritten₁, hwritten₂, ← arrived_cons]
      · intro hno
        rw [Pipe.sizes_append, hsizes₁ (hno e (List.mem_cons_self ..)),
          hsizes₂ fun e' he' => hno e' (List.mem_cons_of_mem _ he'), ← sizes_cons]

/-- When the channel is not alive the calls have had all bytes. -/
theorem pipe_unread_of_dead {c : BlockChannel} (h : c.isAlive = false) : c.pipe.unread = c.got := by
  have hqueue : c.queue = [] := by
    rw [isAlive, Bool.not_eq_false', Bool.and_eq_true, List.isEmpty_iff] at h
    exact h.1
  rw [pipe, hqueue, List.flatten_nil, List.append_nil]

/-- A call under way returns from what is there after so many blocks, or the blocks run
out. -/
theorem takes_of_enough : ∀ (queue : List (List Byte)) {c : BlockChannel} {got : List Byte} {n : ℕ},
    c.queue = queue → c.receiving = some (got, n) → queue ≠ [] → n ≤ queue.flatten.length →
    ∃ k d, Run Step c (List.replicate k .take) d ∧ d.receiving = none
  | [], c, got, n, _, _, hne, _ => absurd rfl hne
  | front :: rest, c, got, n, hqueue, hreceiving, _, hle => by
      have htake : Step c .take (c.takeBlock got n front rest) := by
        simp only [Step, step, hreceiving, hqueue]
      rw [List.flatten_cons, List.length_append] at hle
      by_cases hfront : n ≤ front.length
      · refine ⟨1, _, .cons htake (.nil _), ?_⟩
        rw [takeBlock]
        split
        · rfl
        · rw [if_pos (by omega)]
      · have hshort : c.takeBlock got n front rest =
            { c with queue := rest, receiving := some (got ++ front, n - front.length) } := by
          rw [takeBlock, if_neg (by omega), if_neg (by omega)]
        have hrest : rest ≠ [] := by
          rintro rfl
          rw [List.flatten_nil, List.length_nil] at hle
          omega
        obtain ⟨c', hc', hqueue', hreceiving'⟩ : ∃ c', c.takeBlock got n front rest = c' ∧
            c'.queue = rest ∧ c'.receiving = some (got ++ front, n - front.length) :=
          ⟨_, hshort, rfl, rfl⟩
        rw [hc'] at htake
        obtain ⟨k, d, hrun, hd⟩ := takes_of_enough rest hqueue' hreceiving' hrest (by omega)
        exact ⟨k + 1, d, .cons htake hrun, hd⟩

/-- And only then. -/
theorem enough_of_takes {c d : BlockChannel} {k : ℕ} {got : List Byte} {n : ℕ}
    (hrun : Run Step c (List.replicate k .take) d) (hd : d.receiving = none)
    (hreceiving : c.receiving = some (got, n)) :
    c.queue ≠ [] ∧ n ≤ c.queue.flatten.length := by
  induction k generalizing c got n with
  | zero =>
      cases hrun with
      | nil =>
          rw [hreceiving] at hd
          cases hd
  | succ k ih =>
      rw [List.replicate_succ] at hrun
      cases hrun with
      | cons first rest =>
          cases hqueue : c.queue with
          | nil =>
              simp [Step, step, hreceiving, hqueue] at first
          | cons front queue =>
              simp only [Step, step, hreceiving, hqueue, Option.some.injEq] at first
              refine ⟨List.cons_ne_nil _ _, ?_⟩
              rw [List.flatten_cons, List.length_append]
              by_cases hfront : n ≤ front.length
              · omega
              · rw [takeBlock, if_neg (by omega), if_neg (by omega)] at first
                subst first
                have hle : n - front.length ≤ queue.flatten.length := (ih rest rfl).2
                omega

end BlockChannel

open BlockChannel

/-- In every run of the receiver thread and the calls with a size, what the calls return
is the bytes that have arrived, in order, cut into the sizes asked for; at most the last
call has not returned; and when the channel is not alive the calls have had all bytes. -/
theorem blockingReceive_pieces {es : List ChannelEvent} {c : BlockChannel}
    (h : Run Step start es c) (hno : ∀ e ∈ es, e ≠ .callWhole) :
    c.returned = ((sizes es).take c.returned.length).splitLengths (arrived es) ∧
      (sizes es).length = c.returned.length + (if c.receiving.isSome then 1 else 0) ∧
      (c.isAlive = false → c.returned.flatten ++ c.got = arrived es) := by
  obtain ⟨es', hrun, hwritten, hsizes⟩ := refines h
  have hpieces := Pipe.returned_eq hrun
  obtain ⟨hcells, hlens⟩ := Pipe.run_conserves hrun
  rw [hwritten] at hpieces hcells
  rw [hsizes hno] at hpieces hlens
  refine ⟨hpieces, ?_, ?_⟩
  · have hcount := congrArg List.length hlens
    simp only [List.length_append, List.length_map] at hcount
    have hstart : start.pipe.returned.length = 0 ∧ start.pipe.asked.toList.length = 0 := ⟨rfl, rfl⟩
    have hasked : c.pipe.asked.toList.length = if c.receiving.isSome then 1 else 0 := by
      cases hreceiving : c.receiving with
      | none => simp [pipe, hreceiving]
      | some r => simp [pipe, hreceiving]
    have hreturned : c.pipe.returned = c.returned := rfl
    rw [hreturned] at hcount
    omega
  · intro hdead
    rw [pipe_unread_of_dead hdead] at hcells
    exact hcells

/-- One byte and two bytes are asked for.  The second block comes when the second call
has half of what it wants. -/
theorem blockingReceive_pieces_of_two_calls :
    ∃ c, Run Step start [.arrive [1, 2], .call 1, .take, .call 2, .take, .arrive [3], .take] c ∧
      c.returned = [1, 2].splitLengths [1, 2, 3] := by
  have hrun : Run Step start [.arrive [1, 2], .call 1, .take, .call 2, .take, .arrive [3], .take]
      ⟨[], false, none, [[1], [2, 3]]⟩ :=
    .cons rfl (.cons rfl (.cons rfl (.cons rfl (.cons rfl (.cons rfl (.cons rfl (.nil _)))))))
  obtain ⟨hpieces, -, -⟩ := blockingReceive_pieces hrun (by simp)
  exact ⟨_, hrun, hpieces⟩

/-- A call returns without another block exactly if there is a block and the blocks have
enough bytes.  So a call of size zero waits for a block too. -/
theorem call_returns_iff {c : BlockChannel} {got : List Byte} {n : ℕ}
    (hreceiving : c.receiving = some (got, n)) :
    (∃ k d, Run Step c (List.replicate k .take) d ∧ d.receiving = none) ↔
      c.queue ≠ [] ∧ n ≤ c.queue.flatten.length := by
  constructor
  · rintro ⟨k, d, hrun, hd⟩
    exact enough_of_takes hrun hd hreceiving
  · rintro ⟨hne, hle⟩
    exact takes_of_enough c.queue rfl hreceiving hne hle

theorem call_returns_iff_of_two_blocks :
    ∃ k d, Run Step ⟨[[1, 2], [3]], false, some ([], 3), []⟩ (List.replicate k .take) d ∧
      d.receiving = none :=
  (call_returns_iff rfl).mpr ⟨by simp, by decide⟩

end Sectric
