import Sectric.Equality.Traffic
import Sectric.Lib.Loop
import Sectric.Net.Channels
import Mathlib.Tactic

/-!
# What a party says it has sent

`ResetCommunication` notes the counters of the SCI channels,
`AccumulateCommunicationPSI` adds up how far they have come and swaps the sums
with the other party: the server sends first, the client receives first.  Both
loop over two channels, and there are three.  What the two functions do with the
counts of the socket and of the OPRF channel is up to those libraries.

So a party's sum is the number of bytes it sent exactly if nothing went over the
third channel (`accounting_complete_iff`), as the triples of an equality test do
(`equality_test_unaccounted`).  Each party always ends with the other one's sum,
and the swap never blocks (`exchange_progress`).
-/

namespace Sectric

open Lib

/-- The other party. -/
def Role.other : Role → Role
  | .receiver => .sender
  | .sender => .receiver

@[simp] theorem Role.other_other (p : Role) : p.other.other = p := by
  cases p <;> rfl

theorem Role.other_ne (p : Role) : p.other ≠ p := by
  cases p <;> decide

/-! ## A party -/

/-- What `PsiAnalyticsContext` keeps of the SCI channels. -/
structure PsiAnalyticsContext where
  sciIoStart : List Word := []
  sentBytesSci : Word := 0
  recvBytesSci : Word := 0

/-- What a party does with the socket. -/
inductive SockCall where
  | send
  | receive
  deriving DecidableEq

/-- Where a party is: before `AccumulateCommunicationPSI`, or in it with these
calls on the socket left. -/
inductive Phase where
  | calling
  | exchanging (todo : List SockCall)
  deriving DecidableEq

structure Endpoint where
  ioArr : Fin 3 → SciNetIo
  context : PsiAnalyticsContext
  phase : Phase

/-- `std::vector::resize`. -/
def resize (xs : List Word) (n : ℕ) : List Word := xs.take n ++ List.replicate (n - xs.length) 0

/-- `ioArr[i]->counter`.  The loops have `i` below 2. -/
def Endpoint.counterAt (p : Endpoint) (i : ℕ) : Word := (p.ioArr (Fin.ofNat 3 i)).counter

/-- `ResetCommunication`. -/
def Endpoint.resetCommunication (p : Endpoint) : Endpoint :=
  { p with
    context := { p.context with
      sciIoStart := (List.range 2).foldl (fun start i => start.set i (p.counterAt i))
        (resize p.context.sciIoStart 2) }
    phase := .calling }

/-- The calls on the socket at the end of `AccumulateCommunicationPSI`.  `CLIENT`
is the receiver. -/
def sockCalls : Role → List SockCall
  | .receiver => [.receive, .send]
  | .sender => [.send, .receive]

/-- `AccumulateCommunicationPSI`, up to the calls on the socket. -/
def Endpoint.accumulateCommunicationPsi (role : Role) (p : Endpoint) : Endpoint :=
  { p with
    context := { p.context with
      sentBytesSci := (List.range 2).foldl
        (fun sum i => sum + (p.counterAt i - p.context.sciIoStart.getD i 0)) 0
      recvBytesSci := 0 }
    phase := .exchanging (sockCalls role) }

/-- A call on an SCI channel. -/
def Endpoint.call (round : ℚ → ℚ) (i : Fin 3) (c : NetCall) (p : Endpoint) : Endpoint :=
  { p with ioArr := Function.update p.ioArr i ((p.ioArr i).call round c) }

/-- After `sock->Send(&sentBytesSCI)`. -/
def Endpoint.sockSend (todo : List SockCall) (p : Endpoint) : Endpoint :=
  { p with phase := .exchanging todo }

/-- After `sock->Receive(&recvBytesSCI)` of `sum`. -/
def Endpoint.sockReceive (sum : Word) (todo : List SockCall) (p : Endpoint) : Endpoint :=
  { p with
    context := { p.context with recvBytesSci := sum }
    phase := .exchanging todo }

/-! ## Both parties -/

/-- The parties, and what is on the way to each of them over the socket. -/
structure Endpoints where
  party : Role → Endpoint
  inbox : Role → List Word

def Endpoints.setParty (s : Endpoints) (p : Role) (x : Endpoint) : Endpoints :=
  { s with party := Function.update s.party p x }

def Endpoints.setInbox (s : Endpoints) (p : Role) (sums : List Word) : Endpoints :=
  { s with inbox := Function.update s.inbox p sums }

section Set

variable (s : Endpoints) {p q : Role} (x : Endpoint) (sums : List Word)

@[simp] theorem Endpoints.party_setInbox : (s.setInbox p sums).party = s.party := rfl

@[simp] theorem Endpoints.party_setParty_self : (s.setParty p x).party p = x :=
  Function.update_self ..

@[simp] theorem Endpoints.inbox_setInbox_self : (s.setInbox p sums).inbox p = sums :=
  Function.update_self ..

theorem Endpoints.party_setParty_of_ne (h : q ≠ p) : (s.setParty p x).party q = s.party q :=
  Function.update_of_ne h ..

/-- What holds of a party after a change: of the new one, and of one that has not
changed. -/
theorem Endpoints.party_setParty_rule {motive : Endpoint → Prop} {x : Endpoint}
    (hself : q = p → motive x) (hother : q ≠ p → motive (s.party q)) :
    motive ((s.setParty p x).party q) := by
  by_cases hq : q = p
  · subst hq
    rw [Endpoints.party_setParty_self]
    exact hself rfl
  · rw [Endpoints.party_setParty_of_ne _ _ hq]
    exact hother hq

theorem Endpoints.inbox_setInbox_of_ne (h : q ≠ p) : (s.setInbox p sums).inbox q = s.inbox q :=
  Function.update_of_ne h ..

end Set

/-- What a party does next: a call on an SCI channel, the sum, or its next call
on the socket. -/
inductive CommEvent where
  | call (p : Role) (i : Fin 3) (c : NetCall)
  | accumulate (p : Role)
  | sock (p : Role)

/-- A step of a party.  It is not possible where the party is not there or has
nothing to receive. -/
def Endpoints.step (round : ℚ → ℚ) (s : Endpoints) : CommEvent → Option Endpoints
  | .call p i c =>
      match (s.party p).phase with
      | .calling => some (s.setParty p ((s.party p).call round i c))
      | .exchanging _ => none
  | .accumulate p =>
      match (s.party p).phase with
      | .calling => some (s.setParty p ((s.party p).accumulateCommunicationPsi p))
      | .exchanging _ => none
  | .sock p =>
      match (s.party p).phase with
      | .exchanging (.send :: todo) =>
          some ((s.setParty p ((s.party p).sockSend todo)).setInbox p.other
            (s.inbox p.other ++ [(s.party p).context.sentBytesSci]))
      | .exchanging (.receive :: todo) =>
          match s.inbox p with
          | [] => none
          | sum :: rest =>
              some ((s.setParty p ((s.party p).sockReceive sum todo)).setInbox p rest)
      | _ => none

/-- The parties after both have called `ResetCommunication`. -/
def Endpoints.reset (party : Role → Endpoint) : Endpoints where
  party p := (party p).resetCommunication
  inbox _ := []

/-- A run, in any order of the two parties' steps. -/
def Endpoints.run (round : ℚ → ℚ) (s : Endpoints) (events : List CommEvent) : Option Endpoints :=
  events.foldlM (Endpoints.step round) s

/-- The steps, with what they find and what they leave. -/
inductive Endpoints.Step (round : ℚ → ℚ) (s : Endpoints) : CommEvent → Endpoints → Prop
  | call {p : Role} {i : Fin 3} {c : NetCall} (hphase : (s.party p).phase = .calling) :
      Step round s (.call p i c) (s.setParty p ((s.party p).call round i c))
  | accumulate {p : Role} (hphase : (s.party p).phase = .calling) :
      Step round s (.accumulate p) (s.setParty p ((s.party p).accumulateCommunicationPsi p))
  | send {p : Role} {todo : List SockCall}
      (hphase : (s.party p).phase = .exchanging (.send :: todo)) :
      Step round s (.sock p) ((s.setParty p ((s.party p).sockSend todo)).setInbox p.other
        (s.inbox p.other ++ [(s.party p).context.sentBytesSci]))
  | receive {p : Role} {todo : List SockCall} {sum : Word} {rest : List Word}
      (hphase : (s.party p).phase = .exchanging (.receive :: todo))
      (hinbox : s.inbox p = sum :: rest) :
      Step round s (.sock p) ((s.setParty p ((s.party p).sockReceive sum todo)).setInbox p rest)

theorem Endpoints.step_eq_some_iff {round : ℚ → ℚ} {s t : Endpoints} {e : CommEvent} :
    s.step round e = some t ↔ Endpoints.Step round s e t := by
  constructor
  · intro h
    cases e with
    | call p i c =>
        simp only [Endpoints.step] at h
        split at h
        · rename_i hphase
          cases h
          exact .call hphase
        · cases h
    | accumulate p =>
        simp only [Endpoints.step] at h
        split at h
        · rename_i hphase
          cases h
          exact .accumulate hphase
        · cases h
    | sock p =>
        simp only [Endpoints.step] at h
        split at h
        · rename_i hphase
          cases h
          exact .send hphase
        · rename_i hphase
          split at h
          · cases h
          · rename_i hinbox
            cases h
            exact .receive hphase hinbox
        · cases h
  · intro h
    cases h with
    | call hphase => simp only [Endpoints.step, hphase]
    | accumulate hphase => simp only [Endpoints.step, hphase]
    | send hphase => simp only [Endpoints.step, hphase]
    | receive hphase hinbox => simp only [Endpoints.step, hphase, hinbox]

/-- What holds at the start and is kept by every step holds after a run. -/
theorem Endpoints.run_induction {round : ℚ → ℚ} {s : Endpoints}
    {motive : List CommEvent → Endpoints → Prop} (nil : motive [] s)
    (step : ∀ events t e u, motive events t → Endpoints.Step round t e u →
      motive (events ++ [e]) u)
    {events : List CommEvent} {t : Endpoints} (hrun : s.run round events = some t) :
    motive events t :=
  foldlM_run_induction nil
    (fun events t e u h hstep => step events t e u h (Endpoints.step_eq_some_iff.mp hstep)) hrun

/-! ## What is sent -/

/-- The `send_data` calls of a party: the channel and the call. -/
def sendsOf (p : Role) (events : List CommEvent) : List (Fin 3 × SendCall) :=
  events.filterMap fun
    | .call q i (.send c) => if q = p then some (i, c) else none
    | _ => none

/-- The bytes a party has sent on the three channels. -/
def bytesSent (p : Role) (events : List CommEvent) : ℕ :=
  ((sendsOf p events).map fun s => s.2.written).sum

/-- What the sum leaves out of that: what goes over the third channel, and what a
negative length takes off the counter of one of the other two. -/
def uncounted (p : Role) (events : List CommEvent) : ℕ :=
  ((sendsOf p events).map fun s => if s.1 < 2 then (-s.2.len).toNat else s.2.written).sum

/-- How far a counter has come. -/
def advance (p : Role) (i : Fin 3) (events : List CommEvent) : ℤ :=
  ((sendsOf p events).map fun s => if s.1 = i then s.2.len else 0).sum

/-! ## The counters -/

theorem advance_append (p : Role) (i : Fin 3) (events : List CommEvent) (e : CommEvent) :
    advance p i (events ++ [e]) = advance p i events + advance p i [e] := by
  rw [advance, sendsOf, List.filterMap_append, List.map_append, List.sum_append]
  rfl

@[simp] theorem advance_accumulate (p q : Role) (i : Fin 3) : advance q i [.accumulate p] = 0 := rfl

@[simp] theorem advance_sock (p q : Role) (i : Fin 3) : advance q i [.sock p] = 0 := rfl

/-- A call advances the counter of its channel by what it is asked to send. -/
theorem SciNetIo.counter_call (round : ℚ → ℚ) (io : SciNetIo) (p : Role) (i : Fin 3) (c : NetCall) :
    (io.call round c).counter = io.counter + BitVec.ofInt 64 (advance p i [.call p i c]) := by
  cases c with
  | send c => simp [SciNetIo.call, SciNetIo.sendData, advance, sendsOf]
  | receive c => simp [SciNetIo.call, SciNetIo.recvData, advance, sendsOf]

/-- No other counter advances. -/
theorem advance_call_of_ne {p q : Role} {i j : Fin 3} (h : p ≠ q ∨ i ≠ j) (c : NetCall) :
    advance q j [.call p i c] = 0 := by
  cases c with
  | send c =>
      rcases h with h | h
      · simp [advance, sendsOf, h]
      · by_cases hp : p = q
        · simp [advance, sendsOf, hp, h]
        · simp [advance, sendsOf, hp]
  | receive c => simp [advance, sendsOf]

/-- The counters of a party have come so far, from where its context has noted two
of them, and past its calls it has the sum of the two. -/
structure Endpoint.Counts (start : Fin 3 → Word) (come : Fin 3 → ℤ) (x : Endpoint) : Prop where
  counter : ∀ i, (x.ioArr i).counter = start i + BitVec.ofInt 64 (come i)
  sciIoStart : x.context.sciIoStart = [start 0, start 1]
  summed : ∀ todo, x.phase = .exchanging todo →
    x.context.sentBytesSci = BitVec.ofInt 64 (come 0 + come 1)

/-- `ResetCommunication` notes where the counters are. -/
theorem Endpoint.counts_reset (x : Endpoint) :
    x.resetCommunication.Counts (fun i => (x.ioArr i).counter) fun _ => 0 where
  counter i := by
    show (x.ioArr i).counter = _ + 0
    rw [add_zero]
  sciIoStart := by
    have hlen : (resize x.context.sciIoStart 2).length = 2 := by
      rw [resize, List.length_append, List.length_take, List.length_replicate]
      omega
    obtain ⟨a, b, hab⟩ := List.length_eq_two.mp hlen
    rw [Endpoint.resetCommunication, hab]
    rfl
  summed todo h := by cases h

section Counts

variable {round : ℚ → ℚ} {start : Fin 3 → Word} {come come' : Fin 3 → ℤ} {x : Endpoint}

theorem Endpoint.Counts.call (h : x.Counts start come) (hphase : x.phase = .calling) {i : Fin 3}
    {c : NetCall} (p : Role) :
    (x.call round i c).Counts start fun j => come j + advance p j [.call p i c] where
  counter j := by
    by_cases hj : j = i
    · subst hj
      show (Function.update x.ioArr j _ j).counter = _
      rw [Function.update_self, SciNetIo.counter_call round _ p, h.counter, BitVec.add_assoc,
        BitVec.ofInt_add]
    · show (Function.update x.ioArr i _ j).counter = _
      rw [Function.update_of_ne hj, advance_call_of_ne (.inr (Ne.symm hj)), Int.add_zero,
        h.counter]
  sciIoStart := h.sciIoStart
  summed todo hexchanging := by
    cases hphase.symm.trans hexchanging

/-- `AccumulateCommunicationPSI` sums how far the two counters have come. -/
theorem Endpoint.Counts.accumulate (h : x.Counts start come) (p : Role) :
    (x.accumulateCommunicationPsi p).Counts start come where
  counter := h.counter
  sciIoStart := h.sciIoStart
  summed todo _ := by
    show (0 + ((x.ioArr 0).counter - _)) + ((x.ioArr 1).counter - _) = _
    rw [h.counter, h.counter, h.sciIoStart, zero_add, BitVec.ofInt_add]
    exact congrArg₂ (· + ·) (add_sub_cancel_left _ _) (add_sub_cancel_left _ _)

/-- The calls on the socket leave the channels and the sum. -/
theorem Endpoint.Counts.sockSend (h : x.Counts start come) {todo todo' : List SockCall}
    (hphase : x.phase = .exchanging todo) : (x.sockSend todo').Counts start come where
  counter := h.counter
  sciIoStart := h.sciIoStart
  summed _ _ := h.summed todo hphase

theorem Endpoint.Counts.sockReceive (h : x.Counts start come) {sum : Word}
    {todo todo' : List SockCall} (hphase : x.phase = .exchanging todo) :
    (x.sockReceive sum todo').Counts start come where
  counter := h.counter
  sciIoStart := h.sciIoStart
  summed _ _ := h.summed todo hphase

end Counts

/-- In every run the counters have come as far as the calls say. -/
theorem Endpoints.counts_run {round : ℚ → ℚ} {party : Role → Endpoint} {events : List CommEvent}
    {s : Endpoints} (hrun : (Endpoints.reset party).run round events = some s) (q : Role) :
    (s.party q).Counts (fun i => ((party q).ioArr i).counter) fun i => advance q i events := by
  refine Endpoints.run_induction
    (motive := fun events s => (s.party q).Counts _ fun i => advance q i events)
    (party q).counts_reset ?_ hrun
  intro events t e u h hstep
  simp only [advance_append]
  cases hstep with
  | call hphase =>
      refine t.party_setParty_rule ?_ ?_
      · rintro rfl
        exact h.call hphase q
      · intro hq
        simpa only [advance_call_of_ne (.inl (Ne.symm hq)), Int.add_zero] using h
  | accumulate hphase =>
      simp only [advance_accumulate, Int.add_zero]
      refine t.party_setParty_rule ?_ fun _ => h
      rintro rfl
      exact h.accumulate q
  | send hphase =>
      simp only [Endpoints.party_setInbox, advance_sock, Int.add_zero]
      refine t.party_setParty_rule ?_ fun _ => h
      rintro rfl
      exact h.sockSend hphase
  | receive hphase hinbox =>
      simp only [Endpoints.party_setInbox, advance_sock, Int.add_zero]
      refine t.party_setParty_rule ?_ fun _ => h
      rintro rfl
      exact h.sockReceive hphase

/-! ## The exchange -/

theorem Role.eq_or_eq_other (p q : Role) : q = p ∨ q = p.other := by
  cases p <;> cases q <;> decide

theorem forall_role {p : Role} {P : Role → Prop} : (∀ q, P q) ↔ P p ∧ P p.other := by
  constructor
  · intro h
    exact ⟨h p, h p.other⟩
  · rintro ⟨hp, hother⟩ q
    rcases Role.eq_or_eq_other p q with rfl | rfl
    · exact hp
    · exact hother

/-- The party has made this call on the socket. -/
def Phase.Did (c : SockCall) : Phase → Prop
  | .calling => False
  | .exchanging todo => c ∉ todo

@[simp] theorem Phase.did_calling (c : SockCall) : ¬ Phase.Did c .calling := id

@[simp] theorem Phase.did_exchanging (c : SockCall) (todo : List SockCall) :
    Phase.Did c (.exchanging todo) ↔ c ∉ todo := Iff.rfl

theorem mem_sockCalls (p : Role) (c : SockCall) : c ∈ sockCalls p := by
  cases p <;> cases c <;> decide

/-- No call on the socket is made twice. -/
theorem nodup_of_suffix {p : Role} {c : SockCall} {todo : List SockCall}
    (h : c :: todo <:+ sockCalls p) : c ∉ todo := by
  have hnodup : (sockCalls p).Nodup := by
    cases p <;> decide
  exact (List.nodup_cons.mp (hnodup.sublist h.sublist)).1

/-- The sum of a party is on the way to the other from when it is sent to when it is
received, and is what is received. -/
structure Endpoint.Passes (source target : Endpoint) (inbox : List Word) : Prop where
  coming : source.phase.Did .send → ¬ target.phase.Did .receive →
    inbox = [source.context.sentBytesSci]
  nothing : ¬ source.phase.Did .send ∨ target.phase.Did .receive → inbox = []
  received : target.phase.Did .receive → source.phase.Did .send ∧
    target.context.recvBytesSci = source.context.sentBytesSci

section Passes

variable {source source' target target' : Endpoint} {inbox : List Word}

/-- Other steps of the two parties. -/
theorem Endpoint.Passes.congr (h : Endpoint.Passes source target inbox)
    (hsend : source'.phase.Did .send ↔ source.phase.Did .send)
    (hsum : source.phase.Did .send → source'.context.sentBytesSci = source.context.sentBytesSci)
    (hreceive : target'.phase.Did .receive ↔ target.phase.Did .receive)
    (hreceived : target.phase.Did .receive →
      target'.context.recvBytesSci = target.context.recvBytesSci) :
    Endpoint.Passes source' target' inbox where
  coming hdid hnot := by
    rw [hsend] at hdid
    rw [hreceive] at hnot
    rw [hsum hdid]
    exact h.coming hdid hnot
  nothing hdid := by
    rw [hsend, hreceive] at hdid
    exact h.nothing hdid
  received hdid := by
    rw [hreceive] at hdid
    obtain ⟨hdidSend, heq⟩ := h.received hdid
    rw [hsend, hreceived hdid, hsum hdidSend]
    exact ⟨hdidSend, heq⟩

/-- The sum is sent. -/
theorem Endpoint.Passes.send (h : Endpoint.Passes source target inbox)
    (hnot : ¬ source.phase.Did .send) (hsend : source'.phase.Did .send)
    (hsum : source'.context.sentBytesSci = source.context.sentBytesSci) :
    Endpoint.Passes source' target (inbox ++ [source.context.sentBytesSci]) := by
  have hunreceived : ¬ target.phase.Did .receive := fun hdid => hnot (h.received hdid).1
  constructor
  · intro _ _
    rw [h.nothing (.inl hnot), hsum, List.nil_append]
  · rintro (hunsent | hdid)
    · exact absurd hsend hunsent
    · exact absurd hdid hunreceived
  · intro hdid
    exact absurd hdid hunreceived

/-- The sum is received. -/
theorem Endpoint.Passes.receive {sum : Word} {rest : List Word}
    (h : Endpoint.Passes source target (sum :: rest)) (hreceive : target'.phase.Did .receive)
    (hsum : target'.context.recvBytesSci = sum) : Endpoint.Passes source target' rest := by
  have hpending : source.phase.Did .send ∧ ¬ target.phase.Did .receive := by
    by_contra hnot
    rw [not_and_or, not_not] at hnot
    cases h.nothing hnot
  have hinbox := h.coming hpending.1 hpending.2
  cases hinbox
  constructor
  · intro _ hnot
    exact absurd hreceive hnot
  · intro _
    rfl
  · intro _
    exact ⟨hpending.1, hsum⟩

end Passes

/-- Each party's sum is on its way to the other, and the calls left are the last of
`sockCalls`. -/
structure Endpoints.Exchanges (s : Endpoints) : Prop where
  todo : ∀ p todo, (s.party p).phase = .exchanging todo → todo <:+ sockCalls p
  passes : ∀ p, Endpoint.Passes (s.party p.other) (s.party p) (s.inbox p)

theorem Endpoints.exchanges_reset (party : Role → Endpoint) :
    (Endpoints.reset party).Exchanges where
  todo p todo h := by cases h
  passes p := ⟨fun h => h.elim, fun _ => rfl, fun h => h.elim⟩

section Exchanges

variable {round : ℚ → ℚ} {s t : Endpoints} {e : CommEvent} {p : Role}

/-- What holds for both directions of the socket. -/
theorem Endpoints.passes_iff (s : Endpoints) (p : Role) :
    (∀ q, Endpoint.Passes (s.party q.other) (s.party q) (s.inbox q)) ↔
      Endpoint.Passes (s.party p.other) (s.party p) (s.inbox p) ∧
        Endpoint.Passes (s.party p) (s.party p.other) (s.inbox p.other) := by
  rw [forall_role (p := p), Role.other_other]

/-- The calls left stay the last of `sockCalls` if those of the party that changes
do. -/
theorem Endpoints.Exchanges.todo_setParty (h : s.Exchanges) {x : Endpoint}
    (htodo : ∀ todo, x.phase = .exchanging todo → todo <:+ sockCalls p) (q : Role) :
    ∀ todo, ((s.setParty p x).party q).phase = .exchanging todo → todo <:+ sockCalls q := by
  refine s.party_setParty_rule
    (motive := fun y => ∀ todo, y.phase = .exchanging todo → todo <:+ sockCalls q) ?_ ?_
  · rintro rfl
    exact htodo
  · intro _
    exact h.todo q

/-- A party makes its next call on the socket. -/
theorem Endpoints.Exchanges.todo_next (h : s.Exchanges) {c : SockCall} {todo : List SockCall}
    (hphase : (s.party p).phase = .exchanging (c :: todo)) {x : Endpoint}
    (hx : x.phase = .exchanging todo) (q : Role) :
    ∀ todo, ((s.setParty p x).party q).phase = .exchanging todo → todo <:+ sockCalls q := by
  refine h.todo_setParty ?_ q
  intro todo' hx'
  cases hx.symm.trans hx'
  exact (List.suffix_cons _ _).trans (h.todo p _ hphase)

/-- A party that has made no call on the socket changes. -/
theorem Endpoints.Exchanges.setParty (h : s.Exchanges) {x : Endpoint}
    (hcalling : (s.party p).phase = .calling) (hx : ∀ c, ¬ x.phase.Did c)
    (htodo : ∀ todo, x.phase = .exchanging todo → todo <:+ sockCalls p) :
    (s.setParty p x).Exchanges := by
  have hbefore : ∀ c, ¬ (s.party p).phase.Did c := by
    intro c
    rw [hcalling]
    exact Phase.did_calling c
  have hdid : ∀ c, x.phase.Did c ↔ (s.party p).phase.Did c := fun c =>
    iff_of_false (hx c) (hbefore c)
  obtain ⟨hto, hfrom⟩ := (s.passes_iff p).mp h.passes
  refine ⟨h.todo_setParty htodo, (Endpoints.passes_iff _ p).mpr ?_⟩
  rw [Endpoints.party_setParty_self, Endpoints.party_setParty_of_ne _ _ p.other_ne]
  exact ⟨hto.congr Iff.rfl (fun _ => rfl) (hdid _) fun hreceive => absurd hreceive (hbefore _),
    hfrom.congr (hdid _) (fun hsend => absurd hsend (hbefore _)) Iff.rfl fun _ => rfl⟩

theorem Endpoints.Exchanges.send (h : s.Exchanges) {todo : List SockCall}
    (hphase : (s.party p).phase = .exchanging (.send :: todo)) :
    Endpoints.Exchanges ((s.setParty p ((s.party p).sockSend todo)).setInbox p.other
      (s.inbox p.other ++ [(s.party p).context.sentBytesSci])) := by
  have hsuffix := h.todo p _ hphase
  have hnot : ¬ (s.party p).phase.Did .send := by simp [hphase]
  have hreceive : ((s.party p).sockSend todo).phase.Did .receive ↔
      (s.party p).phase.Did .receive := by
    simp [Endpoint.sockSend, hphase]
  obtain ⟨hto, hfrom⟩ := (s.passes_iff p).mp h.passes
  constructor
  · exact h.todo_next hphase rfl
  · rw [Endpoints.passes_iff _ p, Endpoints.party_setInbox, Endpoints.party_setParty_self,
      Endpoints.party_setParty_of_ne _ _ p.other_ne, Endpoints.inbox_setInbox_self,
      Endpoints.inbox_setInbox_of_ne _ _ p.other_ne.symm]
    exact ⟨hto.congr Iff.rfl (fun _ => rfl) hreceive fun _ => rfl,
      hfrom.send hnot (nodup_of_suffix hsuffix) rfl⟩

theorem Endpoints.Exchanges.receive (h : s.Exchanges) {todo : List SockCall} {sum : Word}
    {rest : List Word} (hphase : (s.party p).phase = .exchanging (.receive :: todo))
    (hinbox : s.inbox p = sum :: rest) :
    Endpoints.Exchanges
      ((s.setParty p ((s.party p).sockReceive sum todo)).setInbox p rest) := by
  have hsuffix := h.todo p _ hphase
  have hsend : ((s.party p).sockReceive sum todo).phase.Did .send ↔
      (s.party p).phase.Did .send := by
    simp [Endpoint.sockReceive, hphase]
  obtain ⟨hto, hfrom⟩ := (s.passes_iff p).mp h.passes
  rw [hinbox] at hto
  constructor
  · exact h.todo_next hphase rfl
  · rw [Endpoints.passes_iff _ p, Endpoints.party_setInbox, Endpoints.party_setParty_self,
      Endpoints.party_setParty_of_ne _ _ p.other_ne, Endpoints.inbox_setInbox_self,
      Endpoints.inbox_setInbox_of_ne _ _ p.other_ne]
    exact ⟨hto.receive (nodup_of_suffix hsuffix) rfl,
      hfrom.congr hsend (fun _ => rfl) Iff.rfl fun _ => rfl⟩

theorem Endpoints.Exchanges.step (h : s.Exchanges) (hstep : Endpoints.Step round s e t) :
    t.Exchanges := by
  cases hstep with
  | call hphase =>
      refine h.setParty hphase ?_ ?_
      · intro c
        show ¬ Phase.Did c (s.party _).phase
        rw [hphase]
        exact Phase.did_calling c
      · intro todo hexchanging
        cases hphase.symm.trans hexchanging
  | @accumulate p hphase =>
      refine h.setParty hphase ?_ ?_
      · intro c hdid
        exact hdid (mem_sockCalls p c)
      · intro todo hexchanging
        cases hexchanging
        exact List.suffix_rfl
  | send hphase => exact h.send hphase
  | receive hphase hinbox => exact h.receive hphase hinbox

end Exchanges

theorem Endpoints.exchanges_run {round : ℚ → ℚ} {party : Role → Endpoint} {events : List CommEvent}
    {s : Endpoints} (hrun : (Endpoints.reset party).run round events = some s) : s.Exchanges :=
  Endpoints.run_induction (motive := fun _ s => s.Exchanges) (Endpoints.exchanges_reset party)
    (fun _ _ _ _ h hstep => h.step hstep) hrun

/-! ### The exchange ends -/

/-- The steps a party has left after its calls on the channels. -/
def Phase.left : Phase → ℕ
  | .calling => 3
  | .exchanging todo => todo.length

def Endpoints.left (s : Endpoints) : ℕ :=
  (s.party .receiver).phase.left + (s.party .sender).phase.left

theorem Endpoints.left_eq (s : Endpoints) (p : Role) :
    s.left = (s.party p).phase.left + (s.party p.other).phase.left := by
  cases p with
  | receiver => rfl
  | sender => exact Nat.add_comm ..

/-- A step of a party with fewer steps left leaves fewer steps in all. -/
theorem Endpoints.left_setParty_lt {s : Endpoints} {p : Role} {x : Endpoint}
    (h : x.phase.left < (s.party p).phase.left) : (s.setParty p x).left < s.left := by
  rw [Endpoints.left_eq _ p, Endpoints.left_eq s p, Endpoints.party_setParty_self,
    Endpoints.party_setParty_of_ne _ _ p.other_ne]
  exact Nat.add_lt_add_right h _

section Progress

variable (round : ℚ → ℚ) {s : Endpoints}

/-- A party makes its next call on the socket, unless it waits for a sum that is
not sent. -/
theorem Endpoints.Exchanges.sock_progress (h : s.Exchanges) {p : Role} {c : SockCall}
    {todo : List SockCall} (hphase : (s.party p).phase = .exchanging (c :: todo))
    (hsent : c = .receive → (s.party p.other).phase.Did .send) :
    ∃ t, Endpoints.Step round s (.sock p) t ∧ t.left < s.left := by
  have hless : (Phase.exchanging todo).left < (s.party p).phase.left := by
    rw [hphase]
    exact Nat.lt_succ_self _
  cases c with
  | send => exact ⟨_, .send hphase, Endpoints.left_setParty_lt hless⟩
  | receive =>
      have hinbox := (h.passes p).coming (hsent rfl) (by simp [hphase])
      exact ⟨_, .receive hphase hinbox, Endpoints.left_setParty_lt hless⟩

/-- As long as a party is not done, a party can go on without another call on the
channels: the swap never blocks. -/
theorem exchange_progress (h : s.Exchanges)
    (hnot : ¬ ∀ p, (s.party p).phase = .exchanging []) :
    ∃ e t, Endpoints.Step round s e t ∧ (∀ q, sendsOf q [e] = []) ∧ t.left < s.left := by
  have hsock : ∀ p c todo, (s.party p).phase = .exchanging (c :: todo) →
      (c = .receive → (s.party p.other).phase.Did .send) →
      ∃ e t, Endpoints.Step round s e t ∧ (∀ q, sendsOf q [e] = []) ∧ t.left < s.left := by
    intro p c todo hphase hsent
    obtain ⟨t, hstep, hless⟩ := h.sock_progress round hphase hsent
    exact ⟨.sock p, t, hstep, fun _ => rfl, hless⟩
  by_cases hcalling : ∃ p, (s.party p).phase = .calling
  · obtain ⟨p, hp⟩ := hcalling
    refine ⟨.accumulate p, _, .accumulate hp, fun _ => rfl, Endpoints.left_setParty_lt ?_⟩
    rw [hp]
    show (sockCalls p).length < 3
    cases p <;> decide
  · have hexchanging : ∀ p, ∃ todo, (s.party p).phase = .exchanging todo ∧
        todo <:+ sockCalls p := by
      intro p
      cases hphase : (s.party p).phase with
      | calling => exact absurd ⟨p, hphase⟩ hcalling
      | exchanging todo => exact ⟨todo, rfl, h.todo p todo hphase⟩
    obtain ⟨server, hserver, hserverTodo⟩ := hexchanging .sender
    obtain ⟨client, hclient, hclientTodo⟩ := hexchanging .receiver
    -- the server starts with a call that needs nothing
    rw [sockCalls, List.suffix_cons_iff, List.suffix_cons_iff, List.suffix_nil] at hserverTodo
    rcases hserverTodo with rfl | hserverTodo
    · exact hsock .sender _ _ hserver nofun
    · have hsent : (s.party .sender).phase.Did .send := by
        rw [hserver]
        rcases hserverTodo with rfl | rfl <;> simp
      rw [sockCalls, List.suffix_cons_iff, List.suffix_cons_iff, List.suffix_nil] at hclientTodo
      rcases hclientTodo with rfl | rfl | rfl
      · exact hsock .receiver _ _ hclient fun _ => hsent
      · exact hsock .receiver _ _ hclient nofun
      · rcases hserverTodo with rfl | rfl
        · refine hsock .sender _ _ hserver fun _ => ?_
          show (s.party .receiver).phase.Did .send
          simp [hclient]
        · refine absurd ?_ hnot
          intro p
          cases p with
          | receiver => exact hclient
          | sender => exact hserver

theorem sendsOf_cons (p : Role) (e : CommEvent) (events : List CommEvent) :
    sendsOf p (e :: events) = sendsOf p [e] ++ sendsOf p events := by
  rw [← List.singleton_append, sendsOf, List.filterMap_append]
  rfl

/-- So a run can always be completed. -/
theorem accumulation_completes {s : Endpoints} (h : s.Exchanges) :
    ∃ events t, s.run round events = some t ∧ (∀ p, (t.party p).phase = .exchanging []) ∧
      ∀ p, sendsOf p events = [] := by
  by_cases hdone : ∀ p, (s.party p).phase = .exchanging []
  · exact ⟨[], s, rfl, hdone, fun _ => rfl⟩
  · obtain ⟨e, t, hstep, hsends, hless⟩ := exchange_progress round h hdone
    obtain ⟨events, u, hrun, hu, hrest⟩ := accumulation_completes (h.step hstep)
    refine ⟨e :: events, u, ?_, hu, ?_⟩
    · rw [Endpoints.run, List.foldlM_cons, Endpoints.step_eq_some_iff.mpr hstep]
      exact hrun
    · intro p
      rw [sendsOf_cons, hsends, hrest, List.append_nil]
termination_by s.left

end Progress

/-! ## What is accounted for -/

theorem advance_eq (p : Role) (events : List CommEvent) :
    advance p 0 events + advance p 1 events = bytesSent p events - uncounted p events := by
  have hsums : ∀ sends : List (Fin 3 × SendCall),
      (sends.map fun s => if s.1 = 0 then s.2.len else 0).sum +
          (sends.map fun s => if s.1 = 1 then s.2.len else 0).sum =
        ((sends.map fun s => s.2.written).sum : ℕ) -
          ((sends.map fun s => if s.1 < 2 then (-s.2.len).toNat else s.2.written).sum : ℕ) := by
    intro sends
    induction sends with
    | nil => rfl
    | cons s sends ih =>
        have hcall : (if s.1 = 0 then s.2.len else 0) + (if s.1 = 1 then s.2.len else 0) =
            (s.2.written : ℤ) -
              ((if s.1 < 2 then (-s.2.len).toNat else s.2.written : ℕ) : ℤ) := by
          obtain ⟨i, c⟩ := s
          rw [SendCall.written_eq]
          fin_cases i <;> simp
        simp only [List.map_cons, List.sum_cons, Nat.cast_add]
        omega
  exact hsums _

/-- The sum of a party is right exactly if a word holds the bytes it sent, and what
is left out of them is a multiple of the range of a word. -/
theorem Endpoints.sentBytesSci_eq_iff {round : ℚ → ℚ} {party : Role → Endpoint}
    {events : List CommEvent} {s : Endpoints}
    (hrun : (Endpoints.reset party).run round events = some s) {p : Role} {todo : List SockCall}
    (hphase : (s.party p).phase = .exchanging todo) :
    (s.party p).context.sentBytesSci.toNat = bytesSent p events ↔
      bytesSent p events < 2 ^ 64 ∧ 2 ^ 64 ∣ uncounted p events := by
  rw [(Endpoints.counts_run hrun p).summed todo hphase, advance_eq, BitVec.toNat_ofInt]
  omega

/-- At the end both parties' sums are right, and each has the other's, exactly if
what the sums leave out is a multiple of the range of a word and a word holds the
rest. -/
theorem accounting_complete_iff (round : ℚ → ℚ) (party : Role → Endpoint) (events : List CommEvent)
    (s : Endpoints) (hrun : (Endpoints.reset party).run round events = some s)
    (hdone : ∀ p, (s.party p).phase = .exchanging []) :
    (∀ p, (s.party p).context.sentBytesSci.toNat = bytesSent p events ∧
      (s.party p).context.recvBytesSci = (s.party p.other).context.sentBytesSci) ↔
    ∀ p, bytesSent p events < 2 ^ 64 ∧ 2 ^ 64 ∣ uncounted p events := by
  have hsent : ∀ p, _ ↔ _ := fun p => Endpoints.sentBytesSci_eq_iff hrun (hdone p)
  have hreceived : ∀ p, (s.party p).context.recvBytesSci =
      (s.party p.other).context.sentBytesSci := by
    intro p
    refine (((Endpoints.exchanges_run hrun).passes p).received ?_).2
    rw [hdone]
    exact List.not_mem_nil
  constructor
  · intro h p
    exact (hsent p).mp (h p).1
  · intro h p
    exact ⟨(hsent p).mpr (h p), hreceived p⟩

/-- A `send_data` of `len` bytes in no time. -/
def instantSend (len : ℤ) : SendCall where
  len := len
  start := 0
  finish := 0
  grain _ := 0

/-- A party with nothing counted. -/
def freshParty : Endpoint where
  ioArr _ := {}
  context := {}
  phase := .calling

/-- The parties make the calls they are given and then account for them. -/
def callsThenExchange (calls : List (Role × Fin 3 × ℤ)) : List CommEvent :=
  (calls.map fun c => .call c.1 c.2.1 (.send (instantSend c.2.2))) ++
    [.accumulate .receiver, .accumulate .sender, .sock .sender, .sock .receiver,
      .sock .receiver, .sock .sender]

/-- The state after that. -/
def afterExchange (calls : List (Role × Fin 3 × ℤ)) : Endpoints :=
  ((Endpoints.reset fun _ => freshParty).run id (callsThenExchange calls)).getD
    ⟨fun _ => freshParty, fun _ => []⟩

theorem accounting_complete_on_two_channels :
    let calls := [(.receiver, 0, 5), (.sender, 1, 7), (.receiver, 1, 2)]
    ∀ p, ((afterExchange calls).party p).context.sentBytesSci.toNat =
        bytesSent p (callsThenExchange calls) ∧
      ((afterExchange calls).party p).context.recvBytesSci =
        ((afterExchange calls).party p.other).context.sentBytesSci := by
  intro calls
  refine (accounting_complete_iff id (fun _ => freshParty) (callsThenExchange calls)
    (afterExchange calls) rfl ?_).mpr ?_
  · intro p
    cases p <;> decide
  · intro p
    cases p <;> decide

/-- Five bytes on the third channel, which the sum does not have. -/
theorem third_channel_unaccounted :
    (Endpoints.reset fun _ => freshParty).run id (callsThenExchange [(.sender, 2, 5)]) =
        some (afterExchange [(.sender, 2, 5)]) ∧
      (∀ p, ((afterExchange [(.sender, 2, 5)]).party p).phase = .exchanging []) ∧
      bytesSent .sender (callsThenExchange [(.sender, 2, 5)]) = 5 ∧
      ((afterExchange [(.sender, 2, 5)]).party .sender).context.sentBytesSci = 0 := by
  refine ⟨rfl, ?_, by decide, by decide⟩
  intro p
  cases p <;> decide

/-! ## The equality test -/

/-- The bytes a party has sent on one channel. -/
def bytesOn (p : Role) (i : Fin 3) (events : List CommEvent) : ℕ :=
  ((sendsOf p events).map fun s => if s.1 = i then s.2.written else 0).sum

/-- Without a negative length, what is left out is what goes over the third
channel. -/
theorem uncounted_eq_bytesOn {p : Role} {events : List CommEvent}
    (hlen : ∀ s ∈ sendsOf p events, 0 ≤ s.2.len) : uncounted p events = bytesOn p 2 events := by
  refine congrArg List.sum (List.map_congr_left ?_)
  intro s hs
  have hnonneg := hlen s hs
  obtain ⟨i, c⟩ := s
  fin_cases i
  · simpa using hnonneg
  · simpa using hnonneg
  · rfl

theorem bytesOn_le_bytesSent (p : Role) (i : Fin 3) (events : List CommEvent) :
    bytesOn p i events ≤ bytesSent p events := by
  refine List.sum_le_sum ?_
  intro s _
  split
  · exact le_rfl
  · exact Nat.zero_le _

/-- The bytes of a party's messages on a channel. -/
def messageBytes (channel : Channel) (p : Role) (messages : List Message) : ℕ :=
  ((messages.filter fun m => m.channel = channel ∧ m.source = p).map fun m => m.payload.length).sum

theorem length_le_messageBytes {messages : List Message} {m : Message} (hm : m ∈ messages) :
    m.payload.length ≤ messageBytes m.channel m.source messages := by
  refine List.single_le_sum (fun _ _ => Nat.zero_le _) _ (List.mem_map_of_mem ?_)
  simp [hm]

/-- The triples of the last comparison are among the messages of the test. -/
theorem mem_performBlockEqualityMessages {wan : Bool} {packing : BitPacking} {ot : ℕ → OtPack}
    {traffic : EqualityTraffic} {alice bob : Role} {random : BlockEqualityRandomness}
    {inputsAlice inputsBob : List Block} {sent : List Message}
    (h : performBlockEqualityMessages wan packing ot traffic alice bob random inputsAlice
      inputsBob = .ok sent) {m : Message}
    (hm : m ∈ traffic.generateTriples 2 inputsAlice.length) : m ∈ sent := by
  rw [performBlockEqualityMessages] at h
  cases hthreads : performEqualityMessages wan packing ot traffic alice bob random.thread
      (wordsOf inputsAlice) (wordsOf inputsBob) 64 5 (2 * inputsAlice.length) with
  | error e =>
      rw [hthreads] at h
      cases h
  | ok threads =>
      cases hres : performEquality .unbounded wan packing ot random.thread (wordsOf inputsAlice)
          (wordsOf inputsBob) 64 5 (2 * inputsAlice.length) with
      | error e =>
          rw [hthreads, hres] at h
          cases h
      | ok res =>
          rw [hthreads, hres] at h
          cases h
          simp [hm]

/-- A party that sends for the triples of an equality test has a wrong sum, however
the messages on the third channel are cut into calls. -/
theorem equality_test_unaccounted {wan : Bool} {packing : BitPacking} {ot : ℕ → OtPack}
    {traffic : EqualityTraffic} {alice bob : Role} {random : BlockEqualityRandomness}
    {inputsAlice inputsBob : List Block} {sent : List Message}
    (htest : performBlockEqualityMessages wan packing ot traffic alice bob random inputsAlice
      inputsBob = .ok sent) {m : Message}
    (hm : m ∈ traffic.generateTriples 2 inputsAlice.length) (hchannel : m.channel = .ioArr 2)
    (hpayload : m.payload ≠ []) {round : ℚ → ℚ} {party : Role → Endpoint}
    {events : List CommEvent} {s : Endpoints}
    (hrun : (Endpoints.reset party).run round events = some s) {todo : List SockCall}
    (hphase : (s.party m.source).phase = .exchanging todo)
    (hlen : ∀ s ∈ sendsOf m.source events, 0 ≤ s.2.len)
    (hcarried : bytesOn m.source 2 events = messageBytes (.ioArr 2) m.source sent) :
    (s.party m.source).context.sentBytesSci.toNat ≠ bytesSent m.source events := by
  have hpos : 0 < bytesOn m.source 2 events := by
    rw [hcarried, ← hchannel]
    exact (List.length_pos_iff.mpr hpayload).trans_le
      (length_le_messageBytes (mem_performBlockEqualityMessages htest hm))
  have hle := bytesOn_le_bytesSent m.source 2 events
  rw [ne_eq, Endpoints.sentBytesSci_eq_iff hrun hphase, uncounted_eq_bytesOn hlen]
  rintro ⟨hfits, hdvd⟩
  have hge := Nat.le_of_dvd hpos hdvd
  omega

end Sectric
