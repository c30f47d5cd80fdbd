import Mathlib.Data.Fintype.Basic
import Mathlib.Data.Finset.Insert
import Mathlib.Data.Finset.BooleanAlgebra
import Sectric.Lib.Network

/-!
# Programs of two parties

A `Thread` sends and receives cells over one line.  A `Program` has many lines, and
can fork into threads, each with a line of its own, and wait for all of them.

Two programs *meet* (`Program.Meets`) if, run in step, every cell one of them sends
is the next one the other receives, and both come to an end.  This needs no room on
the lines at all.  Where the lines have room, however little, nothing else can
happen, in whatever order the parties and their threads take their steps
(`Program.Meets.endsIn`): no party waits for ever, every cell is received, and the
results are those of the meeting.
-/

namespace Sectric.Lib

variable {κ τ σ β β' γ α α' : Type}

/-! ## Threads -/

/-- A program with one line. -/
inductive Thread (σ α : Type) where
  | done (a : α)
  | send (x : σ) (next : Thread σ α)
  | receive (next : σ → Thread σ α)

namespace Thread

/-- One thread after the other. -/
def bind : Thread σ β → (β → Thread σ γ) → Thread σ γ
  | .done b, f => f b
  | .send x next, f => .send x (next.bind f)
  | .receive next, f => .receive fun x => (next x).bind f

instance : Monad (Thread σ) where
  pure := .done
  bind := bind

/-- Send the cells, in order. -/
def sendAll : List σ → Thread σ Unit
  | [] => .done ()
  | x :: xs => .send x (sendAll xs)

/-- Receive so many cells. -/
def receiveMany : ℕ → Thread σ (List σ)
  | 0 => .done []
  | n + 1 => .receive fun x => (receiveMany n).bind fun xs => .done (x :: xs)

/-- What a thread can do next. -/
def offer : Thread σ β → Offer Unit σ (Thread σ β)
  | .done _ => .idle
  | .send x next => .send () x next
  | .receive next => .receive () next

/-- What a thread has come to. -/
def result? : Thread σ β → Option β
  | .done b => some b
  | .send _ _ => none
  | .receive _ => none

theorem eq_done_of_result? {th : Thread σ β} {b : β} (h : th.result? = some b) : th = .done b := by
  cases th with
  | done a =>
      cases h
      rfl
  | send x next => cases h
  | receive next => cases h

/-- Two threads run in step, with their results. -/
inductive Meets : Thread σ β → Thread σ γ → β → γ → Prop
  | done (b : β) (c : γ) : Meets (.done b) (.done c) b c
  | left {left : Thread σ β} {right : σ → Thread σ γ} {b : β} {c : γ} (x : σ)
      (rest : Meets left (right x) b c) : Meets (.send x left) (.receive right) b c
  | right {left : σ → Thread σ β} {right : Thread σ γ} {b : β} {c : γ} (x : σ)
      (rest : Meets (left x) right b c) : Meets (.receive left) (.send x right) b c

theorem Meets.symm {s : Thread σ β} {t : Thread σ γ} {b : β} {c : γ} (h : s.Meets t b c) :
    t.Meets s c b := by
  induction h with
  | done b c => exact .done c b
  | left x _ ih => exact .right x ih
  | right x _ ih => exact .left x ih

theorem Meets.bind {s : Thread σ β} {t : Thread σ γ} {b : β} {c : γ} {f : β → Thread σ β'}
    {g : γ → Thread σ α} {b' : β'} {a : α} (h : s.Meets t b c) (h' : (f b).Meets (g c) b' a) :
    (s >>= f).Meets (t >>= g) b' a := by
  induction h with
  | done b c => exact h'
  | left x _ ih => exact .left x (ih h')
  | right x _ ih => exact .right x (ih h')

/-- The right thread converts what it has come to. -/
theorem Meets.convert {s : Thread σ β} {t : Thread σ γ} {b : β} {c : γ} (h : s.Meets t b c)
    (f : γ → β') : s.Meets (t.bind fun c => .done (f c)) b (f c) := by
  induction h with
  | done b c => exact .done b (f c)
  | left x _ ih => exact .left x ih
  | right x _ ih => exact .right x ih

/-- What is sent is received. -/
theorem sendAll_meets (xs : List σ) : (sendAll xs).Meets (receiveMany xs.length) () xs := by
  induction xs with
  | nil => exact .done () []
  | cons x xs ih => exact .left x (ih.convert fun xs => x :: xs)

/-- Two loops whose rounds meet.  `left s` and `right s` are the two states, and
`joint` is a round of both. -/
theorem Meets.foldlM {ι J : Type} {f : β → ι → Thread σ β} {g : γ → ι → Thread σ γ}
    (left : J → β) (right : J → γ) (joint : J → ι → J) (inv : J → Prop) :
    ∀ (rounds : List ι) {s : J}, inv s →
      (∀ i ∈ rounds, ∀ s, inv s → inv (joint s i) ∧
        (f (left s) i).Meets (g (right s) i) (left (joint s i)) (right (joint s i))) →
      (rounds.foldlM f (left s)).Meets (rounds.foldlM g (right s)) (left (rounds.foldl joint s))
        (right (rounds.foldl joint s))
  | [], s, _, _ => .done (left s) (right s)
  | i :: rounds, s, hs, h => by
      obtain ⟨hinv, hmeets⟩ := h i (List.mem_cons_self ..) s hs
      rw [List.foldlM_cons, List.foldlM_cons, List.foldl_cons]
      exact hmeets.bind (Meets.foldlM left right joint inv rounds hinv fun k hk =>
        h k (List.mem_cons_of_mem _ hk))

end Thread

/-! ## Programs -/

/-- A program with lines `c : κ`.  A fork has a thread for every `t : τ`, and goes on
with their results. -/
inductive Program (κ τ σ β α : Type) where
  | done (a : α)
  | send (c : κ) (x : σ) (next : Program κ τ σ β α)
  | receive (c : κ) (next : σ → Program κ τ σ β α)
  | fork (threads : τ → Thread σ β) (join : (τ → β) → Program κ τ σ β α)

namespace Program

/-- One program after the other. -/
def bind : Program κ τ σ β α → (α → Program κ τ σ β α') → Program κ τ σ β α'
  | .done a, f => f a
  | .send c x next, f => .send c x (next.bind f)
  | .receive c next, f => .receive c fun x => (next x).bind f
  | .fork threads join, f => .fork threads fun b => (join b).bind f

instance : Monad (Program κ τ σ β) where
  pure := .done
  bind := bind

/-- A thread run by the program itself, over line `c`. -/
def onLine (c : κ) : Thread σ α → Program κ τ σ β α
  | .done a => .done a
  | .send x next => .send c x (onLine c next)
  | .receive next => .receive c fun x => onLine c (next x)

/-- The fork that yields the results of its threads. -/
def inParallel (threads : τ → Thread σ β) : Program κ τ σ β (τ → β) := .fork threads .done

/-- A program on other lines, whose threads come to something else.  `wrap` is put on
what a thread comes to, and `unwrap` takes it off. -/
def relabel {κ' υ : Type} (line : κ → κ') (wrap : β → υ) (unwrap : υ → β) :
    Program κ τ σ β α → Program κ' τ σ υ α
  | .done a => .done a
  | .send c x next => .send (line c) x (relabel line wrap unwrap next)
  | .receive c next => .receive (line c) fun x => relabel line wrap unwrap (next x)
  | .fork threads join =>
      .fork (fun t => (threads t).bind fun b => .done (wrap b)) fun results =>
        relabel line wrap unwrap (join fun t => unwrap (results t))

/-- A program that goes on only if `x` has succeeded. -/
def onOk {ε : Type} (x : Except ε γ) (f : γ → Program κ τ σ β (Except ε α)) :
    Program κ τ σ β (Except ε α) :=
  match x with
  | .error e => .done (.error e)
  | .ok a => f a

theorem onOk_eq {ε : Type} {x : Except ε γ} {a : γ} (h : x = .ok a)
    (f : γ → Program κ τ σ β (Except ε α)) : onOk x f = f a := by
  rw [h, onOk]

/-- Two programs run in step, with their results. -/
inductive Meets : Program κ τ σ β α → Program κ τ σ β α' → α → α' → Prop
  | done (a : α) (a' : α') : Meets (.done a) (.done a') a a'
  | left {left : Program κ τ σ β α} {right : σ → Program κ τ σ β α'} {a : α} {a' : α'} (c : κ)
      (x : σ) (rest : Meets left (right x) a a') : Meets (.send c x left) (.receive c right) a a'
  | right {left : σ → Program κ τ σ β α} {right : Program κ τ σ β α'} {a : α} {a' : α'} (c : κ)
      (x : σ) (rest : Meets (left x) right a a') : Meets (.receive c left) (.send c x right) a a'
  | fork {left right : τ → Thread σ β} {join : (τ → β) → Program κ τ σ β α}
      {join' : (τ → β) → Program κ τ σ β α'} {b b' : τ → β} {a : α} {a' : α'}
      (threads : ∀ t, (left t).Meets (right t) (b t) (b' t))
      (rest : Meets (join b) (join' b') a a') : Meets (.fork left join) (.fork right join') a a'

theorem Meets.bind {γ' : Type} {P : Program κ τ σ β α} {Q : Program κ τ σ β α'} {a : α} {a' : α'}
    {f : α → Program κ τ σ β γ} {g : α' → Program κ τ σ β γ'} {c : γ} {c' : γ'}
    (h : P.Meets Q a a') (h' : (f a).Meets (g a') c c') : (P >>= f).Meets (Q >>= g) c c' := by
  induction h with
  | done a a' => exact h'
  | left d x _ ih => exact .left d x (ih h')
  | right d x _ ih => exact .right d x (ih h')
  | fork threads _ ih => exact .fork threads (ih h')

theorem Meets.onLine {s : Thread σ α} {t : Thread σ α'} {a : α} {a' : α'} (c : κ)
    (h : s.Meets t a a') :
    (onLine c s : Program κ τ σ β α).Meets (onLine c t : Program κ τ σ β α') a a' := by
  induction h with
  | done a a' => exact .done a a'
  | left x _ ih => exact .left c x ih
  | right x _ ih => exact .right c x ih

/-- The right program converts what it has come to. -/
theorem Meets.convert {γ' : Type} {P : Program κ τ σ β α} {Q : Program κ τ σ β α'} {a : α}
    {a' : α'} (h : P.Meets Q a a') (f : α' → γ') :
    P.Meets (Q >>= fun a' => return f a') a (f a') := by
  induction h with
  | done a a' => exact .done a (f a')
  | left c x _ ih => exact .left c x ih
  | right c x _ ih => exact .right c x ih
  | fork threads _ ih => exact .fork threads ih

theorem Meets.relabel {κ' υ : Type} (line : κ → κ') {wrap : β → υ} {unwrap : υ → β}
    (hwrap : ∀ b, unwrap (wrap b) = b) {P : Program κ τ σ β α} {Q : Program κ τ σ β α'} {a : α}
    {a' : α'} (h : P.Meets Q a a') :
    (P.relabel line wrap unwrap).Meets (Q.relabel line wrap unwrap) a a' := by
  induction h with
  | done a a' => exact .done a a'
  | left c x _ ih => exact .left (line c) x ih
  | right c x _ ih => exact .right (line c) x ih
  | @fork left right join join' b b' a a' threads rest ih =>
      have hresults : ∀ b : τ → β, (fun t => unwrap (wrap (b t))) = b := by
        intro b
        funext t
        exact hwrap (b t)
      have hthreads : ∀ t, ((left t).bind fun x => .done (wrap x)).Meets
          ((right t).bind fun x => .done (wrap x)) (wrap (b t)) (wrap (b' t)) := by
        intro t
        exact (((threads t).convert wrap).symm.convert wrap).symm
      refine .fork hthreads ?_
      rwa [hresults b, hresults b']

theorem Meets.inParallel (κ : Type) {left right : τ → Thread σ β} {b b' : τ → β}
    (h : ∀ t, (left t).Meets (right t) (b t) (b' t)) :
    (inParallel left : Program κ τ σ β _).Meets (inParallel right) b b' :=
  .fork h (.done b b')

/-! ## Steps -/

section Steps

variable [Fintype τ] [DecidableEq τ] (line : τ → κ)

/-- The results of a fork, once all its threads have come to one. -/
def results? (threads : τ → Thread σ β) : Option (τ → β) :=
  if h : ∀ t, (threads t).result?.isSome then some fun t => (threads t).result?.get (h t) else none

omit [DecidableEq τ] in
theorem results?_done (b : τ → β) : results? (fun t => (.done (b t) : Thread σ β)) = some b := by
  simp [results?, Thread.result?]

omit [DecidableEq τ] in
theorem eq_done_of_results? {threads : τ → Thread σ β} {b : τ → β} (h : results? threads = some b)
    (t : τ) : threads t = .done (b t) := by
  rw [results?] at h
  split at h
  · cases h
    exact Thread.eq_done_of_result? (Option.some_get _).symm
  · cases h

/-- What a lane of a program can do next: the program itself, which is `none`, or a
thread of its fork. -/
def next : Program κ τ σ β α → Option τ → Offer κ σ (Program κ τ σ β α)
  | .done _, _ => .idle
  | .send c x next, none => .send c x next
  | .receive c next, none => .receive c next
  | .fork threads join, none =>
      match results? threads with
      | some b => .proceed (join b)
      | none => .idle
  | .fork threads join, some t =>
      (threads t).offer.map (fun _ => line t) fun th =>
        .fork (Function.update threads t th) join
  | _, some _ => .idle

variable {line}

/-- A fork goes on once none of its threads has anything left to do. -/
theorem idle_of_join {threads : τ → Thread σ β} {join : (τ → β) → Program κ τ σ β α} {t : τ}
    {a b : Act κ σ} {P Q : Program κ τ σ β α}
    (hjoin : (next line (.fork threads join) none).Takes a P) :
    ¬ (next line (.fork threads join) (some t)).Takes b Q := by
  intro hthread
  simp only [next] at hjoin hthread
  split at hjoin
  · rename_i hresults
    rw [eq_done_of_results? hresults t] at hthread
    cases hthread
  · cases hjoin

/-- The threads of a fork do not get in each other's way. -/
theorem concurrent (hline : Function.Injective line) :
    Concurrent (next line : Program κ τ σ β α → Option τ → _) where
  diamond := by
    intro P Q R l m a b hne ha hb
    cases P with
    | done x => cases ha
    | send c x P =>
        cases l with
        | none =>
            cases m with
            | none => exact absurd rfl hne
            | some t => cases hb
        | some t => cases ha
    | receive c P =>
        cases l with
        | none =>
            cases m with
            | none => exact absurd rfl hne
            | some t => cases hb
        | some t => cases ha
    | fork threads join =>
        cases l with
        | none =>
            cases m with
            | none => exact absurd rfl hne
            | some t => exact absurd hb (idle_of_join ha)
        | some t =>
            cases m with
            | none => exact absurd ha (idle_of_join hb)
            | some t' =>
                have htt' : t ≠ t' := fun h => hne (congrArg some h)
                obtain ⟨a', th, hth, rfl, rfl⟩ := Offer.Takes.of_map ha
                obtain ⟨b', th', hth', rfl, rfl⟩ := Offer.Takes.of_map hb
                refine ⟨?_, .fork (Function.update (Function.update threads t th) t' th') join,
                  ?_, ?_⟩
                · exact Act.apart_map (fun h => htt' (hline h)) a' b'
                · rw [← Function.update_of_ne htt'.symm th threads] at hth'
                  exact hth'.map _ _
                · rw [← Function.update_of_ne htt' th' threads] at hth
                  rw [Function.update_comm htt']
                  exact hth.map _ _

end Steps

/-! ## What a program can come to -/

/-- Some cells that the program may receive bring it to `a`. -/
inductive Yields : Program κ τ σ β α → α → Prop
  | done (a : α) : Yields (.done a) a
  | send {next : Program κ τ σ β α} {a : α} (c : κ) (x : σ) (rest : Yields next a) :
      Yields (.send c x next) a
  | receive {next : σ → Program κ τ σ β α} {a : α} (c : κ) (x : σ) (rest : Yields (next x) a) :
      Yields (.receive c next) a
  | fork {threads : τ → Thread σ β} {join : (τ → β) → Program κ τ σ β α} {a : α} (b : τ → β)
      (rest : Yields (join b) a) : Yields (.fork threads join) a

/-- A thread that has sent comes to what it comes to then. -/
theorem Yields.of_sendAll {c : κ} {f : Unit → Thread σ α} {a : α} :
    ∀ {xs : List σ},
      (onLine c ((Thread.sendAll xs).bind f) : Program κ τ σ β α).Yields a →
        (onLine c (f ()) : Program κ τ σ β α).Yields a := by
  intro xs
  induction xs with
  | nil =>
      intro h
      exact h
  | cons x xs ih =>
      intro h
      cases h with
      | send _ _ rest => exact ih rest

/-- What follows a program starts from something that the program can come to. -/
theorem Yields.of_bind {P : Program κ τ σ β α} {f : α → Program κ τ σ β α'} {b : α'}
    (h : (P >>= f).Yields b) : ∃ a, P.Yields a ∧ (f a).Yields b := by
  induction P with
  | done a => exact ⟨a, .done a, h⟩
  | send c x P ih =>
      cases h with
      | send _ _ rest =>
          obtain ⟨a, ha, hb⟩ := ih rest
          exact ⟨a, .send c x ha, hb⟩
  | receive c P ih =>
      cases h with
      | receive _ x rest =>
          obtain ⟨a, ha, hb⟩ := ih x rest
          exact ⟨a, .receive c x ha, hb⟩
  | fork threads join ih =>
      cases h with
      | fork results rest =>
          obtain ⟨a, ha, hb⟩ := ih results rest
          exact ⟨a, .fork results ha, hb⟩

/-- No step adds to what a program can come to. -/
theorem Yields.of_takes [Fintype τ] [DecidableEq τ] {line : τ → κ} {P Q : Program κ τ σ β α}
    {l : Option τ} {act : Act κ σ} {a : α} (h : (next line P l).Takes act Q) (hQ : Q.Yields a) :
    P.Yields a := by
  cases P with
  | done b => cases h
  | send c x P =>
      cases l with
      | none =>
          cases h with
          | send => exact .send c x hQ
      | some t => cases h
  | receive c P =>
      cases l with
      | none =>
          cases h with
          | receive _ x => exact .receive c x hQ
      | some t => cases h
  | fork threads join =>
      cases l with
      | none =>
          simp only [next] at h
          split at h
          · cases h with
            | proceed => exact .fork _ hQ
          · cases h
      | some t =>
          obtain ⟨act', th, hth, rfl, rfl⟩ := Offer.Takes.of_map h
          cases hQ with
          | fork b rest => exact .fork b rest

/-! ## Runs -/

section Runs

variable [Fintype τ] [DecidableEq τ] [DecidableEq κ] {ρ : Type} [DecidableEq ρ] {line : τ → κ}
  {peer : ρ → ρ} {room : ρ × κ → ℕ} {p q : ρ} (h : Facing peer p q) (hroom : ∀ k, 0 < room k)

/-- The steps of two parties with programs. -/
abbrev Step (line : τ → κ) (peer : ρ → ρ) (room : ρ × κ → ℕ) :
    Net ρ κ σ (Program κ τ σ β α) → ρ × Option τ → Net ρ κ σ (Program κ τ σ β α) → Prop :=
  Net.Step (next line) peer room

theorem Yields.of_step {s t : Net ρ κ σ (Program κ τ σ β α)} {l : ρ × Option τ} {r : ρ} {a : α}
    (hstep : Step line peer room s l t) (ht : (t.party r).Yields a) : (s.party r).Yields a := by
  cases hstep with
  | @mk q l act P lines htakes heffect =>
      have hyields : Yields (Function.update s.party q P r) a := ht
      by_cases hr : r = q
      · subst hr
        rw [Function.update_self] at hyields
        exact Yields.of_takes htakes hyields
      · rwa [Function.update_of_ne hr] at hyields

/-- Whatever the lines bring, a party ends with what its program can come to. -/
theorem Yields.of_run {s t : Net ρ κ σ (Program κ τ σ β α)} {ls : List (ρ × Option τ)}
    (hrun : Run (Step line peer room) s ls t) {r : ρ} {a : α} (ht : (t.party r).Yields a) :
    (s.party r).Yields a := by
  induction hrun with
  | nil s => exact ht
  | cons first _ ih => exact Yields.of_step first (ih ht)

include h hroom

/-- The left party sends to the right one. -/
theorem run_left {P P' Q : Program κ τ σ β α} {l m : Option τ} {c : κ} {x : σ}
    {f : σ → Program κ τ σ β α} (hsend : next line P l = .send c x P')
    (hreceive : next line Q m = .receive c f) :
    Run (Step line peer room) (Net.between p P Q) [(p, l), (q, m)] (Net.between p P' (f x)) := by
  let s : Net ρ κ σ (Program κ τ σ β α) := Net.between p P Q
  have hP : next line (s.party p) l = .send c x P' := by rwa [Net.between_left]
  have hQ : next line (s.party q) m = .receive c f := by rwa [Net.between_of_ne _ _ h.ne.symm]
  have hrun := Net.rendezvous s.party hroom h.ne h.right hP hQ
  rwa [Net.update_left, h.update_right] at hrun

/-- The right party sends to the left one. -/
theorem run_right {P Q Q' : Program κ τ σ β α} {l m : Option τ} {c : κ} {x : σ}
    {f : σ → Program κ τ σ β α} (hreceive : next line P l = .receive c f)
    (hsend : next line Q m = .send c x Q') :
    Run (Step line peer room) (Net.between p P Q) [(q, m), (p, l)] (Net.between p (f x) Q') := by
  let s : Net ρ κ σ (Program κ τ σ β α) := Net.between p P Q
  have hP : next line (s.party p) l = .receive c f := by rwa [Net.between_left]
  have hQ : next line (s.party q) m = .send c x Q' := by rwa [Net.between_of_ne _ _ h.ne.symm]
  have hrun := Net.rendezvous s.party hroom h.ne.symm h.left hQ hP
  rwa [h.update_right, Net.update_left] at hrun

omit hroom in
/-- Both parties go on after a fork. -/
theorem run_join (b b' : τ → β) (join join' : (τ → β) → Program κ τ σ β α) :
    Run (Step line peer room)
      (Net.between p (.fork (fun t => .done (b t)) join) (.fork (fun t => .done (b' t)) join'))
      [(p, none), (q, none)] (Net.between p (join b) (join' b')) := by
  have htakes : ∀ (b : τ → β) (join : (τ → β) → Program κ τ σ β α),
      (next line (.fork (fun t => .done (b t)) join) none).Takes .proceed (join b) := by
    intro b join
    simp only [next, results?_done]
    exact .proceed (join b)
  let s : Net ρ κ σ (Program κ τ σ β α) :=
    Net.between p (.fork (fun t => .done (b t)) join) (.fork (fun t => .done (b' t)) join')
  have heffect : ∀ r, (Act.proceed).Effect peer room r s.lines s.lines := fun r => .proceed s.lines
  have hfirst := Net.step_of s.party (Net.between_left _ _) (htakes b join) (heffect p)
  rw [Net.update_left] at hfirst
  have hsecond := Net.step_of (Net.between p (join b) (.fork (fun t => .done (b' t)) join') :
    Net ρ κ σ (Program κ τ σ β α)).party (Net.between_of_ne _ _ h.ne.symm) (htakes b' join')
      (heffect q)
  rw [h.update_right] at hsecond
  exact .cons hfirst (.cons hsecond (.nil _))

/-- Thread `t` of both forks is run to its end. -/
theorem run_thread {t : τ} {A B : Thread σ β} {b b' : β} (hmeets : A.Meets B b b')
    (threads threads' : τ → Thread σ β) (hA : threads t = A) (hB : threads' t = B)
    (join join' : (τ → β) → Program κ τ σ β α) :
    ∃ ref, Run (Step line peer room) (Net.between p (.fork threads join) (.fork threads' join')) ref
      (Net.between p (.fork (Function.update threads t (.done b)) join)
        (.fork (Function.update threads' t (.done b')) join')) := by
  induction hmeets generalizing threads threads' with
  | done b b' =>
      rw [← hA, ← hB, Function.update_eq_self, Function.update_eq_self]
      exact ⟨[], .nil _⟩
  | @left A B b b' x _ ih =>
      have hstep := run_left h hroom (l := some t) (m := some t)
        (show next line (.fork threads join) (some t) = _ by simp only [next, hA]; rfl)
        (show next line (.fork threads' join') (some t) = _ by simp only [next, hB]; rfl)
      obtain ⟨ref, href⟩ := ih _ _ (Function.update_self t A threads)
        (Function.update_self t (B x) threads')
      rw [Function.update_idem, Function.update_idem] at href
      exact ⟨_, hstep.append href⟩
  | @right A B b b' x _ ih =>
      have hstep := run_right h hroom (l := some t) (m := some t)
        (show next line (.fork threads join) (some t) = _ by simp only [next, hA]; rfl)
        (show next line (.fork threads' join') (some t) = _ by simp only [next, hB]; rfl)
      obtain ⟨ref, href⟩ := ih _ _ (Function.update_self t (A x) threads)
        (Function.update_self t B threads')
      rw [Function.update_idem, Function.update_idem] at href
      exact ⟨_, hstep.append href⟩

/-- All threads of both forks are run to their ends, one after the other. -/
theorem run_threads {left right : τ → Thread σ β} {b b' : τ → β}
    (hmeets : ∀ t, (left t).Meets (right t) (b t) (b' t))
    (join join' : (τ → β) → Program κ τ σ β α) (ended : Finset τ) :
    ∃ ref, Run (Step line peer room) (Net.between p (.fork left join) (.fork right join')) ref
      (Net.between p (.fork (fun t => if t ∈ ended then .done (b t) else left t) join)
        (.fork (fun t => if t ∈ ended then .done (b' t) else right t) join')) := by
  have hinsert : ∀ (threads : τ → Thread σ β) (b : τ → β) (t : τ) (ended : Finset τ),
      Function.update (fun t => if t ∈ ended then .done (b t) else threads t) t (.done (b t)) =
        fun k => if k ∈ insert t ended then .done (b k) else threads k := by
    intro threads b t ended
    funext k
    by_cases hk : k = t
    · subst hk
      rw [Function.update_self, if_pos (Finset.mem_insert_self k ended)]
    · rw [Function.update_of_ne hk]
      simp only [Finset.mem_insert, hk, false_or]
  induction ended using Finset.induction_on with
  | empty =>
      simp only [Finset.notMem_empty, if_false]
      exact ⟨[], .nil _⟩
  | insert t ended ht ih =>
      obtain ⟨ref, href⟩ := ih
      obtain ⟨ref', href'⟩ := run_thread h hroom (hmeets t)
        (fun k => if k ∈ ended then .done (b k) else left k)
        (fun k => if k ∈ ended then .done (b' k) else right k) (if_neg ht) (if_neg ht) join join'
      rw [hinsert, hinsert] at href'
      exact ⟨ref ++ ref', href.append href'⟩

/-- Programs that meet can be run to their ends. -/
theorem Meets.exists_run {P Q : Program κ τ σ β α} {a a' : α} (hmeets : P.Meets Q a a') :
    ∃ ref, Run (Step line peer room) (Net.between p P Q) ref
      (Net.between p (.done a) (.done a')) := by
  induction hmeets with
  | done a a' => exact ⟨[], .nil _⟩
  | left c x _ ih =>
      obtain ⟨ref, href⟩ := ih
      exact ⟨_, (run_left h hroom (l := none) (m := none) rfl rfl).append href⟩
  | right c x _ ih =>
      obtain ⟨ref, href⟩ := ih
      exact ⟨_, (run_right h hroom (l := none) (m := none) rfl rfl).append href⟩
  | @fork left right join join' b b' a a' threads _ ih =>
      obtain ⟨ref, href⟩ := run_threads h hroom threads join join' Finset.univ
      obtain ⟨ref', href'⟩ := ih
      simp only [Finset.mem_univ, if_true] at href
      exact ⟨_, (href.append (run_join h b b' join join')).append href'⟩

/-- However the steps of the parties and of their threads are ordered, and however
little room the lines have, programs that meet come to their ends, with the results
of the meeting and nothing left on the lines. -/
theorem Meets.endsIn (hline : Function.Injective line) {P Q : Program κ τ σ β α} {a a' : α}
    (hmeets : P.Meets Q a a') :
    ∃ n, EndsIn (Step line peer room) n (Net.between p P Q)
      (Net.between p (.done a) (.done a')) := by
  obtain ⟨ref, href⟩ := hmeets.exists_run h hroom
  refine ⟨ref.length, ((concurrent hline).independent h.injective).endsIn href ?_⟩
  rintro l t hstep
  cases hstep with
  | @mk r l act P lines htakes heffect =>
      rcases h.only r with rfl | rfl
      · rw [Net.between_left] at htakes
        cases htakes
      · rw [Net.between_of_ne _ _ h.ne.symm] at htakes
        cases htakes

end Runs

end Program

end Sectric.Lib
