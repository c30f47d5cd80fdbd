import Mathlib.Data.Fintype.Basic
import Mathlib.Logic.Function.Basic
import Sectric.Lib.Interleaving

/-!
# Parties over bounded lines

Every party sends over lines that its peer receives from, one cell at a time.  A
line holds the cells that are sent and not received, in order, and has room for
so many.  A party that sends into a full line waits, and so does one that
receives from an empty line.

What the lanes of a party do next is given by `next`.  Lanes of one party that
are at work at the same time use different lines (`Concurrent`).  Then the steps
of the network are independent (`Concurrent.independent`): a line has one writer
and one reader, and these do not get in each other's way.
-/

namespace Sectric.Lib

/-! ## Offers -/

/-- What a lane can do next. -/
inductive Offer (κ σ S : Type) where
  | idle
  | send (c : κ) (x : σ) (next : S)
  | receive (c : κ) (next : σ → S)
  | proceed (next : S)

/-- What a lane does. -/
inductive Act (κ σ : Type) where
  | send (c : κ) (x : σ)
  | receive (c : κ) (x : σ)
  | proceed

variable {κ κ' σ S S' ρ Λ : Type}

/-- The line of an action. -/
def Act.line? : Act κ σ → Option κ
  | .send c _ => some c
  | .receive c _ => some c
  | .proceed => none

/-- Two actions on different lines. -/
def Act.Apart (a b : Act κ σ) : Prop := ∀ c, a.line? = some c → b.line? ≠ some c

/-- Taking up an offer. -/
inductive Offer.Takes : Offer κ σ S → Act κ σ → S → Prop
  | send (c : κ) (x : σ) (s : S) : Takes (.send c x s) (.send c x) s
  | receive (c : κ) (x : σ) (next : σ → S) : Takes (.receive c next) (.receive c x) (next x)
  | proceed (s : S) : Takes (.proceed s) .proceed s

/-- An offer seen from outside. -/
def Offer.map (line : κ → κ') (f : S → S') : Offer κ σ S → Offer κ' σ S'
  | .idle => .idle
  | .send c x s => .send (line c) x (f s)
  | .receive c next => .receive (line c) fun x => f (next x)
  | .proceed s => .proceed (f s)

def Act.map (line : κ → κ') : Act κ σ → Act κ' σ
  | .send c x => .send (line c) x
  | .receive c x => .receive (line c) x
  | .proceed => .proceed

theorem Act.line?_map (line : κ → κ') (a : Act κ σ) : (a.map line).line? = a.line?.map line := by
  cases a with
  | send c x => rfl
  | receive c x => rfl
  | proceed => rfl

/-- Seen from outside, actions of two lanes with a line each are apart. -/
theorem Act.apart_map {l m : κ'} (h : l ≠ m) (a b : Act κ σ) :
    (a.map fun _ => l).Apart (b.map fun _ => m) := by
  intro c ha hb
  rw [Act.line?_map] at ha hb
  obtain ⟨-, -, rfl⟩ := Option.map_eq_some_iff.mp ha
  obtain ⟨-, -, hm⟩ := Option.map_eq_some_iff.mp hb
  exact h hm.symm

theorem Offer.Takes.map {o : Offer κ σ S} {a : Act κ σ} {s : S} (line : κ → κ') (f : S → S')
    (h : o.Takes a s) : (o.map line f).Takes (a.map line) (f s) := by
  cases h with
  | send c x s => exact .send (line c) x (f s)
  | receive c x next => exact .receive (line c) x fun x => f (next x)
  | proceed s => exact .proceed (f s)

theorem Offer.Takes.of_map {o : Offer κ σ S} {line : κ → κ'} {f : S → S'} {b : Act κ' σ} {t : S'}
    (h : (o.map line f).Takes b t) : ∃ a s, o.Takes a s ∧ b = a.map line ∧ t = f s := by
  cases o with
  | idle => cases h
  | send c x s =>
      cases h with
      | send => exact ⟨_, _, .send c x s, rfl, rfl⟩
  | receive c next =>
      cases h with
      | receive _ x => exact ⟨_, _, .receive c x next, rfl, rfl⟩
  | proceed s =>
      cases h with
      | proceed => exact ⟨_, _, .proceed s, rfl, rfl⟩

/-! ## Lines -/

section Lines

variable [DecidableEq ρ] [DecidableEq κ]

/-- What an action of party `p` does to the lines.  Line `(p, c)` is what `p` sends
over `c`. -/
inductive Act.Effect (peer : ρ → ρ) (room : ρ × κ → ℕ) (p : ρ) :
    Act κ σ → (ρ × κ → List σ) → (ρ × κ → List σ) → Prop
  | send {lines : ρ × κ → List σ} (c : κ) (x : σ) (hroom : (lines (p, c)).length < room (p, c)) :
      Effect peer room p (.send c x) lines (Function.update lines (p, c) (lines (p, c) ++ [x]))
  | receive {lines : ρ × κ → List σ} {rest : List σ} (c : κ) (x : σ)
      (hline : lines (peer p, c) = x :: rest) :
      Effect peer room p (.receive c x) lines (Function.update lines (peer p, c) rest)
  | proceed (lines : ρ × κ → List σ) : Effect peer room p .proceed lines lines

variable {peer : ρ → ρ} {room : ρ × κ → ℕ}

/-- A cell put at the end of a line and one taken off the front of a line, in either
order. -/
theorem push_pop {p q : ρ} {c d : κ} {x y : σ} {rest : List σ} {lines : ρ × κ → List σ}
    (hroom : (lines (p, c)).length < room (p, c)) (hline : lines (peer q, d) = y :: rest) :
    ∃ lines',
      (Act.receive d y).Effect peer room q (Function.update lines (p, c) (lines (p, c) ++ [x]))
        lines' ∧
      (Act.send c x).Effect peer room p (Function.update lines (peer q, d) rest) lines' := by
  by_cases h : (p, c) = (peer q, d)
  · rw [h] at hroom ⊢
    rw [hline] at hroom ⊢
    refine ⟨Function.update lines (peer q, d) (rest ++ [x]), ?_, ?_⟩
    · have hpop : (Act.receive d y).Effect peer room q
          (Function.update lines (peer q, d) (y :: rest ++ [x])) _ :=
        .receive d y (Function.update_self ..)
      rwa [Function.update_idem] at hpop
    · obtain ⟨rfl, rfl⟩ := Prod.mk.inj h
      have hpush : (Act.send c x).Effect peer room (peer q)
          (Function.update lines (peer q, c) rest) _ :=
        .send c x (by rw [Function.update_self]; exact Nat.lt_of_succ_lt hroom)
      rwa [Function.update_self, Function.update_idem] at hpush
  · refine ⟨Function.update (Function.update lines (p, c) (lines (p, c) ++ [x])) (peer q, d) rest,
      .receive d y ((Function.update_of_ne (Ne.symm h) ..).trans hline), ?_⟩
    rw [Function.update_comm h]
    have hpush : (Act.send c x).Effect peer room p (Function.update lines (peer q, d) rest) _ :=
      .send c x (by rw [Function.update_of_ne h]; exact hroom)
    rwa [Function.update_of_ne h] at hpush

/-- The effects of two parties, or of two actions of a party on different lines, can
be exchanged. -/
theorem Act.Effect.diamond (hpeer : Function.Injective peer) {p q : ρ} {a b : Act κ σ}
    {lines lines₁ lines₂ : ρ × κ → List σ} (h₁ : a.Effect peer room p lines lines₁)
    (h₂ : b.Effect peer room q lines lines₂) (hapart : p ≠ q ∨ a.Apart b) :
    ∃ lines', b.Effect peer room q lines₁ lines' ∧ a.Effect peer room p lines₂ lines' := by
  cases h₁ with
  | proceed => exact ⟨lines₂, h₂, .proceed lines₂⟩
  | send c x hroom =>
      cases h₂ with
      | proceed => exact ⟨_, .proceed _, .send c x hroom⟩
      | receive d y hline => exact push_pop hroom hline
      | send d y hroom' =>
          have hne : (p, c) ≠ (q, d) := by
            rintro h
            obtain ⟨hpq, rfl⟩ := Prod.mk.inj h
            rcases hapart with hne | hapart
            · exact hne hpq
            · exact hapart c rfl rfl
          refine ⟨_, .send d y ?_, ?_⟩
          · rw [Function.update_of_ne hne.symm]
            exact hroom'
          · rw [Function.update_of_ne hne.symm, Function.update_comm hne]
            have hpush : (Act.send c x).Effect peer room p
                (Function.update lines (q, d) (lines (q, d) ++ [y])) _ :=
              .send c x (by rw [Function.update_of_ne hne]; exact hroom)
            rwa [Function.update_of_ne hne] at hpush
  | receive c x hline =>
      cases h₂ with
      | proceed => exact ⟨_, .proceed _, .receive c x hline⟩
      | send d y hroom =>
          obtain ⟨lines', hpop, hpush⟩ := push_pop hroom hline
          exact ⟨lines', hpush, hpop⟩
      | receive d y hline' =>
          have hne : (peer p, c) ≠ (peer q, d) := by
            rintro h
            obtain ⟨hpq, rfl⟩ := Prod.mk.inj h
            rcases hapart with hne | hapart
            · exact hne (hpeer hpq)
            · exact hapart c rfl rfl
          refine ⟨_, .receive d y ((Function.update_of_ne hne.symm ..).trans hline'), ?_⟩
          rw [Function.update_comm hne]
          exact .receive c x ((Function.update_of_ne hne ..).trans hline)

/-- An offer is taken up in one way only. -/
theorem Offer.Takes.functional {o : Offer κ σ S} {p : ρ} {a b : Act κ σ} {s t : S}
    {lines lines₁ lines₂ : ρ × κ → List σ} (hs : o.Takes a s) (ht : o.Takes b t)
    (h₁ : a.Effect peer room p lines lines₁) (h₂ : b.Effect peer room p lines lines₂) :
    s = t ∧ lines₁ = lines₂ := by
  cases hs with
  | send c x s =>
      cases ht
      cases h₁
      cases h₂
      exact ⟨rfl, rfl⟩
  | receive c x next =>
      cases ht with
      | receive _ y =>
          cases h₁ with
          | receive _ _ hline =>
              cases h₂ with
              | receive _ _ hline' =>
                  obtain ⟨rfl, rfl⟩ := List.cons.inj (hline.symm.trans hline')
                  exact ⟨rfl, rfl⟩
  | proceed s =>
      cases ht
      cases h₁
      cases h₂
      exact ⟨rfl, rfl⟩

end Lines

/-! ## The network -/

/-- The parties, and what is under way. -/
structure Net (ρ κ σ S : Type) where
  party : ρ → S
  lines : ρ × κ → List σ

section Network

variable [DecidableEq ρ] [DecidableEq κ] (next : S → Λ → Offer κ σ S) (peer : ρ → ρ)
  (room : ρ × κ → ℕ)

/-- A lane of a party takes up its offer. -/
inductive Net.Step : Net ρ κ σ S → ρ × Λ → Net ρ κ σ S → Prop
  | mk {s : Net ρ κ σ S} {p : ρ} {l : Λ} {a : Act κ σ} {P : S} {lines : ρ × κ → List σ}
      (htakes : (next (s.party p) l).Takes a P) (heffect : a.Effect peer room p s.lines lines) :
      Step s (p, l) { party := Function.update s.party p P, lines := lines }

/-- Lanes of a party that are at work at the same time use different lines and do
not get in each other's way. -/
structure Concurrent : Prop where
  diamond : ∀ {s t u : S} {l m : Λ} {a b : Act κ σ}, l ≠ m → (next s l).Takes a t →
    (next s m).Takes b u → a.Apart b ∧ ∃ v, (next t m).Takes b v ∧ (next u l).Takes a v

variable {next peer room}

theorem Net.step_of (party : ρ → S) {lines lines' : ρ × κ → List σ} {p : ρ} {l : Λ} {P Q : S}
    {a : Act κ σ} (hparty : party p = P) (htakes : (next P l).Takes a Q)
    (heffect : a.Effect peer room p lines lines') :
    Net.Step next peer room { party := party, lines := lines } (p, l)
      { party := Function.update party p Q, lines := lines' } := by
  subst hparty
  exact .mk htakes heffect

/-- The steps of a network are independent. -/
theorem Concurrent.independent (h : Concurrent next) (hpeer : Function.Injective peer) :
    Independent (Net.Step next peer room) where
  functional := by
    intro s t u l ht hu
    cases ht with
    | mk htakes heffect =>
        cases hu with
        | mk htakes' heffect' =>
            obtain ⟨rfl, rfl⟩ := htakes.functional htakes' heffect heffect'
            rfl
  diamond := by
    rintro s t u ⟨p, l⟩ ⟨q, m⟩ hne ht hu
    cases ht with
    | mk htakes heffect =>
        cases hu with
        | mk htakes' heffect' =>
            by_cases hpq : p = q
            · subst hpq
              have hlm : l ≠ m := fun hlm => hne (congrArg (Prod.mk p) hlm)
              obtain ⟨hapart, v, hv, hv'⟩ := h.diamond hlm htakes htakes'
              obtain ⟨lines, hlines, hlines'⟩ := heffect.diamond hpeer heffect' (.inr hapart)
              refine ⟨{ party := Function.update s.party p v, lines := lines }, ?_, ?_⟩
              · have hstep := Net.step_of (Function.update s.party p _) (Function.update_self ..)
                  hv hlines
                rwa [Function.update_idem] at hstep
              · have hstep := Net.step_of (Function.update s.party p _) (Function.update_self ..)
                  hv' hlines'
                rwa [Function.update_idem] at hstep
            · obtain ⟨lines, hlines, hlines'⟩ := heffect.diamond hpeer heffect' (.inl hpq)
              refine ⟨_, Net.step_of (Function.update s.party p _)
                (Function.update_of_ne (Ne.symm hpq) ..) htakes' hlines, ?_⟩
              rw [Function.update_comm hpq]
              exact Net.step_of (Function.update s.party q _) (Function.update_of_ne hpq ..) htakes
                hlines'

/-- A party sends to a waiting peer, and the lines are as before. -/
theorem Net.rendezvous (party : ρ → S) {p q : ρ} {l m : Λ} {c : κ} {x : σ} {P : S} {f : σ → S}
    (hroom : ∀ k, 0 < room k) (hne : p ≠ q) (hpeer : peer q = p)
    (hsend : next (party p) l = .send c x P) (hreceive : next (party q) m = .receive c f) :
    Run (Net.Step next peer room) { party := party, lines := fun _ => [] } [(p, l), (q, m)]
      { party := Function.update (Function.update party p P) q (f x), lines := fun _ => [] } := by
  have htakes : (next (party p) l).Takes (.send c x) P := hsend ▸ .send c x P
  have htakes' : (next (party q) m).Takes (.receive c x) (f x) := hreceive ▸ .receive c x f
  have hfirst : Net.Step next peer room { party := party, lines := fun _ => [] } (p, l) _ :=
    Net.step_of party rfl htakes (.send c x (hroom (p, c)))
  have hline : Function.update (fun _ => []) (p, c) ([] ++ [x]) (peer q, c) = [x] := by
    rw [hpeer, Function.update_self]
    rfl
  have hreceived : (Act.receive c x).Effect peer room q _ _ := .receive c x hline
  have hsecond := Net.step_of (Function.update party p P) (Function.update_of_ne hne.symm ..)
    htakes' hreceived
  rw [hpeer, Function.update_idem, Function.update_eq_self] at hsecond
  exact .cons hfirst (.cons hsecond (.nil _))

end Network

/-! ## Two parties -/

/-- The two parties are each other's peers. -/
structure Facing (peer : ρ → ρ) (p q : ρ) : Prop where
  ne : p ≠ q
  left : peer p = q
  right : peer q = p
  only : ∀ r, r = p ∨ r = q

theorem Facing.injective {peer : ρ → ρ} {p q : ρ} (h : Facing peer p q) :
    Function.Injective peer := by
  intro r r' heq
  rcases h.only r with rfl | rfl
  · rcases h.only r' with rfl | rfl
    · rfl
    · rw [h.left, h.right] at heq
      exact heq.symm
  · rcases h.only r' with rfl | rfl
    · rw [h.left, h.right] at heq
      exact heq.symm
    · rfl

section Between

variable [DecidableEq ρ]

/-- Two parties with nothing under way. -/
def Net.between (p : ρ) (P Q : S) : Net ρ κ σ S where
  party r := if r = p then P else Q
  lines _ := []

variable {p q : ρ} (P Q R : S)

theorem Net.between_left : (Net.between p P Q : Net ρ κ σ S).party p = P := if_pos rfl

theorem Net.between_of_ne (h : q ≠ p) : (Net.between p P Q : Net ρ κ σ S).party q = Q := if_neg h

theorem Net.update_left : Function.update (Net.between p P Q : Net ρ κ σ S).party p R =
    (Net.between p R Q : Net ρ κ σ S).party := by
  funext r
  by_cases hr : r = p
  · subst hr
    rw [Function.update_self, Net.between_left]
  · rw [Function.update_of_ne hr, Net.between_of_ne _ _ hr, Net.between_of_ne _ _ hr]

theorem Facing.update_right {peer : ρ → ρ} (h : Facing peer p q) :
    Function.update (Net.between p P Q : Net ρ κ σ S).party q R =
      (Net.between p P R : Net ρ κ σ S).party := by
  funext r
  rcases h.only r with rfl | rfl
  · rw [Function.update_of_ne h.ne, Net.between_left, Net.between_left]
  · rw [Function.update_self, Net.between_of_ne _ _ h.ne.symm]

end Between

end Sectric.Lib
