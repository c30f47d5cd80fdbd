import Mathlib.Data.List.SplitLengths
import Sectric.Lib.Interleaving

/-!
# A pipe that is read in pieces

What is written is appended to the pipe.  A reader asks for a number of cells and
has its answer when there are that many.  The answers are the pieces of what is
written, of the sizes asked for, whatever the order of writes, questions and answers
(`Pipe.returned_eq`).
-/

namespace Sectric.Lib

variable {α : Type}

/-- The cells not read, the size asked for, and the answers so far. -/
structure Pipe (α : Type) where
  unread : List α
  asked : Option ℕ
  returned : List (List α)

/-- What happens next. -/
inductive PipeEvent (α : Type)
  | write (xs : List α)
  | ask (n : ℕ)
  | answer

namespace Pipe

/-- Nothing is written or asked for. -/
def empty : Pipe α := ⟨[], none, []⟩

/-- A step of the pipe and its reader. -/
def step (s : Pipe α) : PipeEvent α → Option (Pipe α)
  | .write xs => some { s with unread := s.unread ++ xs }
  | .ask n => if s.asked = none then some { s with asked := some n } else none
  | .answer =>
      match s.asked with
      | none => none
      | some n =>
          if n ≤ s.unread.length then
            some ⟨s.unread.drop n, none, s.returned ++ [s.unread.take n]⟩
          else none

theorem step_answer {s : Pipe α} {n : ℕ} (hasked : s.asked = some n) (hle : n ≤ s.unread.length) :
    s.step .answer = some ⟨s.unread.drop n, none, s.returned ++ [s.unread.take n]⟩ := by
  simp only [step, hasked, if_pos hle]

/-- The steps of a pipe. -/
def Step (s : Pipe α) (e : PipeEvent α) (t : Pipe α) : Prop := s.step e = some t

/-- What the events write. -/
def written (es : List (PipeEvent α)) : List α :=
  es.flatMap fun
    | .write xs => xs
    | .ask _ => []
    | .answer => []

/-- The sizes the events ask for. -/
def sizes (es : List (PipeEvent α)) : List ℕ :=
  es.filterMap fun
    | .write _ => none
    | .ask n => some n
    | .answer => none

@[simp] theorem written_nil : written ([] : List (PipeEvent α)) = [] := rfl
@[simp] theorem sizes_nil : sizes ([] : List (PipeEvent α)) = [] := rfl

@[simp] theorem written_append (es es' : List (PipeEvent α)) :
    written (es ++ es') = written es ++ written es' := by
  simp [written]

@[simp] theorem sizes_append (es es' : List (PipeEvent α)) :
    sizes (es ++ es') = sizes es ++ sizes es' := by
  simp [sizes]

/-- A run moves cells from what is written to the answers, and sizes from the questions
to the answers. -/
theorem run_conserves {s t : Pipe α} {es : List (PipeEvent α)} (h : Run Step s es t) :
    t.returned.flatten ++ t.unread = s.returned.flatten ++ s.unread ++ written es ∧
      t.returned.map List.length ++ t.asked.toList =
        s.returned.map List.length ++ s.asked.toList ++ sizes es := by
  induction h with
  | nil s => simp
  | @cons s s' t e es first _ ih =>
      obtain ⟨hcells, hsizes⟩ := ih
      cases e with
      | write xs =>
          obtain rfl := Option.some.inj first
          rw [hcells, hsizes]
          simp [written, sizes]
      | ask n =>
          obtain ⟨hnone, hs⟩ := Option.ite_none_right_eq_some.mp first
          obtain rfl := Option.some.inj hs
          rw [hcells, hsizes, hnone]
          simp [written, sizes]
      | answer =>
          rw [Step, step] at first
          split at first
          · cases first
          · rename_i n hasked
            obtain ⟨hle, hs⟩ := Option.ite_none_right_eq_some.mp first
            obtain rfl := Option.some.inj hs
            rw [hcells, hsizes, hasked]
            simp [written, sizes, hle]

/-- Pieces are cut off what they are followed by. -/
theorem splitLengths_map_length (pieces : List (List α)) (rest : List α) :
    (pieces.map List.length).splitLengths (pieces.flatten ++ rest) = pieces := by
  induction pieces with
  | nil => rfl
  | cons piece pieces ih =>
      rw [List.map_cons, List.splitLengths_cons, List.flatten_cons, List.append_assoc,
        List.take_left, List.drop_left, ih]

/-- The answers are the pieces of what is written, of the sizes asked for. -/
theorem returned_eq {t : Pipe α} {es : List (PipeEvent α)} (h : Run Step empty es t) :
    t.returned = ((sizes es).take t.returned.length).splitLengths (written es) := by
  obtain ⟨hcells, hsizes⟩ := run_conserves h
  have hcells : t.returned.flatten ++ t.unread = written es := hcells
  have hsizes : t.returned.map List.length ++ t.asked.toList = sizes es := hsizes
  have htake : (sizes es).take t.returned.length = t.returned.map List.length := by
    rw [← hsizes, List.take_left' (List.length_map ..)]
  rw [htake, ← hcells, splitLengths_map_length]

end Pipe

end Sectric.Lib
