import Mathlib.Data.List.Basic

/-!
# The lines of a text

A line ends before a newline, or where the text ends.  A text that ends in a
newline has no empty line after it.  Lines without a newline, each written with
one behind it, are the lines of what is written, and the last of them may lack
its newline unless it is empty.
-/

namespace Sectric.Lib

variable {α : Type} [DecidableEq α] (newline : α)

/-- A character in front of a text. -/
def consLine (c : α) : List (List α) → List (List α)
  | [] => [[c]]
  | line :: lines => (c :: line) :: lines

/-- The lines of a text. -/
def linesOf : List α → List (List α)
  | [] => []
  | c :: text => if c = newline then [] :: linesOf text else consLine c (linesOf text)

/-- Lines, each with a newline behind it. -/
def unlines (lines : List (List α)) : List α := lines.flatMap fun line => line ++ [newline]

variable {newline}

/-- The first line goes up to the first newline. -/
theorem linesOf_append {line : List α} (hline : newline ∉ line) (text : List α) :
    linesOf newline (line ++ newline :: text) = line :: linesOf newline text := by
  induction line with
  | nil => simp [linesOf]
  | cons c line ih =>
      rw [List.mem_cons, not_or] at hline
      obtain ⟨hc, hline⟩ := hline
      rw [List.cons_append, linesOf, if_neg (Ne.symm hc), ih hline, consLine]

/-- A text without a newline is a line unless it is empty. -/
theorem linesOf_last {line : List α} (hline : newline ∉ line) (hne : line ≠ []) :
    linesOf newline line = [line] := by
  induction line with
  | nil => exact absurd rfl hne
  | cons c line ih =>
      rw [List.mem_cons, not_or] at hline
      obtain ⟨hc, hline⟩ := hline
      rw [linesOf, if_neg (Ne.symm hc)]
      rcases line with _ | ⟨d, line⟩
      · rfl
      · rw [ih hline (List.cons_ne_nil _ _), consLine]

/-- Lines are read off what is written, whatever follows. -/
theorem linesOf_unlines_append {lines : List (List α)} (hlines : ∀ line ∈ lines, newline ∉ line)
    (text : List α) :
    linesOf newline (unlines newline lines ++ text) = lines ++ linesOf newline text := by
  induction lines with
  | nil => rfl
  | cons line lines ih =>
      have hline := hlines line (List.mem_cons_self ..)
      have htail := ih fun l hl => hlines l (List.mem_cons_of_mem _ hl)
      have hsplit : unlines newline (line :: lines) ++ text =
          line ++ newline :: (unlines newline lines ++ text) := by
        simp [unlines]
      rw [hsplit, linesOf_append hline, htail, List.cons_append]

theorem linesOf_unlines {lines : List (List α)} (hlines : ∀ line ∈ lines, newline ∉ line) :
    linesOf newline (unlines newline lines) = lines := by
  have h := linesOf_unlines_append hlines []
  rwa [List.append_nil, linesOf, List.append_nil] at h

/-- The last newline may be missing. -/
theorem linesOf_unlines_last {lines : List (List α)} {last : List α}
    (hlines : ∀ line ∈ lines, newline ∉ line) (hlast : newline ∉ last) (hne : last ≠ []) :
    linesOf newline (unlines newline lines ++ last) = lines ++ [last] := by
  rw [linesOf_unlines_append hlines, linesOf_last hlast hne]

omit [DecidableEq α] in
theorem mem_unlines {lines : List (List α)} {c : α} :
    c ∈ unlines newline lines → c = newline ∨ ∃ line ∈ lines, c ∈ line := by
  intro hc
  obtain ⟨line, hline, hc⟩ := List.mem_flatMap.mp hc
  rcases List.mem_append.mp hc with hc | hc
  · exact .inr ⟨line, hline, hc⟩
  · exact .inl (List.mem_singleton.mp hc)

/-- A line is made of characters of the text. -/
theorem mem_of_mem_linesOf {text line : List α} (hline : line ∈ linesOf newline text) {c : α}
    (hc : c ∈ line) : c ∈ text ∧ c ≠ newline := by
  induction text generalizing line with
  | nil => cases hline
  | cons d text ih =>
      rw [linesOf] at hline
      split at hline
      · rename_i hd
        rcases List.mem_cons.mp hline with rfl | hline
        · cases hc
        · obtain ⟨htext, hne⟩ := ih hline hc
          exact ⟨List.mem_cons_of_mem _ htext, hne⟩
      · rename_i hd
        generalize hlines : linesOf newline text = lines at hline ih
        cases lines with
        | nil =>
            obtain rfl : line = [d] := by simpa [consLine] using hline
            obtain rfl := List.mem_singleton.mp hc
            exact ⟨List.mem_cons_self .., hd⟩
        | cons first lines =>
            rw [consLine] at hline
            rcases List.mem_cons.mp hline with rfl | hline
            · rcases List.mem_cons.mp hc with rfl | hc
              · exact ⟨List.mem_cons_self .., hd⟩
              · obtain ⟨htext, hne⟩ := ih (List.mem_cons_self ..) hc
                exact ⟨List.mem_cons_of_mem _ htext, hne⟩
            · obtain ⟨htext, hne⟩ := ih (List.mem_cons_of_mem _ hline) hc
              exact ⟨List.mem_cons_of_mem _ htext, hne⟩

end Sectric.Lib
