import Mathlib.Data.List.DropRight
import Sectric.Lib.Lines
import Sectric.Lib.Loop
import Sectric.Triangle.Model

/-!
# The files of the neighbours

A file has the number of a neighbour on each line.  Two programs read it.
`read_to_block` reads every line with `std::stoull`, which takes the number at
the front of the line, whatever follows, modulo `2 ^ 64` if it has a minus sign.
The script that starts the processes reads it with `int(line.strip())`, which
takes the whole line and a number of any size, and lets underscores stand
between digits.

Both read back what is written one number a line (`readers_of_listsNumbers`).  On
a file of digits, signs and blanks the numbers of the script determine what
`read_to_block` does (`readToBlock_of_readNeighbors`): it has the same numbers,
and fails at the first that does not fit.

A file is the list of its characters.
-/

namespace Sectric

open Lib (linesOf unlines linesOf_unlines linesOf_unlines_last mem_of_mem_linesOf mem_unlines
  mapM_eq_ok foldlM_pushing)

/-! ## `read_to_block` -/

/-- `isspace`. -/
def isSpace (c : Char) : Bool := c = ' ' ∨ ('\t'.toNat ≤ c.toNat ∧ c.toNat ≤ '\r'.toNat)

/-- A sign, if there is one, and what follows. -/
def splitSign : List Char → Bool × List Char
  | '-' :: str => (true, str)
  | '+' :: str => (false, str)
  | str => (false, str)

/-- The number that digits stand for. -/
def decimalValue (digits : List Char) : ℕ := Nat.ofDigitChars 10 digits 0

/-- `std::stoull`. -/
def stoull (str : List Char) : Except String Word :=
  let (negative, str) := splitSign (str.dropWhile isSpace)
  let digits := str.takeWhile Char.isDigit
  if digits = [] then .error "invalid_argument"
  else if 2 ^ 64 ≤ decimalValue digits then .error "out_of_range"
  else
    let value := BitVec.ofNat 64 (decimalValue digits)
    .ok (if negative then -value else value)

/-- The loop of `read_to_block`, one `getline` a round. -/
def readNumbers (text : List Char) : Except String (List Word) :=
  (linesOf '\n' text).foldlM (fun numbers line => do
    let number ← stoull line
    return numbers ++ [number]) []

/-- `read_to_block`, on the content of the file, if there is one. -/
def readToBlock (file : Option (List Char)) : Except String (List Block) :=
  match file with
  | none => .error "Could not open file"
  | some text => (readNumbers text).map u64sToBlocks

/-! ## The script -/

/-- The characters below `128` that `str.strip` takes off. -/
def isStripped (c : Char) : Bool := isSpace c ∨ ('\x1c'.toNat ≤ c.toNat ∧ c.toNat ≤ '\x1f'.toNat)

/-- `line.strip()`. -/
def strip (line : List Char) : List Char := (line.dropWhile isStripped).rdropWhile isStripped

/-- Digits, with single underscores between them. -/
def isDecimal : List Char → Bool
  | [] => false
  | [c] => c.isDigit
  | c :: '_' :: str => c.isDigit && isDecimal str
  | c :: str => c.isDigit && isDecimal str

/-- `int(str)` of a string without blanks around it. -/
def intOf (str : List Char) : Option ℤ :=
  let (negative, digits) := splitSign str
  if isDecimal digits then
    let value := decimalValue (digits.filter (· ≠ '_'))
    some (if negative then -value else value)
  else none

/-- The newlines of a file opened as text: `"\r\n"` and `"\r"` are read as `"\n"`. -/
def universalNewlines : List Char → List Char
  | [] => []
  | '\r' :: '\n' :: text => '\n' :: universalNewlines text
  | '\r' :: text => '\n' :: universalNewlines text
  | c :: text => c :: universalNewlines text

/-- `neighbors` of the script.  There is no result where `int` fails. -/
def readNeighbors (text : List Char) : Option (List ℤ) :=
  (linesOf '\n' (universalNewlines text)).mapM fun line => intOf (strip line)

/-! ## Digits -/

theorem isDigit_ne {c d : Char} (hc : c.isDigit = true) (hd : d.isDigit = false) : c ≠ d := by
  rintro rfl
  rw [hc] at hd
  cases hd

theorem isStripped_of_isDigit {c : Char} (hc : c.isDigit = true) : isStripped c = false := by
  have hle : 48 ≤ c.toNat := by
    simp only [Char.isDigit, Bool.and_eq_true, decide_eq_true_eq] at hc
    exact hc.1
  have hne : c ≠ ' ' := isDigit_ne hc (by decide)
  have htab : ¬ c.toNat ≤ 13 := by omega
  have hcontrol : ¬ c.toNat ≤ 31 := by omega
  simp [isStripped, isSpace, hne, htab, hcontrol]

theorem splitSign_of_isDigit {c : Char} {str : List Char} (hc : c.isDigit = true) :
    splitSign (c :: str) = (false, c :: str) := by
  have hminus : c ≠ '-' := isDigit_ne hc (by decide)
  have hplus : c ≠ '+' := isDigit_ne hc (by decide)
  unfold splitSign
  split
  · rename_i h
    exact absurd (List.cons.inj h).1 hminus
  · rename_i h
    exact absurd (List.cons.inj h).1 hplus
  · rfl

/-- Digits are a decimal number. -/
theorem isDecimal_of_digits {str : List Char} (hne : str ≠ []) (h : ∀ c ∈ str, c.isDigit = true) :
    isDecimal str = true := by
  induction str with
  | nil => exact absurd rfl hne
  | cons c str ih =>
      have hc := h c (List.mem_cons_self ..)
      have htail : ∀ d ∈ str, d.isDigit = true := fun d hd => h d (List.mem_cons_of_mem _ hd)
      rcases str with _ | ⟨d, str⟩
      · exact hc
      · have hd : d ≠ '_' := isDigit_ne (htail d (List.mem_cons_self ..)) (by decide)
        rw [isDecimal, hc, ih (List.cons_ne_nil _ _) htail]
        · rfl
        · simp
        · rintro str' h'
          exact hd (List.cons.inj h').1

/-- A decimal number without underscores is made of digits. -/
theorem digits_of_isDecimal {str : List Char} (h : isDecimal str = true) (hbare : '_' ∉ str) :
    str ≠ [] ∧ ∀ c ∈ str, c.isDigit = true := by
  fun_induction isDecimal str with
  | case1 => cases h
  | case2 c =>
      refine ⟨List.cons_ne_nil _ _, ?_⟩
      intro d hd
      rwa [List.mem_singleton.mp hd]
  | case3 c str ih => simp at hbare
  | case4 c str hstr hunder ih =>
      rw [Bool.and_eq_true] at h
      rw [List.mem_cons, not_or] at hbare
      obtain ⟨-, hdigits⟩ := ih h.2 hbare.2
      exact ⟨List.cons_ne_nil _ _, List.forall_mem_cons.mpr ⟨h.1, hdigits⟩⟩

theorem takeWhile_digits {digits rest : List Char} (hdigits : ∀ c ∈ digits, c.isDigit = true)
    (hrest : ∀ c ∈ rest.head?, c.isDigit = false) :
    (digits ++ rest).takeWhile Char.isDigit = digits := by
  rw [List.takeWhile_append_of_pos hdigits]
  cases rest with
  | nil => simp
  | cons c rest =>
      rw [List.takeWhile_cons, hrest c rfl]
      simp

/-! ## The two readers -/

/-- The characters of a number, with blanks and newlines. -/
def isPlain (c : Char) : Bool := c.isDigit || ['+', '-', ' ', '\t', '\n'].contains c

theorem isStripped_of_isPlain {c : Char} (hc : isPlain c = true) : isStripped c = isSpace c := by
  rw [isPlain, Bool.or_eq_true, List.contains_iff_mem] at hc
  rcases hc with hdigit | hmem
  · have hstripped := isStripped_of_isDigit hdigit
    have hspace : isSpace c = false := by
      cases hspace : isSpace c with
      | false => rfl
      | true =>
          rw [isStripped, hspace] at hstripped
          simp at hstripped
    rw [hstripped, hspace]
  · simp only [List.mem_cons, List.not_mem_nil, or_false] at hmem
    rcases hmem with rfl | rfl | rfl | rfl | rfl <;> rfl

theorem not_underscore_of_isPlain {c : Char} (hc : isPlain c = true) : c ≠ '_' := by
  rintro rfl
  cases hc

theorem splitSign_append {str : List Char} (hne : str ≠ []) (rest : List Char) :
    splitSign (str ++ rest) = ((splitSign str).1, (splitSign str).2 ++ rest) := by
  cases str with
  | nil => exact absurd rfl hne
  | cons c str =>
      rw [List.cons_append]
      by_cases hminus : c = '-'
      · subst hminus
        rfl
      · by_cases hplus : c = '+'
        · subst hplus
          rfl
        · have hbare : ∀ str : List Char, splitSign (c :: str) = (false, c :: str) := by
            intro str
            unfold splitSign
            split
            · rename_i h
              exact absurd (List.cons.inj h).1 hminus
            · rename_i h
              exact absurd (List.cons.inj h).1 hplus
            · rfl
          rw [hbare, hbare, List.cons_append]

theorem mem_of_mem_splitSign {str : List Char} {c : Char} (hc : c ∈ (splitSign str).2) :
    c ∈ str := by
  unfold splitSign at hc
  split at hc
  · exact List.mem_cons_of_mem _ hc
  · exact List.mem_cons_of_mem _ hc
  · exact hc

/-- What is taken off the end of a string. -/
theorem exists_stripped_tail (p : Char → Bool) (str : List Char) :
    ∃ tail, str = str.rdropWhile p ++ tail ∧ ∀ c ∈ tail, p c = true := by
  refine ⟨(str.reverse.takeWhile p).reverse, ?_, ?_⟩
  · rw [List.rdropWhile, ← List.reverse_append, List.takeWhile_append_dropWhile,
      List.reverse_reverse]
  · intro c hc
    exact List.mem_takeWhile_imp (List.mem_reverse.mp hc)

/-- A number of the script as a 64-bit number. -/
def checkedWord (n : ℤ) : Except String Word :=
  if 2 ^ 64 ≤ n.natAbs then .error "out_of_range" else .ok (BitVec.ofInt 64 n)

/-- What the script takes a line for determines what `std::stoull` does. -/
theorem stoull_of_intOf {line : List Char} (hline : ∀ c ∈ line, isPlain c = true) {n : ℤ}
    (h : intOf (strip line) = some n) : stoull line = checkedWord n := by
  have hfront : line.dropWhile isStripped = line.dropWhile isSpace := by
    clear h
    induction line with
    | nil => rfl
    | cons c line ih =>
        rw [List.dropWhile_cons, List.dropWhile_cons,
          isStripped_of_isPlain (hline c (List.mem_cons_self ..)),
          ih fun d hd => hline d (List.mem_cons_of_mem _ hd)]
  obtain ⟨tail, hsplit, htail⟩ := exists_stripped_tail isStripped (line.dropWhile isStripped)
  have hbody : line.dropWhile isSpace = strip line ++ tail := by rw [← hfront, hsplit, strip]
  have hplain : ∀ c ∈ strip line, isPlain c = true := by
    intro c hc
    have hdrop : c ∈ line.dropWhile isSpace := by
      rw [hbody]
      exact List.mem_append_left _ hc
    exact hline c ((List.dropWhile_suffix _).subset hdrop)
  have hne : strip line ≠ [] := by
    intro hnil
    rw [hnil] at h
    cases h
  rw [intOf] at h
  generalize hsign : splitSign (strip line) = signed at h
  obtain ⟨negative, digits⟩ := signed
  simp only at h
  split at h
  swap
  · cases h
  rename_i hdecimal
  have hmem : ∀ c ∈ digits, isPlain c = true := by
    intro c hc
    refine hplain c (mem_of_mem_splitSign ?_)
    rwa [hsign]
  obtain ⟨hdigits_ne, hdigits⟩ := digits_of_isDecimal hdecimal fun hunder =>
    not_underscore_of_isPlain (hmem _ hunder) rfl
  have hfilter : digits.filter (fun c => c ≠ '_') = digits :=
    List.filter_eq_self.mpr fun c hc => by simp [not_underscore_of_isPlain (hmem c hc)]
  have htake : (digits ++ tail).takeWhile Char.isDigit = digits := by
    refine takeWhile_digits hdigits fun c hc => ?_
    cases hdigit : c.isDigit with
    | false => rfl
    | true =>
        have hstripped := htail c (List.mem_of_mem_head? hc)
        rw [isStripped_of_isDigit hdigit] at hstripped
        cases hstripped
  rw [hfilter, Option.some.injEq] at h
  rw [stoull, hbody, splitSign_append hne, hsign]
  simp only [htake, if_neg hdigits_ne]
  rw [checkedWord, ← h]
  cases negative with
  | false => simp
  | true =>
      simp only [if_true, Int.natAbs_neg, Int.natAbs_natCast, BitVec.ofInt_neg,
        BitVec.ofInt_natCast]

/-- A function that a partial one determines where it has a result. -/
theorem mapM_of_mapM {ι α β : Type} {f : ι → Option α} {g : ι → Except String β}
    {k : α → Except String β} :
    ∀ {items : List ι} {as : List α}, (∀ i ∈ items, ∀ a, f i = some a → g i = k a) →
      items.mapM f = some as → items.mapM g = as.mapM k
  | [], as, _, h => by
      obtain rfl : as = [] := by simpa using h.symm
      rfl
  | i :: items, as, hfg, h => by
      rw [List.mapM_cons] at h
      obtain ⟨a, ha, h⟩ := Option.bind_eq_some_iff.mp h
      obtain ⟨as', has, h⟩ := Option.bind_eq_some_iff.mp h
      obtain rfl : as = a :: as' := (Option.some.inj h).symm
      have ih := mapM_of_mapM (fun j hj => hfg j (List.mem_cons_of_mem _ hj)) has
      rw [List.mapM_cons, List.mapM_cons, hfg i (List.mem_cons_self ..) a ha, ih]

theorem readNumbers_eq (text : List Char) : readNumbers text = (linesOf '\n' text).mapM stoull := by
  rw [readNumbers, foldlM_pushing]
  cases (linesOf '\n' text).mapM stoull with
  | error e => rfl
  | ok numbers => rfl

theorem universalNewlines_eq {text : List Char} (h : '\r' ∉ text) :
    universalNewlines text = text := by
  fun_induction universalNewlines text with
  | case1 => rfl
  | case2 text ih => simp at h
  | case3 text hnext ih => simp at h
  | case4 c text hboth hc ih =>
      rw [List.mem_cons, not_or] at h
      rw [ih h.2]

/-- The numbers of the script determine what `read_to_block` does with a file of
digits, signs and blanks. -/
theorem readToBlock_of_readNeighbors {text : List Char} (hplain : ∀ c ∈ text, isPlain c = true)
    {numbers : List ℤ} (h : readNeighbors text = some numbers) :
    readToBlock (some text) = (numbers.mapM checkedWord).map u64sToBlocks := by
  have hreturn : '\r' ∉ text := by
    intro hmem
    cases hplain _ hmem
  rw [readNeighbors, universalNewlines_eq hreturn] at h
  rw [readToBlock, readNumbers_eq]
  congr 1
  refine mapM_of_mapM ?_ h
  intro line hline n hn
  exact stoull_of_intOf (fun c hc => hplain c (mem_of_mem_linesOf hline hc).1) hn

/-- A number past 64 bits, a negative one, and blanks. -/
theorem readToBlock_of_readNeighbors_at_ends :
    readToBlock (some "-1\n +7\t\n".toList) = .ok [makeBlock 0 (-1), makeBlock 0 7] ∧
      readToBlock (some "18446744073709551616".toList) = .error "out_of_range" := by
  constructor
  · have hread : readNeighbors "-1\n +7\t\n".toList = some [-1, 7] := by decide
    rw [readToBlock_of_readNeighbors (List.all_eq_true.mp rfl) hread]
    rfl
  · have hread : readNeighbors "18446744073709551616".toList = some [18446744073709551616] := by
      decide
    rw [readToBlock_of_readNeighbors (List.all_eq_true.mp rfl) hread]
    rfl

/-! ## The files that are written -/

/-- Numbers in decimal, one a line. -/
def printed (numbers : List Word) : List Char :=
  unlines '\n' (numbers.map fun number => Nat.toDigits 10 number.toNat)

/-- A file with the numbers, one a line.  The last newline may be missing. -/
def ListsNumbers (text : List Char) (numbers : List Word) : Prop :=
  text = printed numbers ∨ text ++ ['\n'] = printed numbers

theorem isDigit_of_mem_toDigits {n : ℕ} {c : Char} (hc : c ∈ Nat.toDigits 10 n) :
    c.isDigit = true :=
  Nat.isDigit_of_mem_toDigits (by decide) (by decide) hc

theorem newline_not_mem_toDigits (n : ℕ) : '\n' ∉ Nat.toDigits 10 n := by
  intro hmem
  exact absurd (isDigit_of_mem_toDigits hmem) (by decide)

theorem linesOf_of_listsNumbers {text : List Char} {numbers : List Word}
    (h : ListsNumbers text numbers) :
    linesOf '\n' text = numbers.map fun number => Nat.toDigits 10 number.toNat := by
  have hbare : ∀ numbers : List Word,
      ∀ line ∈ numbers.map (fun number => Nat.toDigits 10 number.toNat), '\n' ∉ line := by
    intro numbers line hline
    obtain ⟨number, -, rfl⟩ := List.mem_map.mp hline
    exact newline_not_mem_toDigits _
  rcases h with rfl | hcut
  · exact linesOf_unlines (hbare numbers)
  · rcases List.eq_nil_or_concat numbers with rfl | ⟨front, last, rfl⟩
    · simp [printed, unlines] at hcut
    · have htext : text = unlines '\n' (front.map fun number => Nat.toDigits 10 number.toNat) ++
          Nat.toDigits 10 last.toNat := by
        rw [List.concat_eq_append, printed, unlines, List.map_append, List.flatMap_append,
          List.map_singleton, List.flatMap_singleton, ← List.append_assoc] at hcut
        exact List.append_cancel_right hcut
      rw [htext, linesOf_unlines_last (hbare front) (newline_not_mem_toDigits _)
        Nat.toDigits_ne_nil, List.concat_eq_append, List.map_append, List.map_singleton]

/-- The script reads back a number in decimal. -/
theorem intOf_toDigits (n : ℕ) : intOf (strip (Nat.toDigits 10 n)) = some (n : ℤ) := by
  have hdigits : ∀ c ∈ Nat.toDigits 10 n, c.isDigit = true := fun c hc => isDigit_of_mem_toDigits hc
  have hstrip : strip (Nat.toDigits 10 n) = Nat.toDigits 10 n := by
    have hfront : (Nat.toDigits 10 n).dropWhile isStripped = Nat.toDigits 10 n := by
      rw [List.dropWhile_eq_self_iff]
      intro hlen
      rw [isStripped_of_isDigit (hdigits _ (List.getElem_mem hlen))]
      exact Bool.false_ne_true
    rw [strip, hfront, List.rdropWhile_eq_self_iff]
    intro hne
    rw [isStripped_of_isDigit (hdigits _ (List.getLast_mem hne))]
    exact Bool.false_ne_true
  have hsign : splitSign (Nat.toDigits 10 n) = (false, Nat.toDigits 10 n) := by
    obtain ⟨c, str, hc⟩ := List.exists_cons_of_ne_nil (Nat.toDigits_ne_nil (n := n) (b := 10))
    rw [hc]
    exact splitSign_of_isDigit (hdigits c (by rw [hc]; exact List.mem_cons_self ..))
  have hfilter : (Nat.toDigits 10 n).filter (fun c => c ≠ '_') = Nat.toDigits 10 n :=
    List.filter_eq_self.mpr fun c hc =>
      decide_eq_true (isDigit_ne (hdigits c hc) (by decide))
  rw [hstrip, intOf, hsign]
  simp only [isDecimal_of_digits Nat.toDigits_ne_nil hdigits, hfilter, if_true, decimalValue,
    Nat.ofDigitChars_ten_toDigits, Bool.false_eq_true, if_false]

/-- So does `std::stoull`, up to 64 bits. -/
theorem stoull_toDigits (number : Word) : stoull (Nat.toDigits 10 number.toNat) = .ok number := by
  have hplain : ∀ c ∈ Nat.toDigits 10 number.toNat, isPlain c = true := fun c hc => by
    rw [isPlain, isDigit_of_mem_toDigits hc, Bool.true_or]
  have hsmall : ¬ 2 ^ 64 ≤ number.toNat := not_le.mpr number.isLt
  rw [stoull_of_intOf hplain (intOf_toDigits _), checkedWord, Int.natAbs_natCast, if_neg hsmall,
    BitVec.ofInt_natCast, BitVec.ofNat_toNat, BitVec.setWidth_eq]

/-- `read_to_block` reads a file of numbers. -/
theorem readNumbers_of_listsNumbers {text : List Char} {numbers : List Word}
    (h : ListsNumbers text numbers) : readNumbers text = .ok numbers := by
  rw [readNumbers_eq, linesOf_of_listsNumbers h, List.mapM_map, mapM_eq_ok (g := id), List.map_id]
  intro number _
  exact stoull_toDigits number

theorem return_not_mem_of_listsNumbers {text : List Char} {numbers : List Word}
    (h : ListsNumbers text numbers) : '\r' ∉ text := by
  intro hmem
  have hprinted : '\r' ∈ printed numbers := by
    rcases h with rfl | hcut
    · exact hmem
    · rw [← hcut]
      exact List.mem_append_left _ hmem
  rcases mem_unlines hprinted with heq | ⟨line, hline, hr⟩
  · exact absurd heq (by decide)
  · obtain ⟨number, -, rfl⟩ := List.mem_map.mp hline
    exact absurd (isDigit_of_mem_toDigits hr) (by decide)

/-- The script reads a file of numbers. -/
theorem readNeighbors_of_listsNumbers {text : List Char} {numbers : List Word}
    (h : ListsNumbers text numbers) :
    readNeighbors text = some (numbers.map fun number => (number.toNat : ℤ)) := by
  have hline : (fun number : Word => intOf (strip (Nat.toDigits 10 number.toNat))) =
      fun number => pure (number.toNat : ℤ) := by
    funext number
    exact intOf_toDigits _
  rw [readNeighbors, universalNewlines_eq (return_not_mem_of_listsNumbers h),
    linesOf_of_listsNumbers h, List.mapM_map]
  show numbers.mapM (fun number : Word => intOf (strip (Nat.toDigits 10 number.toNat))) = _
  rw [hline, List.mapM_pure]
  rfl

/-- A file of numbers, one a line, is read back by both programs. -/
theorem readers_of_listsNumbers {text : List Char} {numbers : List Word}
    (h : ListsNumbers text numbers) :
    readToBlock (some text) = .ok (u64sToBlocks numbers) ∧
      readNeighbors text = some (numbers.map fun number => (number.toNat : ℤ)) := by
  refine ⟨?_, readNeighbors_of_listsNumbers h⟩
  rw [readToBlock, readNumbers_of_listsNumbers h]
  rfl

/-- Two vertices, and no newline at the end. -/
theorem readers_of_listsNumbers_at_two :
    readToBlock (some "10\n7".toList) = .ok [makeBlock 0 10, makeBlock 0 7] ∧
      readNeighbors "10\n7".toList = some [10, 7] := by
  have hlists : ListsNumbers "10\n7".toList [10, 7] := .inr (by decide)
  exact readers_of_listsNumbers hlists

/-- An underscore parts the two. -/
example : readNumbers "1_0".toList = .ok [1] ∧ readNeighbors "1_0".toList = some [10] := by decide

end Sectric
