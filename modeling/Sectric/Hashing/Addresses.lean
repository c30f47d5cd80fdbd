import Sectric.Hashing.Agreement
import Sectric.Hashing.Calls

/-!
# Address queries against the mapping

`GetElementAddresses` computes every address of every element, and they are the
bins the mapping places the elements in (`placed_in_written`).  It reserves its
vector without a `resize` and assigns by position, so all of them land behind the
end of a vector that stays empty.
-/

namespace Sectric

/-- The answer of `GetElementAddresses` on a fresh table: an entry for every
element and function, entry `i * functions + j` the address of element `i` under
function `j`, and every bin an element is in after a mapping of a table built
alike among the entries. -/
def AddressesAgree (h : HashFamily) (nb nf limiter : ℕ) (elements : List Word) : Prop :=
  ∃ v : ReservedVector,
    (CuckooTable.withElements nb nf limiter elements).getElementAddresses h = .ok v ∧
    v.elements.length = elements.length * nf ∧
    (∀ i v', elements[i]? = some v' → ∀ j < nf, v.elements[i * nf + j]? = some (h j v' % nb)) ∧
    ∀ t, (CuckooTable.withElements nb nf limiter elements).mapElements h = .ok t →
      ∀ b e, t.hashTable[b]? = some e → e.isEmpty = false → b ∈ v.elements

/-- What is written behind the vector. -/
def writtenAddresses (h : HashFamily) (nb nf : ℕ) (elements : List Word) : List (ℕ × ℕ) :=
  elements.zipIdx.flatMap fun element =>
    (List.range nf).map fun j => (element.2 * nf + j, h j element.1 % nb)

theorem getElementAddresses_withElements (h : HashFamily) {nb : ℕ} (hnb : 0 < nb)
    (nf limiter : ℕ) (elements : List Word) :
    (CuckooTable.withElements nb nf limiter elements).getElementAddresses h =
      .ok ⟨[], writtenAddresses h nb nf elements⟩ :=
  getElementAddresses_eq h hnb

theorem mem_writtenAddresses {h : HashFamily} {nb nf : ℕ} {elements : List Word} {p : ℕ × ℕ} :
    p ∈ writtenAddresses h nb nf elements ↔
      ∃ i v, elements[i]? = some v ∧ ∃ j < nf, (i * nf + j, h j v % nb) = p := by
  simp only [writtenAddresses, List.mem_flatMap, List.mem_map, List.mem_range]
  constructor
  · rintro ⟨⟨v, i⟩, hmem, j, hj, rfl⟩
    exact ⟨i, v, List.mem_zipIdx_iff_getElem?.mp hmem, j, hj, rfl⟩
  · rintro ⟨i, v, hv, j, hj, rfl⟩
    exact ⟨(v, i), List.mem_zipIdx_iff_getElem?.mpr hv, j, hj, rfl⟩

/-- The bin an element is placed in is among the addresses written for it. -/
theorem placed_in_written {h : HashFamily} {nb nf limiter : ℕ} {elements : List Word}
    {t : CuckooTable}
    (hmap : (CuckooTable.withElements nb nf limiter elements).mapElements h = .ok t)
    {b : ℕ} {e : HashTableEntry} (hb : t.hashTable[b]? = some e) (hne : e.isEmpty = false) :
    ∃ j < nf, (e.globalId * nf + j, b) ∈ writtenAddresses h nb nf elements := by
  obtain ⟨hnb, hsome⟩ := withElements_ok hmap
  obtain ⟨t', hmap', hi, rfl, rfl, helements⟩ := withElements_inv h limiter elements hnb hsome
  rw [hmap, Except.ok.injEq] at hmap'
  subst hmap'
  obtain ⟨-, -, haddr⟩ := hi.address hnb hb hne
  obtain ⟨⟨v, id, f, hf, hv, -, rfl⟩, -⟩ := hi.placed b e hb hne
  refine ⟨f, hf, mem_writtenAddresses.mpr ⟨id, v, ?_, f, hf, ?_⟩⟩
  · rw [← helements]
    exact hv
  · exact Prod.ext rfl haddr

/-- A table without elements, or without functions, places nothing. -/
theorem places_nothing {h : HashFamily} {nb nf limiter : ℕ} {elements : List Word}
    (hnone : elements = [] ∨ nf = 0) {t : CuckooTable}
    (hmap : (CuckooTable.withElements nb nf limiter elements).mapElements h = .ok t)
    {b : ℕ} {e : HashTableEntry} (hb : t.hashTable[b]? = some e) : e.isEmpty = true := by
  have hempty : elements = [] := by
    cases hnone with
    | inl hempty => exact hempty
    | inr hnf =>
        by_contra hne
        have hpos := (withElements_ok hmap).2 hne
        omega
  subst hempty
  cases hne : e.isEmpty with
  | true => rfl
  | false =>
      obtain ⟨j, -, hmem⟩ := placed_in_written hmap hb hne
      cases hmem

/-- The answer is as it should be exactly if it should be empty: there is no
element or no function. -/
theorem getElementAddresses_agrees_iff (h : HashFamily) {nb : ℕ} (hnb : 0 < nb)
    (nf limiter : ℕ) (elements : List Word) :
    AddressesAgree h nb nf limiter elements ↔ elements = [] ∨ nf = 0 := by
  have hquery := getElementAddresses_withElements h hnb nf limiter elements
  constructor
  · rintro ⟨v, hv, hlength, -⟩
    rw [hquery, Except.ok.injEq] at hv
    subst hv
    rw [List.length_nil, eq_comm, Nat.mul_eq_zero] at hlength
    exact hlength.imp List.length_eq_zero_iff.mp id
  · intro hnone
    refine ⟨_, hquery, ?_, ?_, ?_⟩
    · rw [List.length_nil, eq_comm, Nat.mul_eq_zero]
      exact hnone.imp List.length_eq_zero_iff.mpr id
    · intro i v hv j hj
      cases hnone with
      | inl hempty =>
          rw [hempty] at hv
          cases hv
      | inr hnf => omega
    · intro t hmap b e hb hne
      rw [places_nothing hnone hmap hb] at hne
      cases hne

theorem getElementAddresses_agrees_on_none :
    AddressesAgree shiftHash 8 3 200 [] ∧ ¬ AddressesAgree shiftHash 8 3 200 [5, 6] := by
  have hagrees := getElementAddresses_agrees_iff shiftHash (show 0 < 8 by decide) 3 200
  refine ⟨(hagrees []).mpr (.inl rfl), ?_⟩
  intro h
  cases (hagrees [5, 6]).mp h with
  | inl hempty => cases hempty
  | inr hnf => cases hnf

/-- One element under one function: the vector is to have an entry, and has none. -/
theorem getElementAddresses_loses_the_address : ¬ AddressesAgree shiftHash 8 1 200 [5] := by
  rintro ⟨v, hv, hlength, -⟩
  rw [getElementAddresses_withElements shiftHash (by decide) 1 200 [5], Except.ok.injEq] at hv
  subst hv
  simp at hlength

end Sectric
