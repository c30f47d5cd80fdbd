import Mathlib.Data.List.AList
import Mathlib.Data.List.Induction

/-!
# Collecting one value per key

A collector reads a key and a value off every arrival, files the value under the
key, a later one over an earlier one, and stops after the arrival that brings the
number of distinct keys to a target.  It tests after an arrival, so it takes at
least one.

If every sender of a set sends its own value, maybe repeatedly, and nobody else
does, then the collector stops with the arrival that completes the set, and what
it has filed does not depend on the order.
-/

namespace Sectric.Lib

variable {κ ν μ : Type} [DecidableEq κ]

/-- Take arrivals until `target` distinct keys are there: the pairs filed and the
arrivals not taken, or nothing if the arrivals end before. -/
def collect (read : μ → κ × ν) (target : ℕ) : AList (fun _ : κ => ν) → List μ →
    Option (AList (fun _ : κ => ν) × List μ)
  | _, [] => none
  | filed, a :: arrivals =>
      let filed := filed.insert (read a).1 (read a).2
      if target ≤ filed.keys.length then some (filed, arrivals)
      else collect read target filed arrivals

/-! ## What is filed -/

/-- The pairs filed are those of the arrived keys, each with its sender's value. -/
def Files (value : κ → ν) (arrived : List κ) (filed : AList (fun _ : κ => ν)) : Prop :=
  ∀ key, filed.lookup key = if key ∈ arrived then some (value key) else none

variable {value : κ → ν} {arrived : List κ} {filed : AList (fun _ : κ => ν)}

theorem Files.empty (value : κ → ν) : Files value [] ∅ := by
  intro key
  rw [AList.lookup_empty, if_neg List.not_mem_nil]

theorem Files.insert (hfiles : Files value arrived filed) (key : κ) :
    Files value (arrived ++ [key]) (filed.insert key (value key)) := by
  intro other
  rcases eq_or_ne other key with rfl | hne
  · rw [AList.lookup_insert, if_pos (List.mem_append_right _ (List.mem_singleton_self _))]
  · have hmem : other ∈ arrived ++ [key] ↔ other ∈ arrived := by simp [hne]
    rw [AList.lookup_insert_ne hne, hfiles other]
    simp only [hmem]

theorem Files.mem_keys (hfiles : Files value arrived filed) {key : κ} :
    key ∈ filed.keys ↔ key ∈ arrived := by
  rw [← AList.mem_keys, ← AList.lookup_isSome, hfiles key]
  split <;> simp_all

/-- Among senders of a set there are as many keys as the set has exactly when all
have arrived. -/
theorem Files.length_le_iff (hfiles : Files value arrived filed) {senders : List κ}
    (hnodup : senders.Nodup) (hfrom : ∀ key ∈ arrived, key ∈ senders) :
    senders.length ≤ filed.keys.length ↔ ∀ key ∈ senders, key ∈ arrived := by
  have hsub : filed.keys ⊆ senders := fun key hkey => hfrom key (hfiles.mem_keys.mp hkey)
  have hsubperm : filed.keys.Subperm senders := List.subperm_of_subset filed.keys_nodup hsub
  constructor
  · intro hle key hkey
    have hperm := hsubperm.perm_of_length_le hle
    exact hfiles.mem_keys.mp (hperm.mem_iff.mpr hkey)
  · intro hall
    refine (List.subperm_of_subset hnodup ?_).length_le
    intro key hkey
    exact hfiles.mem_keys.mpr (hall key hkey)

/-- File all pairs, a later one over an earlier one. -/
def fileAll (pairs : List (κ × ν)) : AList (fun _ : κ => ν) :=
  pairs.foldl (fun filed p => filed.insert p.1 p.2) ∅

theorem lookup_fileAll_append (pairs : List (κ × ν)) (p : κ × ν) (key : κ) :
    (fileAll (pairs ++ [p])).lookup key =
      if key = p.1 then some p.2 else (fileAll pairs).lookup key := by
  have happend : fileAll (pairs ++ [p]) = (fileAll pairs).insert p.1 p.2 := by
    rw [fileAll, List.foldl_append]
    rfl
  rw [happend]
  by_cases heq : key = p.1
  · rw [if_pos heq, heq, AList.lookup_insert]
  · rw [if_neg heq, AList.lookup_insert_ne heq]

/-- A key that occurs is filed with a value it occurs with. -/
theorem exists_lookup_fileAll {pairs : List (κ × ν)} {key : κ} (h : key ∈ pairs.map Prod.fst) :
    ∃ v, (fileAll pairs).lookup key = some v ∧ (key, v) ∈ pairs := by
  induction pairs using List.reverseRecOn with
  | nil => cases h
  | append_singleton pairs p ih =>
      rw [lookup_fileAll_append]
      by_cases heq : key = p.1
      · refine ⟨p.2, if_pos heq, List.mem_append_right _ ?_⟩
        rw [heq]
        exact List.mem_singleton_self _
      · have hbefore : key ∈ pairs.map Prod.fst := by simpa [heq] using h
        obtain ⟨v, hlookup, hmem⟩ := ih hbefore
        exact ⟨v, by rw [if_neg heq, hlookup], List.mem_append_left _ hmem⟩

/-! ## The first complete prefix -/

/-- The keys of the arrivals. -/
def keysOf (read : μ → κ × ν) (arrivals : List μ) : List κ := arrivals.map fun a => (read a).1

/-- What the collector has filed in the end was there before or has arrived. -/
theorem mem_keys_of_collect (read : μ → κ × ν) (target : ℕ) {key : κ} :
    ∀ {arrivals rest : List μ} {filed filed' : AList (fun _ : κ => ν)},
      collect read target filed arrivals = some (filed', rest) → key ∈ filed'.keys →
      key ∈ filed.keys ∨ key ∈ keysOf read arrivals
  | [], rest, filed, filed', h, hkey => by cases h
  | a :: arrivals, rest, filed, filed', h, hkey => by
      have hinsert : ∀ {other : κ}, other ∈ (filed.insert (read a).1 (read a).2).keys →
          other ∈ filed.keys ∨ other = (read a).1 := by
        intro other hother
        rw [← AList.mem_keys, AList.mem_insert] at hother
        exact hother.symm
      have hmem : key ∈ (filed.insert (read a).1 (read a).2).keys ∨ key ∈ keysOf read arrivals := by
        rw [collect] at h
        split at h
        · cases h
          exact .inl hkey
        · exact mem_keys_of_collect read target h hkey
      rcases hmem with hfiled | harrived
      · rcases hinsert hfiled with hbefore | rfl
        · exact .inl hbefore
        · exact .inr (List.mem_cons_self ..)
      · exact .inr (List.mem_cons_of_mem _ harrived)

/-- The collector stops with enough keys. -/
theorem le_length_of_collect (read : μ → κ × ν) (target : ℕ) :
    ∀ {arrivals rest : List μ} {filed filed' : AList (fun _ : κ => ν)},
      collect read target filed arrivals = some (filed', rest) → target ≤ filed'.keys.length
  | [], rest, filed, filed', h => by cases h
  | a :: arrivals, rest, filed, filed', h => by
      rw [collect] at h
      split at h
      · cases h
        assumption
      · exact le_length_of_collect read target h

/-- With fewer arrivals than keys are wanted the collector waits. -/
theorem collect_eq_none_of_short (read : μ → κ × ν) (target : ℕ) :
    ∀ (arrivals : List μ) (filed : AList (fun _ : κ => ν)),
      filed.keys.length + arrivals.length < target → collect read target filed arrivals = none
  | [], filed, _ => rfl
  | a :: arrivals, filed, h => by
      have hinsert : (filed.insert (read a).1 (read a).2).keys.length ≤ filed.keys.length + 1 := by
        rw [AList.keys_insert, List.length_cons]
        exact Nat.succ_le_succ (List.length_erase_le ..)
      rw [List.length_cons] at h
      rw [collect, if_neg (by omega)]
      exact collect_eq_none_of_short read target arrivals _ (by omega)

/-- From a state that lacks a sender, the collector stops with the arrival that
completes the senders. -/
theorem collect_of_files (read : μ → κ × ν) (value : κ → ν) {senders : List κ}
    (hnodup : senders.Nodup) :
    ∀ (arrivals : List μ) (arrived : List κ) (filed : AList (fun _ : κ => ν)),
      Files value arrived filed → (∀ key ∈ arrived, key ∈ senders) →
      (∀ a ∈ arrivals, ∃ key ∈ senders, read a = (key, value key)) →
      ¬ (∀ key ∈ senders, key ∈ arrived) →
      (∀ key ∈ senders, key ∈ arrived ++ keysOf read arrivals) →
      ∃ taken last rest filed', arrivals = taken ++ last :: rest ∧
        collect read senders.length filed arrivals = some (filed', rest) ∧
        Files value (arrived ++ keysOf read (taken ++ [last])) filed' ∧
        (¬ ∀ key ∈ senders, key ∈ arrived ++ keysOf read taken) ∧
        ∀ key ∈ senders, key ∈ arrived ++ keysOf read (taken ++ [last]) := by
  intro arrivals
  induction arrivals with
  | nil =>
      intro arrived filed _ _ _ hmissing hcover
      rw [keysOf, List.map_nil, List.append_nil] at hcover
      exact absurd hcover hmissing
  | cons a arrivals ih =>
      intro arrived filed hfiles hfrom hsent hmissing hcover
      obtain ⟨key, hkey, hread⟩ := hsent a (List.mem_cons_self ..)
      have hfiles₁ := hfiles.insert key
      have hfrom₁ : ∀ other ∈ arrived ++ [key], other ∈ senders := by
        intro other hother
        rcases List.mem_append.mp hother with hother | hother
        · exact hfrom other hother
        · rw [List.mem_singleton.mp hother]
          exact hkey
      have hstop := hfiles₁.length_le_iff hnodup hfrom₁
      have hkeys : ∀ as, keysOf read (a :: as) = [key] ++ keysOf read as := by
        intro as
        rw [keysOf, List.map_cons, hread]
        rfl
      rw [collect, hread]
      by_cases hall : ∀ other ∈ senders, other ∈ arrived ++ [key]
      · refine ⟨[], a, arrivals, _, rfl, if_pos (hstop.mpr hall), ?_, ?_, ?_⟩
        · rw [List.nil_append, hkeys]
          exact hfiles₁
        · rwa [keysOf, List.map_nil, List.append_nil]
        · rw [List.nil_append, hkeys]
          exact hall
      · have hcover₁ : ∀ other ∈ senders, other ∈ (arrived ++ [key]) ++ keysOf read arrivals := by
          rw [List.append_assoc, ← hkeys]
          exact hcover
        obtain ⟨taken, last, rest, filed', rfl, hcollect, hfiles', hlack, hfull⟩ :=
          ih _ _ hfiles₁ hfrom₁ (fun b hb => hsent b (List.mem_cons_of_mem _ hb)) hall hcover₁
        rw [List.append_assoc, ← hkeys] at hfiles' hlack hfull
        exact ⟨a :: taken, last, rest, filed', rfl,
          (if_neg fun hle => hall (hstop.mp hle)).trans hcollect, hfiles', hlack, hfull⟩

/-- Arrivals from a set of senders, each with its own value, repeats allowed, all
of them there. -/
structure Complete (read : μ → κ × ν) (value : κ → ν) (senders : List κ) (arrivals : List μ) :
    Prop where
  sent : ∀ a ∈ arrivals, ∃ key ∈ senders, read a = (key, value key)
  cover : ∀ key ∈ senders, key ∈ keysOf read arrivals

/-- The collector stops at the first moment all senders have arrived, with one
value per sender, its own. -/
theorem collect_complete {read : μ → κ × ν} {senders : List κ} (hnodup : senders.Nodup)
    (hne : senders ≠ []) {arrivals : List μ} (hcomplete : Complete read value senders arrivals) :
    ∃ taken last rest filed, arrivals = taken ++ last :: rest ∧
      collect read senders.length ∅ arrivals = some (filed, rest) ∧
      (¬ ∀ key ∈ senders, key ∈ keysOf read taken) ∧
      (∀ key ∈ senders, key ∈ keysOf read (taken ++ [last])) ∧
      filed.keys.Perm senders ∧ ∀ key ∈ senders, filed.lookup key = some (value key) := by
  have hmissing : ¬ ∀ key ∈ senders, key ∈ ([] : List κ) := by
    intro hall
    obtain ⟨key, hkey⟩ := List.exists_mem_of_ne_nil senders hne
    exact List.not_mem_nil (hall key hkey)
  obtain ⟨taken, last, rest, filed, rfl, hcollect, hfiles, hlack, hfull⟩ :=
    collect_of_files read value hnodup arrivals [] ∅ (Files.empty value) (by simp) hcomplete.sent
      hmissing hcomplete.cover
  rw [List.nil_append] at hfiles hlack hfull
  refine ⟨taken, last, rest, filed, rfl, hcollect, hlack, hfull, ?_, ?_⟩
  · refine (List.perm_ext_iff_of_nodup filed.keys_nodup hnodup).mpr ?_
    intro key
    rw [hfiles.mem_keys]
    constructor
    · intro hkey
      obtain ⟨a, ha, rfl⟩ := List.mem_map.mp hkey
      have hmem : a ∈ taken ++ last :: rest := by
        rw [List.append_cons]
        exact List.mem_append_left _ ha
      obtain ⟨key, hkey, hread⟩ := hcomplete.sent a hmem
      rwa [hread]
    · exact hfull key
  · intro key hkey
    rw [hfiles key, if_pos (hfull key hkey)]

end Sectric.Lib
