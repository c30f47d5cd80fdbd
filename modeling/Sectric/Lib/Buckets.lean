import Mathlib.Data.List.Nodup
import Mathlib.Data.List.Perm.Basic
import Mathlib.Data.List.Range

/-!
# Distributing items into buckets

A loop that appends each item to the bucket its key names builds, for each
bucket, the items of that key in their original order.  `pushAll_eq` says so
for any list of items whose keys are in range.  The buckets concatenated are a
rearrangement of the items (`perm_flatten_buckets`), so nothing is lost and the
sizes add up.  `longest` is what a running maximum of the row lengths ends with.
-/

namespace Sectric.Lib

section Buckets

variable {ι α : Type*}

/-- `rows.at(b).push_back(x)`. -/
def pushAt (rows : List (List α)) (b : ℕ) (x : α) : Except String (List (List α)) :=
  match rows[b]? with
  | none => .error "std::out_of_range"
  | some row => .ok (rows.set b (row ++ [x]))

/-- Append every item to its bucket, in order. -/
def pushAll (key : ι → ℕ) (val : ι → α) (rows : List (List α)) (items : List ι) :
    Except String (List (List α)) :=
  items.foldlM (fun rows i => pushAt rows (key i) (val i)) rows

/-- Bucket `b` holds the items of key `b`. -/
def buckets (key : ι → ℕ) (val : ι → α) (n : ℕ) (items : List ι) : List (List α) :=
  (List.range n).map fun b => (items.filter fun i => key i == b).map val

@[simp] theorem length_buckets (key : ι → ℕ) (val : ι → α) (n : ℕ) (items : List ι) :
    (buckets key val n items).length = n := by
  simp [buckets]

theorem getElem?_buckets (key : ι → ℕ) (val : ι → α) {n b : ℕ} (items : List ι) (hb : b < n) :
    (buckets key val n items)[b]? = some ((items.filter fun i => key i == b).map val) := by
  simp [buckets, hb]

theorem buckets_nil (key : ι → ℕ) (val : ι → α) (n : ℕ) :
    buckets key val n [] = List.replicate n [] := by
  simp [buckets]

/-- Appending one item to its bucket is having it at the end of the items. -/
theorem pushAt_buckets (key : ι → ℕ) (val : ι → α) {n : ℕ} (items : List ι) {i : ι}
    (hi : key i < n) :
    pushAt (buckets key val n items) (key i) (val i) = .ok (buckets key val n (items ++ [i])) := by
  rw [pushAt, getElem?_buckets key val items hi]
  simp only [Except.ok.injEq]
  apply List.ext_getElem?
  intro b
  rw [List.getElem?_set, length_buckets]
  by_cases hb : b < n
  · rw [getElem?_buckets key val (items ++ [i]) hb, List.filter_append, List.map_append]
    by_cases hk : key i = b
    · simp [hk, hb]
    · rw [if_neg hk, getElem?_buckets key val items hb]
      simp [hk]
  · have hlen : (buckets key val n (items ++ [i])).length ≤ b := by simp; omega
    rw [List.getElem?_eq_none hlen]
    split
    · omega
    · apply List.getElem?_eq_none
      simp
      omega

/-- The loop builds the buckets, one item after the other. -/
theorem pushAll_eq (key : ι → ℕ) (val : ι → α) {n : ℕ} :
    ∀ items done : List ι, (∀ i ∈ items, key i < n) →
      pushAll key val (buckets key val n done) items = .ok (buckets key val n (done ++ items))
  | [], done, _ => by
      rw [List.append_nil]
      rfl
  | i :: items, done, h => by
      have hi : key i < n := h i (List.mem_cons_self ..)
      rw [pushAll, List.foldlM_cons, pushAt_buckets key val done hi]
      have ih := pushAll_eq key val items (done ++ [i]) fun j hj => h j (List.mem_cons_of_mem _ hj)
      rw [List.append_assoc, List.singleton_append] at ih
      exact ih

/-- Bucket by bucket a function of the values. -/
theorem map_map_buckets {β : Type*} (key : ι → ℕ) (val : ι → α) (g : α → β) (n : ℕ)
    (items : List ι) :
    (buckets key val n items).map (List.map g) = buckets key (g ∘ val) n items := by
  simp [buckets]

/-- Distributing relabelled items. -/
theorem buckets_map {κ : Type*} (key : ι → ℕ) (val : ι → α) (n : ℕ) (g : κ → ι)
    (items : List κ) :
    buckets key val n (items.map g) = buckets (key ∘ g) (val ∘ g) n items := by
  simp [buckets, List.filter_map, Function.comp_def]

/-- Membership in a bucket. -/
theorem mem_bucket_iff (key : ι → ℕ) (val : ι → α) {n b : ℕ} (items : List ι) (hb : b < n)
    (x : α) :
    x ∈ (buckets key val n items)[b]?.getD [] ↔ ∃ i ∈ items, key i = b ∧ val i = x := by
  rw [getElem?_buckets key val items hb, Option.getD_some]
  simp [and_assoc]

/-- A row of empty cells with one that is filled. -/
theorem flatMap_range_ite (b : ℕ) (x : α) (n : ℕ) :
    ((List.range n).flatMap fun c => if b = c then [x] else []) = if b < n then [x] else [] := by
  induction n with
  | zero => simp
  | succ n ih =>
      rw [List.range_succ, List.flatMap_append, ih]
      rcases Nat.lt_trichotomy b n with h | rfl | h
      · simp [h, Nat.lt_succ_of_lt h, Nat.ne_of_lt h]
      · simp
      · simp [Nat.not_lt_of_gt h, Nat.not_lt.mpr (Nat.succ_le_of_lt h), Nat.ne_of_gt h]

/-- Every item ends up in one bucket. -/
theorem perm_flatten_buckets (key : ι → ℕ) (val : ι → α) {n : ℕ} :
    ∀ items : List ι, (∀ i ∈ items, key i < n) →
      (buckets key val n items).flatten.Perm (items.map val)
  | [], _ => by simp [buckets_nil]
  | i :: items, h => by
      have hi : key i < n := h i (List.mem_cons_self ..)
      have ih := perm_flatten_buckets key val items fun j hj => h j (List.mem_cons_of_mem _ hj)
      have hrow : ∀ b, ((i :: items).filter fun j => key j == b).map val =
          (if key i = b then [val i] else []) ++ (items.filter fun j => key j == b).map val := by
        intro b
        by_cases hb : key i = b
        · simp [hb]
        · simp [hb]
      have hsplit : (buckets key val n (i :: items)).flatten.Perm
          (((List.range n).flatMap fun b => if key i = b then [val i] else []) ++
            (buckets key val n items).flatten) := by
        simp only [buckets, hrow]
        rw [← List.flatMap_def, ← List.flatMap_def]
        exact (List.flatMap_append_perm _ _ _).symm
      have hsingle : ((List.range n).flatMap fun b => if key i = b then [val i] else []) =
          [val i] := by
        rw [flatMap_range_ite, if_pos hi]
      rw [hsingle] at hsplit
      exact hsplit.trans (ih.cons (val i))

end Buckets

/-- Buckets of distinct items hold distinct values, each in one bucket. -/
theorem nodup_flatten_buckets {ι α : Type*} (key : ι → ℕ) (val : ι → α) (n : ℕ) {items : List ι}
    (hitems : items.Nodup) (hval : ∀ i ∈ items, ∀ j ∈ items, val i = val j → i = j) :
    (buckets key val n items).flatten.Nodup := by
  rw [List.nodup_flatten, buckets]
  constructor
  · intro row hrow
    obtain ⟨b, _, rfl⟩ := List.mem_map.mp hrow
    refine List.Nodup.map_on ?_ (hitems.filter _)
    intro i hi j hj h
    exact hval i (List.mem_of_mem_filter hi) j (List.mem_of_mem_filter hj) h
  · rw [List.pairwise_map]
    refine List.nodup_range.imp ?_
    intro b c hbc
    rw [List.disjoint_left]
    intro x hx hx'
    obtain ⟨i, hi, rfl⟩ := List.mem_map.mp hx
    obtain ⟨j, hj, h⟩ := List.mem_map.mp hx'
    obtain ⟨hi, hkey⟩ := List.mem_filter.mp hi
    obtain ⟨hj, hkey'⟩ := List.mem_filter.mp hj
    have hij := hval j hj i hi h
    subst hij
    simp only [beq_iff_eq] at hkey hkey'
    exact hbc (hkey.symm.trans hkey')

section Longest

variable {ι α : Type*}

/-- The length of the longest row. -/
def longest (rows : List (List α)) : ℕ := (rows.map List.length).foldr max 0

@[simp] theorem longest_nil : longest ([] : List (List α)) = 0 := rfl

@[simp] theorem longest_cons (row : List α) (rows : List (List α)) :
    longest (row :: rows) = max row.length (longest rows) := rfl

@[simp] theorem longest_replicate_nil (n : ℕ) :
    longest (List.replicate n ([] : List α)) = 0 := by
  induction n with
  | zero => rfl
  | succ n ih => simp [List.replicate_succ, ih]

/-- A row that grows is all that can change the longest. -/
theorem longest_set {row row' : List α} (hle : row.length ≤ row'.length) :
    ∀ {rows : List (List α)} {b : ℕ}, rows[b]? = some row →
      longest (rows.set b row') = max (longest rows) row'.length
  | [], _, h => by simp at h
  | head :: rows, 0, h => by
      cases h
      rw [List.set_cons_zero, longest_cons, longest_cons]
      omega
  | head :: rows, b + 1, h => by
      have htail : rows[b]? = some row := h
      rw [List.set_cons_succ, longest_cons, longest_cons, longest_set hle htail, max_assoc]

/-- After an append only the row appended to can be longer than before. -/
theorem longest_pushAt {rows rows' : List (List α)} {b : ℕ} {x : α}
    (h : pushAt rows b x = .ok rows') :
    longest rows' = max (longest rows) (rows'.getD b []).length := by
  cases hrow : rows[b]? with
  | none =>
      rw [pushAt, hrow] at h
      cases h
  | some row =>
      rw [pushAt, hrow] at h
      cases h
      obtain ⟨hb, -⟩ := List.getElem?_eq_some_iff.mp hrow
      rw [longest_set (by simp) hrow]
      simp [hb]

/-- Lengths are kept by a function of the values. -/
@[simp] theorem longest_map_map {β : Type*} (g : α → β) (rows : List (List α)) :
    longest (rows.map (List.map g)) = longest rows := by
  induction rows with
  | nil => rfl
  | cons row rows ih => rw [List.map_cons, longest_cons, longest_cons, List.length_map, ih]

end Longest

/-- Two nested loops are one loop over the pairs they visit. -/
theorem foldlM_flatMap {m : Type → Type} [Monad m] [LawfulMonad m] {σ ι κ : Type}
    (f : ι → List κ) (step : σ → κ → m σ) :
    ∀ (items : List ι) (s : σ),
      (items.flatMap f).foldlM step s = items.foldlM (fun s i => (f i).foldlM step s) s
  | [], s => rfl
  | i :: items, s => by
      rw [List.flatMap_cons, List.foldlM_append, List.foldlM_cons]
      congr 1
      funext s'
      exact foldlM_flatMap f step items s'

/-- Loops with equal bodies are equal. -/
theorem foldlM_congr {m : Type → Type} [Monad m] {σ ι : Type} {step step' : σ → ι → m σ} :
    ∀ (items : List ι) (s : σ), (∀ s, ∀ i ∈ items, step s i = step' s i) →
      items.foldlM step s = items.foldlM step' s
  | [], _, _ => rfl
  | i :: items, s, h => by
      rw [List.foldlM_cons, List.foldlM_cons, h s i (List.mem_cons_self ..)]
      congr 1
      funext s'
      exact foldlM_congr items s' fun s j hj => h s j (List.mem_cons_of_mem _ hj)

end Sectric.Lib
