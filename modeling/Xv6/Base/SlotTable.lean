-- SUMMARY: Finite maps kept in the slots of a table.
import Mathlib.Logic.Function.Basic
import Mathlib.Tactic.Common

/-! # Slot tables

A table has `n` slots, each empty or with a key and a value. A key is looked for from the
first slot on, a new one goes to the first empty slot or behind the last. As long as no key
is there twice, the table is a finite map, and these operations are those of the map.
-/

namespace SlotTable

variable {K V : Type} [DecidableEq K] {f : Nat → Option (K × V)} {n j : Nat} {k : K} {v : V}

/-- The first slot with the key. -/
def find (f : Nat → Option (K × V)) (n : Nat) (k : K) : Option Nat :=
  (List.range n).find? fun j => (f j).any (·.1 = k)

/-- The first empty slot, or the one behind the last. -/
def vacant (f : Nat → Option (K × V)) (n : Nat) : Nat :=
  ((List.range n).find? fun j => (f j).isNone).getD n

/-- The value in the first slot with the key. -/
def value (f : Nat → Option (K × V)) (n : Nat) (k : K) : Option V :=
  (find f n k).bind fun j => (f j).map (·.2)

/-- No key is there twice. -/
def Unique (f : Nat → Option (K × V)) (n : Nat) : Prop :=
  ∀ i < n, ∀ j < n, ∀ k v w, f i = some (k, v) → f j = some (k, w) → i = j

/-! ## Looking for a slot -/

theorem any_key_iff {x : Option (K × V)} : x.any (·.1 = k) = true ↔ ∃ v, x = some (k, v) := by
  cases x with
  | none => simp
  | some x =>
    obtain ⟨k', v⟩ := x
    simp [eq_comm]

theorem find_eq_some_iff : find f n k = some j ↔
    j < n ∧ (∃ v, f j = some (k, v)) ∧ ∀ i < j, ∀ v, f i ≠ some (k, v) := by
  unfold find
  rw [List.find?_range_eq_some, any_key_iff]
  constructor
  · rintro ⟨hj, hlt, hfirst⟩
    refine ⟨List.mem_range.mp hlt, hj, fun i hi v hv => ?_⟩
    have := hfirst i hi
    rw [any_key_iff.mpr ⟨v, hv⟩] at this
    cases this
  · rintro ⟨hlt, hj, hfirst⟩
    refine ⟨hj, List.mem_range.mpr hlt, fun i hi => ?_⟩
    rw [Bool.not_eq_true', ← Bool.not_eq_true, any_key_iff]
    rintro ⟨v, hv⟩
    exact hfirst i hi v hv

theorem find_eq_none_iff : find f n k = none ↔ ∀ i < n, ∀ v, f i ≠ some (k, v) := by
  unfold find
  rw [List.find?_eq_none]
  constructor
  · intro h i hi v hv
    exact h i (List.mem_range.mpr hi) (any_key_iff.mpr ⟨v, hv⟩)
  · intro h i hi hany
    obtain ⟨v, hv⟩ := any_key_iff.mp hany
    exact h i (List.mem_range.mp hi) v hv

omit [DecidableEq K] in
theorem vacant_le (f : Nat → Option (K × V)) (n : Nat) : vacant f n ≤ n := by
  unfold vacant
  cases h : (List.range n).find? fun j => (f j).isNone with
  | none => exact Nat.le_refl n
  | some j => exact Nat.le_of_lt (List.mem_range.mp (List.mem_of_find?_eq_some h))

omit [DecidableEq K] in
theorem vacant_eq_iff (hj : j ≤ n) : vacant f n = j ↔ (j < n → f j = none) ∧ ∀ i < j, f i ≠ none := by
  unfold vacant
  constructor
  · rintro rfl
    cases h : (List.range n).find? fun j => (f j).isNone with
    | none =>
      refine ⟨fun hlt => absurd hlt (Nat.lt_irrefl n), fun i hi hnone => ?_⟩
      exact List.find?_eq_none.mp h i (List.mem_range.mpr hi) (Option.isNone_iff_eq_none.mpr hnone)
    | some j =>
      obtain ⟨hj, -, hfirst⟩ := List.find?_range_eq_some.mp h
      refine ⟨fun _ => Option.isNone_iff_eq_none.mp hj, fun i hi hnone => ?_⟩
      have := hfirst i hi
      rw [Option.isNone_iff_eq_none.mpr hnone] at this
      cases this
  · rintro ⟨hj', hfirst⟩
    have hfull : ∀ i < j, (f i).isNone = false := fun i hi =>
      Bool.eq_false_iff.mpr fun h => hfirst i hi (Option.isNone_iff_eq_none.mp h)
    by_cases hlt : j < n
    · rw [List.find?_range_eq_some.mpr ⟨Option.isNone_iff_eq_none.mpr (hj' hlt), List.mem_range.mpr hlt, fun i hi => by
        rw [hfull i hi]
        rfl⟩]
      rfl
    · have heq : j = n := by omega
      rw [List.find?_eq_none.mpr fun i hi => by rw [hfull i (heq ▸ List.mem_range.mp hi)]; exact Bool.false_ne_true]
      exact heq.symm

theorem value_of_find_none (h : find f n k = none) : value f n k = none := by
  unfold value
  rw [h]
  rfl

theorem value_of_find (h : find f n k = some j) (hj : f j = some (k, v)) : value f n k = some v := by
  unfold value
  rw [h, Option.bind_some, hj]
  rfl

theorem value_eq_none_iff : value f n k = none ↔ ∀ i < n, ∀ v, f i ≠ some (k, v) := by
  rw [← find_eq_none_iff]
  unfold value
  cases h : find f n k with
  | none => simp
  | some j =>
    obtain ⟨-, ⟨v, hv⟩, -⟩ := find_eq_some_iff.mp h
    simp [hv]

theorem Unique.value_eq_some_iff (hu : Unique f n) : value f n k = some v ↔ ∃ i < n, f i = some (k, v) := by
  unfold value
  constructor
  · intro h
    cases hf : find f n k with
    | none => rw [hf] at h; cases h
    | some j =>
      obtain ⟨hlt, ⟨w, hw⟩, -⟩ := find_eq_some_iff.mp hf
      rw [hf, Option.bind_some, hw] at h
      cases h
      exact ⟨j, hlt, hw⟩
  · rintro ⟨i, hi, hv⟩
    cases hf : find f n k with
    | none => exact absurd hv (find_eq_none_iff.mp hf i hi v)
    | some j =>
      obtain ⟨hlt, ⟨w, hw⟩, -⟩ := find_eq_some_iff.mp hf
      rw [hu j hlt i hi k w v hw hv, Option.bind_some, hv]
      rfl

/-! ## New keys -/

section Insert

variable {f' : Nat → Option (K × V)} {n' : Nat}

/-- `f'` with `n'` slots is `f` with `n` and the new pair in the first empty slot. -/
structure Inserted (f : Nat → Option (K × V)) (n : Nat) (k : K) (v : V) (f' : Nat → Option (K × V)) (n' : Nat) : Prop where
  new : f' (vacant f n) = some (k, v)
  old : ∀ i < n, i ≠ vacant f n → f' i = f i
  count : n' = max n (vacant f n + 1)

omit [DecidableEq K] in
theorem Inserted.iff (h : Inserted f n k v f' n') {i : Nat} {l : K} {w : V} :
    i < n' ∧ f' i = some (l, w) ↔ (i = vacant f n ∧ l = k ∧ w = v) ∨ (i < n ∧ f i = some (l, w)) := by
  have hle := vacant_le f n
  have hspec := (vacant_eq_iff hle).mp (rfl : vacant f n = vacant f n)
  rw [h.count]
  constructor
  · rintro ⟨hlt, hi⟩
    by_cases hj : i = vacant f n
    · rw [hj, h.new] at hi
      cases hi
      exact .inl ⟨hj, rfl, rfl⟩
    · have hi' : i < n := by omega
      rw [h.old i hi' hj] at hi
      exact .inr ⟨hi', hi⟩
  · rintro (⟨rfl, rfl, rfl⟩ | ⟨hlt, hi⟩)
    · exact ⟨by omega, h.new⟩
    · have hj : i ≠ vacant f n := by
        intro heq
        rw [heq] at hlt hi
        rw [hspec.1 hlt] at hi
        cases hi
      exact ⟨by omega, by rw [h.old i hlt hj, hi]⟩

theorem Unique.insert (hu : Unique f n) (hk : find f n k = none) (h : Inserted f n k v f' n') : Unique f' n' := by
  have hno := find_eq_none_iff.mp hk
  intro i hi j hj l x y hx hy
  rcases h.iff.mp ⟨hi, hx⟩ with ⟨hi', hl, -⟩ | ⟨hi', hx'⟩
  · rcases h.iff.mp ⟨hj, hy⟩ with ⟨hj', -, -⟩ | ⟨hj', hy'⟩
    · rw [hi', hj']
    · rw [hl] at hy'
      exact absurd hy' (hno j hj' y)
  · rcases h.iff.mp ⟨hj, hy⟩ with ⟨-, hl, -⟩ | ⟨hj', hy'⟩
    · rw [hl] at hx'
      exact absurd hx' (hno i hi' x)
    · exact hu i hi' j hj' l x y hx' hy'

theorem value_insert (hu : Unique f n) (hk : find f n k = none) (h : Inserted f n k v f' n') :
    value f' n' = Function.update (value f n) k (some v) := by
  have hno := find_eq_none_iff.mp hk
  funext l
  ext w
  rw [(hu.insert hk h).value_eq_some_iff]
  by_cases hl : l = k
  · subst hl
    rw [Function.update_self, Option.some.injEq]
    constructor
    · rintro ⟨i, hi⟩
      rcases h.iff.mp hi with ⟨-, -, hw⟩ | ⟨hi', hw⟩
      · exact hw.symm
      · exact absurd hw (hno i hi' w)
    · rintro rfl
      exact ⟨vacant f n, h.iff.mpr (.inl ⟨rfl, rfl, rfl⟩)⟩
  · rw [Function.update_of_ne hl, hu.value_eq_some_iff]
    constructor
    · rintro ⟨i, hi⟩
      rcases h.iff.mp hi with ⟨-, hl', -⟩ | hi'
      · exact absurd hl' hl
      · exact ⟨i, hi'⟩
    · rintro ⟨i, hi⟩
      exact ⟨i, h.iff.mpr (.inr hi)⟩

end Insert

/-! ## Erased keys -/

section Erase

variable {f' : Nat → Option (K × V)}

omit [DecidableEq K] in
theorem Unique.erase (hu : Unique f n) (h : ∀ i < n, f' i = if i = j then none else f i) : Unique f' n := by
  intro i hi i' hi' l x y hx hy
  rw [h i hi] at hx
  rw [h i' hi'] at hy
  split at hx
  · cases hx
  · split at hy
    · cases hy
    · exact hu i hi i' hi' l x y hx hy

theorem value_erase (hu : Unique f n) (hk : find f n k = some j) (h : ∀ i < n, f' i = if i = j then none else f i) :
    value f' n = Function.update (value f n) k none := by
  obtain ⟨hj, ⟨x, hx⟩, -⟩ := find_eq_some_iff.mp hk
  funext l
  ext w
  rw [(hu.erase h).value_eq_some_iff]
  by_cases hl : l = k
  · subst hl
    rw [Function.update_self]
    refine iff_of_false ?_ (by simp)
    rintro ⟨i, hi, hw⟩
    rw [h i hi] at hw
    split at hw
    · cases hw
    · next hne => exact hne (hu i hi j hj l w x hw hx)
  · rw [Function.update_of_ne hl, hu.value_eq_some_iff]
    refine exists_congr fun i => and_congr_right fun hi => ?_
    rw [h i hi]
    split
    · next heq =>
      rw [heq, hx]
      refine iff_of_false (by simp) fun hw => ?_
      cases hw
      exact hl rfl
    · rfl

end Erase

end SlotTable
