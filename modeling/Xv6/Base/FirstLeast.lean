-- SUMMARY: A scan over a list that keeps the first element with the smallest key.
import Mathlib.Data.List.Basic
import Mathlib.Order.Nat
import Mathlib.Tactic.Common

/-! # The first element with the smallest key

A loop goes over a list and keeps a bound and the element that has set it. An element
without a key is passed over; one with a key below the bound sets the bound. In the end
the element kept is the first one with the smallest key, if that key is below the bound
that the loop started from.
-/

namespace FirstLeast

variable {α : Type*} (key : α → Option Nat)

/-- One round. -/
def step (r : Nat × Option α) (x : α) : Nat × Option α :=
  match key x with
  | none => r
  | some k => if k < r.1 then (k, some x) else r

/-- What the loop has kept after the elements `xs`, if it started from `bound`. -/
structure Kept (bound : Nat) (xs : List α) (r : Nat × Option α) : Prop where
  none : r.2 = none → r.1 = bound ∧ ∀ x ∈ xs, ∀ k, key x = some k → bound ≤ k
  some : ∀ m, r.2 = some m → r.1 < bound ∧ key m = some r.1 ∧ ∃ pre post, xs = pre ++ m :: post ∧
    (∀ x ∈ pre, ∀ k, key x = some k → r.1 < k) ∧ ∀ x ∈ post, ∀ k, key x = some k → r.1 ≤ k

variable {key} {bound : Nat} {xs : List α} {r : Nat × Option α}

theorem Kept.le (h : Kept key bound xs r) {x : α} (hx : x ∈ xs) {k : Nat} (hk : key x = .some k) : r.1 ≤ k := by
  cases hr : r.2 with
  | none =>
    obtain ⟨hb, hle⟩ := h.none hr
    rw [hb]
    exact hle x hx k hk
  | some m =>
    obtain ⟨-, hm, pre, post, rfl, hpre, hpost⟩ := h.some m hr
    rcases List.mem_append.mp hx with hx | hx
    · exact (hpre x hx k hk).le
    · rcases List.mem_cons.mp hx with rfl | hx
      · rw [hm] at hk
        exact (Option.some.inj hk).le
      · exact hpost x hx k hk

theorem Kept.le_bound (h : Kept key bound xs r) : r.1 ≤ bound := by
  cases hr : r.2 with
  | none => exact (h.none hr).1.le
  | some m => exact (h.some m hr).1.le

/-- An element is passed over that has no key, or none below the bound. -/
theorem Kept.skip (h : Kept key bound xs r) {x : α} (hx : ∀ k, key x = .some k → r.1 ≤ k) :
    Kept key bound (xs ++ [x]) r := by
  refine ⟨fun hr => ?_, fun m hr => ?_⟩
  · obtain ⟨hb, hle⟩ := h.none hr
    refine ⟨hb, fun y hy k hk => ?_⟩
    rcases List.mem_append.mp hy with hy | hy
    · exact hle y hy k hk
    · rw [List.mem_singleton.mp hy] at hk
      exact hb ▸ hx k hk
  · obtain ⟨hb, hm, pre, post, rfl, hpre, hpost⟩ := h.some m hr
    refine ⟨hb, hm, pre, post ++ [x], by simp, hpre, fun y hy k hk => ?_⟩
    rcases List.mem_append.mp hy with hy | hy
    · exact hpost y hy k hk
    · rw [List.mem_singleton.mp hy] at hk
      exact hx k hk

/-- An element sets the bound. -/
theorem Kept.take (h : Kept key bound xs r) {x : α} {k : Nat} (hk : key x = .some k) (hlt : k < r.1) :
    Kept key bound (xs ++ [x]) (k, .some x) := by
  refine ⟨fun hr => absurd hr (Option.some_ne_none x), fun m hm => ?_⟩
  obtain rfl := Option.some.inj hm
  refine ⟨hlt.trans_le h.le_bound, hk, xs, [], rfl, fun y hy l hl => hlt.trans_le (h.le hy hl), fun y hy => ?_⟩
  exact absurd hy List.not_mem_nil

theorem Kept.step (h : Kept key bound xs r) (x : α) : Kept key bound (xs ++ [x]) (step key r x) := by
  unfold FirstLeast.step
  cases hx : key x with
  | none => exact h.skip fun k hk => by rw [hx] at hk; cases hk
  | some k =>
    dsimp only
    split
    · next hlt => exact h.take hx hlt
    · next hge =>
      refine h.skip fun l hl => ?_
      rw [hx] at hl
      exact Option.some.inj hl ▸ not_lt.mp hge

theorem Kept.foldl (h : Kept key bound xs r) (ys : List α) :
    Kept key bound (xs ++ ys) (ys.foldl (FirstLeast.step key) r) := by
  induction ys generalizing xs r with
  | nil => rwa [List.append_nil]
  | cons y ys ih =>
    have := ih (h.step y)
    rwa [List.append_assoc] at this

/-- What the whole loop keeps. -/
theorem kept_foldl (key : α → Option Nat) (bound : Nat) (xs : List α) :
    Kept key bound xs (xs.foldl (step key) (bound, none)) := by
  have hstart : Kept key bound [] (bound, Option.none) :=
    ⟨fun _ => ⟨rfl, fun x hx => absurd hx List.not_mem_nil⟩, fun m hm => absurd hm.symm (Option.some_ne_none m)⟩
  exact hstart.foldl xs

end FirstLeast
