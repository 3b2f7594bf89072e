-- SUMMARY: Values that stay close together when only the smallest one grows.
import Mathlib.Algebra.Order.Monoid.Defs
import Mathlib.Algebra.Order.Group.Defs

/-! # Spread

The basis of stride scheduling. Each member of a group has a value, and the member with
the smallest value is charged. If no charge is more than `D` and no two values differ by
more than `D`, this stays so.
-/

variable {ι α : Type*} [AddCommGroup α] [LinearOrder α]

/-- The values of the members `A` differ by at most `D`. -/
def Within (A : ι → Prop) (f : ι → α) (D : α) : Prop := ∀ i, A i → ∀ j, A j → f i ≤ f j + D

namespace Within

variable {A B : ι → Prop} {f g : ι → α} {D e : α}

theorem congr (h : Within A f D) (hA : ∀ i, B i → A i) (hf : ∀ i, B i → g i = f i) : Within B g D := by
  intro i hi j hj
  rw [hf i hi, hf j hj]
  exact h i (hA i hi) j (hA j hj)

/-- The smallest value grows by at most `D`. -/
theorem charge [IsOrderedAddMonoid α] (h : Within A f D) {i : ι} (hmin : ∀ j, A j → f i ≤ f j) (hpos : 0 ≤ e) (he : e ≤ D)
    (hi : g i = f i + e) (hother : ∀ j, A j → j ≠ i → g j = f j) : Within A g D := by
  have hle : ∀ j, A j → f j ≤ g j := by
    intro j hj
    by_cases hji : j = i
    · rw [hji, hi]
      exact le_add_of_nonneg_right hpos
    · rw [hother j hj hji]
  intro j hj k hk
  by_cases hji : j = i
  · calc g j = f i + e := by rw [hji, hi]
      _ ≤ f k + D := add_le_add (hmin k hk) he
      _ ≤ g k + D := add_le_add_left (hle k hk) D
  · calc g j = f j := hother j hj hji
      _ ≤ f k + D := h j hj k hk
      _ ≤ g k + D := add_le_add_left (hle k hk) D

end Within
