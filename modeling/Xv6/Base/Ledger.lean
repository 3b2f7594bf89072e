-- SUMMARY: A pot and what is held out of it, with a constant total.
import Mathlib.Algebra.BigOperators.Group.Finset.Basic
import Mathlib.Algebra.Order.BigOperators.Group.Finset
import Mathlib.Data.Fintype.BigOperators

/-! # Ledgers

A pot of some good, of which every member of a group may hold a part. What is taken
out of the pot is held by a member until it goes back. The good is an amount, or a
collection of things.
-/

namespace Xv6

/-- What is left in the pot and what is held sum up to `total`. -/
def Balanced {ι α : Type*} [Fintype ι] [AddCommMonoid α] (pot : α) (held : ι → α) (total : α) : Prop :=
  pot + ∑ i, held i = total

namespace Balanced

variable {ι α : Type*} [Fintype ι] {held held' : ι → α}

section Moves

variable [AddCommMonoid α] {pot pot' total : α}

/-- Something goes from the pot to `a`, or back. -/
theorem move [DecidableEq ι] (h : Balanced pot held total) (a : ι) (hother : ∀ i, i ≠ a → held' i = held i)
    (ha : pot' + held' a = pot + held a) : Balanced pot' held' total := by
  have hrest : ∑ i ∈ Finset.univ.erase a, held' i = ∑ i ∈ Finset.univ.erase a, held i :=
    Finset.sum_congr rfl fun i hi => hother i (Finset.ne_of_mem_erase hi)
  calc pot' + ∑ i, held' i
      = pot' + held' a + ∑ i ∈ Finset.univ.erase a, held' i := by
        rw [add_assoc, Finset.add_sum_erase _ _ (Finset.mem_univ a)]
    _ = pot + held a + ∑ i ∈ Finset.univ.erase a, held i := by rw [ha, hrest]
    _ = pot + ∑ i, held i := by rw [add_assoc, Finset.add_sum_erase _ _ (Finset.mem_univ a)]
    _ = total := h

theorem congr (h : Balanced pot held total) (hpot : pot' = pot) (hheld : ∀ i, held' i = held i) :
    Balanced pot' held' total := by
  rwa [hpot, show held' = held from funext hheld]

/-- The books are kept in another unit. -/
theorem map {β : Type*} [AddCommMonoid β] (h : Balanced pot held total) (φ : α →+ β) :
    Balanced (φ pot) (fun i => φ (held i)) (φ total) := by
  unfold Balanced at h ⊢
  rw [← h, map_add, map_sum]

/-- Only those count who hold something. -/
theorem filter (h : Balanced pot held total) (P : ι → Prop) [DecidablePred P] (hzero : ∀ i, ¬ P i → held i = 0) :
    pot + ∑ i with P i, held i = total := by
  rw [← h, Finset.sum_filter_of_ne]
  exact fun i _ hi => not_imp_comm.mp (hzero i) hi

end Moves

section Things

variable {pot total : Multiset α} {held : ι → Multiset α} {x : α}

theorem mem_of_pot (h : Balanced pot held total) (hx : x ∈ pot) : x ∈ total := by
  unfold Balanced at h
  rw [← h]
  exact Multiset.mem_add.mpr (.inl hx)

theorem mem_of_held (h : Balanced pot held total) {a : ι} (hx : x ∈ held a) : x ∈ total := by
  unfold Balanced at h
  rw [← h]
  exact Multiset.mem_add.mpr (.inr (Multiset.mem_sum.mpr ⟨a, Finset.mem_univ a, hx⟩))

theorem notMem_held (h : Balanced pot held total) (hnodup : total.Nodup) (hx : x ∈ pot) (a : ι) : x ∉ held a := by
  unfold Balanced at h
  rw [← h, Multiset.nodup_add] at hnodup
  intro ha
  exact Multiset.disjoint_left.mp hnodup.2.2 hx (Multiset.mem_sum.mpr ⟨a, Finset.mem_univ a, ha⟩)

/-- Nothing is held by two. -/
theorem notMem_held_of_ne [DecidableEq ι] (h : Balanced pot held total) (hnodup : total.Nodup) {a b : ι} (hab : a ≠ b)
    (hx : x ∈ held a) : x ∉ held b := by
  unfold Balanced at h
  rw [← h, Multiset.nodup_add, ← Finset.add_sum_erase _ _ (Finset.mem_univ a), Multiset.nodup_add] at hnodup
  intro hb
  exact Multiset.disjoint_left.mp hnodup.2.1.2.2 hx
    (Multiset.mem_sum.mpr ⟨b, Finset.mem_erase.mpr ⟨hab.symm, Finset.mem_univ b⟩, hb⟩)

end Things

section Bounds

variable [AddCommMonoid α] [PartialOrder α] [IsOrderedCancelAddMonoid α] {pot total : α}

theorem le_total (h : Balanced pot held total) (hpos : ∀ i, 0 ≤ held i) : pot ≤ total := by
  rw [← h]
  exact le_add_of_nonneg_right (Finset.sum_nonneg fun i _ => hpos i)

theorem lt_total (h : Balanced pot held total) (hpos : ∀ i, 0 ≤ held i) {a : ι} (ha : 0 < held a) : pot < total := by
  rw [← h]
  exact lt_add_of_pos_right _ (Finset.sum_pos' (fun i _ => hpos i) ⟨a, Finset.mem_univ a, ha⟩)

end Bounds

end Balanced

end Xv6
