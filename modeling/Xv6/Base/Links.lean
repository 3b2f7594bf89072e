-- SUMMARY: Doubly linked lists that run in a cycle through a head.
import Mathlib.Data.List.Nodup
import Mathlib.Logic.Function.Basic

/-! # Doubly linked cycles

Nodes with a next and a previous node each, and a head that is `none`. `Seg x l y` says
that from `x` one comes through the nodes of `l` to `y`, and back by the same way. A
cycle leads from the head to the head.
-/

namespace Xv6

structure Links (α : Type*) where
  next : Option α → Option α
  prev : Option α → Option α

namespace Links

variable {α : Type*}

/-- From `x` through `l` to `y`, and back. -/
def Seg (L : Links α) : Option α → List α → Option α → Prop
  | x, [], y => L.next x = y ∧ L.prev y = x
  | x, a :: l, y => L.next x = some a ∧ L.prev (some a) = x ∧ L.Seg (some a) l y

/-- The head is in a cycle with the nodes of `l`. -/
structure Cycle (L : Links α) (l : List α) : Prop where
  seg : L.Seg none l none
  nodup : l.Nodup

section Segments

variable {L M : Links α} {x y : Option α} {l l₁ l₂ : List α} {a : α}

theorem Seg.append : L.Seg x (l₁ ++ a :: l₂) y ↔ L.Seg x l₁ (some a) ∧ L.Seg (some a) l₂ y := by
  induction l₁ generalizing x with
  | nil => exact ⟨fun h => ⟨⟨h.1, h.2.1⟩, h.2.2⟩, fun h => ⟨h.1.1, h.1.2, h.2⟩⟩
  | cons b l₁ ih => exact ⟨fun h => ⟨⟨h.1, h.2.1, (ih.mp h.2.2).1⟩, (ih.mp h.2.2).2⟩,
      fun h => ⟨h.1.1, h.1.2.1, ih.mpr ⟨h.1.2.2, h.2⟩⟩⟩

/-- The other way round. -/
theorem Seg.flip (h : L.Seg x l y) : Links.Seg ⟨L.prev, L.next⟩ y l.reverse x := by
  induction l generalizing x with
  | nil => exact ⟨h.2, h.1⟩
  | cons b l ih =>
    rw [List.reverse_cons]
    exact Seg.append.mpr ⟨ih h.2.2, h.2.1, h.1⟩

/-- Only these links matter. -/
theorem Seg.congr (h : L.Seg x l y) (hnext : ∀ z, z = x ∨ (∃ b ∈ l, z = some b) → M.next z = L.next z)
    (hprev : ∀ z, z = y ∨ (∃ b ∈ l, z = some b) → M.prev z = L.prev z) : M.Seg x l y := by
  induction l generalizing x with
  | nil => exact ⟨(hnext x (.inl rfl)).trans h.1, (hprev y (.inl rfl)).trans h.2⟩
  | cons b l ih =>
    have hmem : ∀ {z}, z = some b ∨ (∃ c ∈ l, z = some c) → ∃ c ∈ b :: l, z = some c := by
      rintro z (hz | ⟨c, hc, hz⟩)
      · exact ⟨b, List.mem_cons_self, hz⟩
      · exact ⟨c, List.mem_cons_of_mem b hc, hz⟩
    refine ⟨(hnext x (.inl rfl)).trans h.1, (hprev _ (.inr (hmem (.inl rfl)))).trans h.2.1, ?_⟩
    exact ih h.2.2 (fun z hz => hnext z (.inr (hmem hz)))
      fun z hz => hprev z (hz.imp_right fun hz => hmem (.inr hz))

end Segments

/-! ## Walking -/

/-- Walk along `next` to the first node that satisfies `p`, or to the head. The result
    is `none` if the walk takes more than `fuel` steps. -/
def walk (next : Option α → Option α) (p : α → Bool) : (fuel : Nat) → Option α → Option (Option α)
  | 0, _ => none
  | fuel + 1, x =>
    match next x with
    | none => some none
    | some a => if p a then some (some a) else walk next p fuel (some a)

section Walk

variable {L : Links α} {l : List α} {p : α → Bool}

theorem Seg.walk {x : Option α} (h : L.Seg x l none) {fuel : Nat} (hfuel : l.length < fuel) :
    Links.walk L.next p fuel x = some (l.find? p) := by
  induction l generalizing x fuel with
  | nil =>
    obtain ⟨fuel, rfl⟩ := Nat.exists_eq_succ_of_ne_zero (Nat.ne_of_gt hfuel)
    simp only [Links.walk, h.1]
    rfl
  | cons a l ih =>
    obtain ⟨fuel, rfl⟩ := Nat.exists_eq_succ_of_ne_zero (Nat.ne_zero_of_lt hfuel)
    simp only [Links.walk, h.1, List.find?_cons]
    cases hp : p a with
    | true => rfl
    | false => exact ih h.2.2 (Nat.lt_of_succ_lt_succ hfuel)

/-- A walk forward finds the first node. -/
theorem Cycle.walk_next (h : L.Cycle l) {fuel : Nat} (hfuel : l.length < fuel) :
    Links.walk L.next p fuel none = some (l.find? p) := h.seg.walk hfuel

/-- A walk backward finds the last node. -/
theorem Cycle.walk_prev (h : L.Cycle l) {fuel : Nat} (hfuel : l.length < fuel) :
    Links.walk L.prev p fuel none = some (l.reverse.find? p) := by
  have hflip := h.seg.flip
  exact hflip.walk (by rwa [List.length_reverse])

end Walk

/-! ## Moving nodes -/

variable [DecidableEq α]

/-- The neighbours of `a` are linked to each other. -/
def unlink (L : Links α) (a : α) : Links α where
  next := Function.update L.next (L.prev (some a)) (L.next (some a))
  prev := Function.update L.prev (L.next (some a)) (L.prev (some a))

/-- `a` comes right after the head. -/
def pushFront (L : Links α) (a : α) : Links α where
  next := Function.update (Function.update L.next (some a) (L.next none)) none (some a)
  prev := Function.update (Function.update L.prev (some a) none) (L.next none) (some a)

section Moves

variable {L : Links α} {x y : Option α} {l l₁ l₂ : List α} {a : α}

theorem unlink_next_same : (L.unlink a).next (L.prev (some a)) = L.next (some a) := Function.update_self _ _ _

theorem unlink_prev_same : (L.unlink a).prev (L.next (some a)) = L.prev (some a) := Function.update_self _ _ _

/-- What comes after a node that is taken out. -/
theorem Seg.unlink_next (h : L.Seg (some a) l y) (hx : ∀ b ∈ l, L.prev (some a) ≠ some b) (hy : ∀ b ∈ l, y ≠ some b)
    (hnodup : (a :: l).Nodup) : (L.unlink a).Seg (L.prev (some a)) l y := by
  cases l with
  | nil => exact ⟨unlink_next_same.trans h.1, h.1 ▸ unlink_prev_same⟩
  | cons b l =>
    obtain ⟨ha, hb⟩ := List.nodup_cons.mp hnodup
    obtain ⟨hb, -⟩ := List.nodup_cons.mp hb
    refine ⟨unlink_next_same.trans h.1, h.1 ▸ unlink_prev_same, h.2.2.congr (fun z hz => ?_) fun z hz => ?_⟩
    · refine Function.update_of_ne ?_ _ _
      rintro rfl
      rcases hz with hz | ⟨c, hc, hz⟩
      · exact hx b List.mem_cons_self hz
      · exact hx c (List.mem_cons_of_mem b hc) hz
    · refine Function.update_of_ne ?_ _ _
      rw [h.1]
      rintro rfl
      rcases hz with hz | ⟨c, hc, hz⟩
      · exact hy b List.mem_cons_self hz.symm
      · exact hb (Option.some.inj hz ▸ hc)

theorem Seg.unlink (h : L.Seg x (l₁ ++ a :: l₂) y) (hx : ∀ b ∈ l₁ ++ a :: l₂, x ≠ some b)
    (hy : ∀ b ∈ l₁ ++ a :: l₂, y ≠ some b) (hnodup : (l₁ ++ a :: l₂).Nodup) : (L.unlink a).Seg x (l₁ ++ l₂) y := by
  induction l₁ generalizing x with
  | nil =>
    obtain ⟨-, rfl, hseg⟩ := h
    exact hseg.unlink_next (fun b hb => hx b (List.mem_cons_of_mem a hb))
      (fun b hb => hy b (List.mem_cons_of_mem a hb)) hnodup
  | cons b l₁ ih =>
    obtain ⟨hb, hnodup⟩ := List.nodup_cons.mp hnodup
    have hrest : ∀ c ∈ l₁ ++ a :: l₂, some b ≠ some c := fun c hc hbc => hb (Option.some.inj hbc ▸ hc)
    obtain ⟨hnext, hprev, hseg⟩ := h
    obtain ⟨hto, hfrom⟩ := Seg.append.mp hseg
    -- The neighbours of `a` come after `x`.
    have hpx : x ≠ L.prev (some a) := by
      intro hpa
      cases hl : l₁ with
      | nil =>
        rw [hl] at hto
        rw [hto.2] at hpa
        exact hx b List.mem_cons_self hpa
      | cons c l =>
        have hlast := hto.flip
        rw [hl] at hlast
        cases hr : (c :: l).reverse with
        | nil => simp at hr
        | cons d r =>
          rw [hr] at hlast
          have hd : d ∈ c :: l := List.mem_reverse.mp (hr ▸ List.mem_cons_self)
          have hmem : d ∈ b :: l₁ ++ a :: l₂ := by
            rw [hl]
            exact List.mem_cons_of_mem b (List.mem_append_left _ hd)
          exact hx d hmem (hpa.trans hlast.1)
    have hnb : some b ≠ L.next (some a) := by
      intro hna
      cases hl : l₂ with
      | nil =>
        rw [hl] at hfrom
        exact hy b List.mem_cons_self (hfrom.1.symm.trans hna.symm)
      | cons c l =>
        rw [hl] at hfrom
        have hc : c ∈ l₁ ++ a :: l₂ := by
          rw [hl]
          exact List.mem_append_right _ (List.mem_cons_of_mem a List.mem_cons_self)
        exact hrest c hc (hna.trans hfrom.1)
    refine ⟨?_, ?_, ih hseg hrest (fun c hc => hy c (List.mem_cons_of_mem b hc)) hnodup⟩
    · exact (Function.update_of_ne hpx _ _).trans hnext
    · exact (Function.update_of_ne hnb _ _).trans hprev

theorem Cycle.unlink (h : L.Cycle l) (ha : a ∈ l) : (L.unlink a).Cycle (l.erase a) := by
  obtain ⟨l₁, l₂, rfl, hnot⟩ := List.eq_append_cons_of_mem ha
  rw [List.erase_append_right _ hnot, List.erase_cons_head]
  refine ⟨h.seg.unlink (fun _ _ => Option.some_ne_none _ |>.symm) (fun _ _ => Option.some_ne_none _ |>.symm) h.nodup, ?_⟩
  exact h.nodup.sublist (List.Sublist.append_left (List.sublist_cons_self a l₂) l₁)

theorem pushFront_next_head : (L.pushFront a).next none = some a := by
  simp only [Links.pushFront, Function.update_self]

theorem pushFront_next_new : (L.pushFront a).next (some a) = L.next none := by
  simp only [Links.pushFront, Function.update_of_ne (Option.some_ne_none a), Function.update_self]

theorem pushFront_prev_first : (L.pushFront a).prev (L.next none) = some a := by
  simp only [Links.pushFront, Function.update_self]

theorem pushFront_prev_new (h : L.next none ≠ some a) : (L.pushFront a).prev (some a) = none := by
  simp only [Links.pushFront, Function.update_of_ne h.symm, Function.update_self]

theorem pushFront_next_other {z : Option α} (hz : z ≠ none) (hza : z ≠ some a) :
    (L.pushFront a).next z = L.next z := by
  simp only [Links.pushFront, Function.update_of_ne hz, Function.update_of_ne hza]

theorem pushFront_prev_other {z : Option α} (hz : z ≠ L.next none) (hza : z ≠ some a) :
    (L.pushFront a).prev z = L.prev z := by
  simp only [Links.pushFront, Function.update_of_ne hz, Function.update_of_ne hza]

theorem Cycle.pushFront (h : L.Cycle l) (ha : a ∉ l) : (L.pushFront a).Cycle (a :: l) := by
  have hne : ∀ b ∈ l, some b ≠ some a := fun b hb hba => ha (Option.some.inj hba ▸ hb)
  refine ⟨?_, List.nodup_cons.mpr ⟨ha, h.nodup⟩⟩
  cases l with
  | nil =>
    have hempty := h.seg.1
    refine ⟨pushFront_next_head, pushFront_prev_new ?_, pushFront_next_new.trans hempty, hempty ▸ pushFront_prev_first⟩
    rw [hempty]
    exact (Option.some_ne_none a).symm
  | cons b l =>
    obtain ⟨hnext, -, hseg⟩ := h.seg
    obtain ⟨hb, -⟩ := List.nodup_cons.mp h.nodup
    have hnew : (L.pushFront a).prev (some a) = none := by
      refine pushFront_prev_new ?_
      rw [hnext]
      exact hne b List.mem_cons_self
    refine ⟨pushFront_next_head, hnew, pushFront_next_new.trans hnext, hnext ▸ pushFront_prev_first,
      hseg.congr (fun z hz => ?_) fun z hz => ?_⟩
    · rcases hz with rfl | ⟨c, hc, rfl⟩
      · exact pushFront_next_other (Option.some_ne_none b) (hne b List.mem_cons_self)
      · exact pushFront_next_other (Option.some_ne_none c) (hne c (List.mem_cons_of_mem b hc))
    · rcases hz with rfl | ⟨c, hc, rfl⟩
      · exact pushFront_prev_other (hnext ▸ (Option.some_ne_none b).symm) (Option.some_ne_none a).symm
      · refine pushFront_prev_other ?_ (hne c (List.mem_cons_of_mem b hc))
        rw [hnext]
        exact fun hcb => hb (Option.some.inj hcb ▸ hc)

/-- Nodes that are put in one after the other. -/
theorem Cycle.foldl_pushFront {as : List α} (h : L.Cycle l) (has : as.Nodup) (hdisj : ∀ a ∈ as, a ∉ l) :
    (as.foldl Links.pushFront L).Cycle (as.reverse ++ l) := by
  induction as generalizing L l with
  | nil => exact h
  | cons a as ih =>
    obtain ⟨ha, has⟩ := List.nodup_cons.mp has
    rw [List.reverse_cons, List.append_assoc]
    refine ih (h.pushFront (hdisj a List.mem_cons_self)) has fun b hb => ?_
    refine List.not_mem_cons_of_ne_of_not_mem ?_ (hdisj b (List.mem_cons_of_mem a hb))
    rintro rfl
    exact ha hb

end Moves

end Links

end Xv6
