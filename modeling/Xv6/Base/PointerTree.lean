-- SUMMARY: Forests of pointer tables of bounded depth: following paths, grafting a fresh node, and sharing-freedom.
import Mathlib.Tactic.Common
import Mathlib.Data.List.Induction

/-! # Pointer forests

A forest has a root pointer for every key and a table of child pointers in every
node; the pointer `0` means that nothing is there. A path is a key with a list
of table indices. Keys differ in how deep their trees go, and every table has
`fan` entries, so only the paths of `Shape.Path` count: what a block below the
last level holds is data, not pointers.

`Forest.Unshared` says that no node lies on two paths. The lemmas describe the
three ways a program changes such a forest: it grafts a fresh empty node onto an
empty place, it rewrites nodes that hold no pointers, and it drops roots.
-/

/-- How deep the tree of every key goes, and how many entries a table has. -/
structure Shape (K : Type) where
  depth : K → Nat
  fan : Nat

/-- The paths of a shape: at most `depth k` indices, each inside its table. -/
def Shape.Path {K : Type} (σ : Shape K) (k : K) (js : List Nat) : Prop :=
  js.length ≤ σ.depth k ∧ ∀ j ∈ js, j < σ.fan

structure Forest (K A : Type) where
  root : K → A
  child : A → Nat → A

namespace Shape

variable {K : Type} {σ : Shape K} {k : K}

theorem Path.nil : σ.Path k [] := ⟨Nat.zero_le _, by simp⟩

theorem Path.init {js : List Nat} {j : Nat} (h : σ.Path k (js ++ [j])) : σ.Path k js :=
  ⟨by have := h.1; simp at this; omega, fun i hi => h.2 i (by simp [hi])⟩

theorem Path.last_lt {js : List Nat} {j : Nat} (h : σ.Path k (js ++ [j])) : j < σ.fan :=
  h.2 j (by simp)

theorem Path.length_lt {js : List Nat} {j : Nat} (h : σ.Path k (js ++ [j])) :
    js.length < σ.depth k := by
  have := h.1
  simp at this
  omega

theorem Path.append_left {js ls : List Nat} (h : σ.Path k (js ++ ls)) : σ.Path k js :=
  ⟨by have := h.1; simp at this; omega, fun i hi => h.2 i (by simp [hi])⟩

theorem Path.concat {js : List Nat} {j : Nat} (h : σ.Path k js) (hlen : js.length < σ.depth k)
    (hj : j < σ.fan) : σ.Path k (js ++ [j]) := by
  refine ⟨by simp; omega, fun i hi => ?_⟩
  rcases List.mem_append.mp hi with hi | hi
  · exact h.2 i hi
  · rw [List.mem_singleton.mp hi]; exact hj

end Shape

namespace Forest

variable {K A : Type} [Zero A] [DecidableEq A]

/-- Follow a list of table indices from a node. -/
def follow (child : A → Nat → A) : A → List Nat → A
  | a, []      => a
  | a, j :: js => if a = 0 then 0 else follow child (child a j) js

/-- The node on a path, `0` when there is none. -/
def node (F : Forest K A) (k : K) (js : List Nat) : A := follow F.child (F.root k) js

@[simp] theorem follow_zero (child : A → Nat → A) (js : List Nat) : follow child 0 js = 0 := by
  cases js <;> simp [follow]

theorem follow_append (child : A → Nat → A) (a : A) (js ls : List Nat) :
    follow child a (js ++ ls) = follow child (follow child a js) ls := by
  induction js generalizing a with
  | nil => rfl
  | cons j js ih =>
    by_cases ha : a = 0
    · simp [ha]
    · simp [follow, ha, ih]

@[simp] theorem node_nil (F : Forest K A) (k : K) : F.node k [] = F.root k := rfl

theorem node_concat (F : Forest K A) (k : K) (js : List Nat) (j : Nat) :
    F.node k (js ++ [j]) = if F.node k js = 0 then 0 else F.child (F.node k js) j := by
  unfold node
  rw [follow_append]
  rfl

theorem node_concat_of_ne {F : Forest K A} {k : K} {js : List Nat} {j : Nat}
    (h : F.node k js ≠ 0) : F.node k (js ++ [j]) = F.child (F.node k js) j := by
  rw [node_concat, if_neg h]

theorem node_append_eq_zero {F : Forest K A} {k : K} {js : List Nat} (ls : List Nat)
    (h : F.node k js = 0) : F.node k (js ++ ls) = 0 := by
  unfold node at *
  rw [follow_append, h, follow_zero]

/-! ## Sharing -/

/-- No node is reached along two paths. -/
def Unshared (σ : Shape K) (F : Forest K A) : Prop :=
  ∀ ⦃k js k' js'⦄, σ.Path k js → σ.Path k' js' →
    F.node k js = F.node k' js' → F.node k js ≠ 0 → k = k' ∧ js = js'

/-- `c` is on no path. -/
def Fresh (σ : Shape K) (F : Forest K A) (c : A) : Prop :=
  ∀ ⦃k js⦄, σ.Path k js → F.node k js ≠ c

/-! ## Rewriting nodes that hold no pointers -/

/-- Two trees with the same root that agree on the tables of `F` have the same nodes. -/
theorem node_congr {σ : Shape K} {F F' : Forest K A} {k : K} (hroot : F'.root k = F.root k)
    (hchild : ∀ js j, σ.Path k (js ++ [j]) → F.node k js ≠ 0 →
      F'.child (F.node k js) j = F.child (F.node k js) j)
    {js : List Nat} (hp : σ.Path k js) : F'.node k js = F.node k js := by
  induction js using List.reverseRecOn with
  | nil => exact hroot
  | append_singleton js j ih =>
    rw [node_concat, node_concat, ih hp.init]
    split
    · rfl
    · next hne => exact hchild js j hp hne

/-! ## Dropping roots -/

/-- Every root is kept or dropped, and the tables of `F` stay as they are. -/
structure Prune (σ : Shape K) (F F' : Forest K A) : Prop where
  root : ∀ k, F'.root k = 0 ∨ F'.root k = F.root k
  child : ∀ k js j, σ.Path k (js ++ [j]) → F.node k js ≠ 0 →
    F'.child (F.node k js) j = F.child (F.node k js) j

theorem Prune.node {σ : Shape K} {F F' : Forest K A} (h : Prune σ F F')
    {k : K} {js : List Nat} (hp : σ.Path k js) (hne : F'.node k js ≠ 0) :
    F'.node k js = F.node k js := by
  induction js using List.reverseRecOn with
  | nil =>
    rcases h.root k with h0 | h0
    · exact absurd h0 hne
    · exact h0
  | append_singleton js j ih =>
    have hpre : F'.node k js ≠ 0 := fun h0 => hne (node_append_eq_zero [j] h0)
    have heq := ih hp.init hpre
    rw [node_concat_of_ne hpre, heq, node_concat_of_ne (heq ▸ hpre)]
    exact h.child k js j hp (heq ▸ hpre)

theorem node_of_root_eq_zero {F : Forest K A} {k : K} (js : List Nat) (h : F.root k = 0) :
    F.node k js = 0 := by
  unfold Forest.node
  rw [h, follow_zero]

/-- The tree of a root that is kept stays as it is. -/
theorem Prune.node_of_root {σ : Shape K} {F F' : Forest K A} (h : Prune σ F F') {k : K}
    (hk : F'.root k = F.root k) {js : List Nat} (hp : σ.Path k js) : F'.node k js = F.node k js := by
  induction js using List.reverseRecOn with
  | nil => exact hk
  | append_singleton js j ih =>
    rw [node_concat, node_concat, ih hp.init]
    split
    · rfl
    · next hne => exact h.child k js j hp hne

/-! ## Grafting a fresh node -/

/-- `F'` is `F` with the empty node `c` put on the path `ls` of `k₀`, where `F` has nothing. -/
structure Graft (σ : Shape K) (F F' : Forest K A) (k₀ : K) (ls : List Nat) (c : A) : Prop where
  empty : F.node k₀ ls = 0
  rootSame : ls = [] → F'.root k₀ = c
  rootOther : ∀ k, (k, []) ≠ (k₀, ls) → F'.root k = F.root k
  childSame : ∀ js j, ls = js ++ [j] → F.node k₀ js ≠ 0 ∧ F'.child (F.node k₀ js) j = c
  childOther : ∀ k js j, σ.Path k (js ++ [j]) → (k, js ++ [j]) ≠ (k₀, ls) → F.node k js ≠ 0 →
    F'.child (F.node k js) j = F.child (F.node k js) j
  blank : ∀ j < σ.fan, F'.child c j = 0

namespace Graft

variable {σ : Shape K} {F F' : Forest K A} {k₀ : K} {ls : List Nat} {c : A}

/-- The grafted node is where it was put, every other path leads where it did. -/
theorem node_cases (h : Graft σ F F' k₀ ls c) {k : K} {js : List Nat} (hp : σ.Path k js) :
    ((k, js) = (k₀, ls) → F'.node k js = c) ∧
    ((k, js) ≠ (k₀, ls) → F'.node k js = F.node k js) := by
  induction js using List.reverseRecOn with
  | nil =>
    refine ⟨fun heq => ?_, h.rootOther k⟩
    obtain ⟨rfl, rfl⟩ := Prod.mk.inj heq
    exact h.rootSame rfl
  | append_singleton js j ih =>
    obtain ⟨ihSame, ihOther⟩ := ih hp.init
    by_cases hpre : (k, js) = (k₀, ls)
    · -- below the graft: the fresh node has no children, and nothing was there before
      obtain ⟨rfl, rfl⟩ := Prod.mk.inj hpre
      have hne : (k, js ++ [j]) ≠ (k, js) := by simp
      refine ⟨fun heq => absurd heq hne, fun _ => ?_⟩
      rw [node_append_eq_zero [j] h.empty, node_concat, ihSame rfl]
      split
      · rfl
      · exact h.blank j hp.last_lt
    · have heq := ihOther hpre
      constructor
      · intro hsame
        obtain ⟨rfl, rfl⟩ := Prod.mk.inj hsame
        obtain ⟨hne, hc⟩ := h.childSame js j rfl
        rw [node_concat, heq, if_neg hne, hc]
      · intro hother
        rw [node_concat, node_concat, heq]
        split
        · rfl
        · next hne => exact h.childOther k js j hp hother hne

theorem node_same (h : Graft σ F F' k₀ ls c) (hp : σ.Path k₀ ls) : F'.node k₀ ls = c :=
  (h.node_cases hp).1 rfl

theorem node_other (h : Graft σ F F' k₀ ls c) {k : K} {js : List Nat} (hp : σ.Path k js)
    (hne : (k, js) ≠ (k₀, ls)) : F'.node k js = F.node k js :=
  (h.node_cases hp).2 hne

/-- A node that was there before stays on its path. -/
theorem node_of_ne_zero (h : Graft σ F F' k₀ ls c) {k : K} {js : List Nat} (hp : σ.Path k js)
    (hne : F.node k js ≠ 0) : F'.node k js = F.node k js := by
  refine h.node_other hp fun heq => hne ?_
  obtain ⟨rfl, rfl⟩ := Prod.mk.inj heq
  exact h.empty

theorem unshared (h : Graft σ F F' k₀ ls c) (hF : F.Unshared σ) (hc : F.Fresh σ c) :
    F'.Unshared σ := by
  intro k js k' js' hp hp' heq hne
  by_cases h1 : (k, js) = (k₀, ls) <;> by_cases h2 : (k', js') = (k₀, ls)
  · obtain ⟨rfl, rfl⟩ := Prod.mk.inj h1
    obtain ⟨rfl, rfl⟩ := Prod.mk.inj h2
    exact ⟨rfl, rfl⟩
  · rw [(h.node_cases hp).1 h1, h.node_other hp' h2] at heq
    exact absurd heq.symm (hc hp')
  · rw [h.node_other hp h1, (h.node_cases hp').1 h2] at heq
    exact absurd heq (hc hp)
  · rw [h.node_other hp h1] at heq hne
    rw [h.node_other hp' h2] at heq
    exact hF hp hp' heq hne

end Graft

end Forest
