-- SUMMARY: When findMinPass finds the smallest pass value.
import Mathlib.Data.Finset.Max
import Xv6.Base.FirstLeast
import Xv6.Process.Runs

/-! # The smallest pass value

`findMinPass` keeps the running minimum in an `unsigned int` that starts at 3000000000.
So it sees the integral part of pass values only, and none from 3000000000 on: of the
processes whose pass value has the smallest integral part it finds the first one in the
table, and it compares MLFQPassVal with that integral part.
-/

namespace Xv6

/-- `max` before the loop. -/
abbrev passBound : Nat := 3000000000

namespace Kernel

variable (s : Kernel)

/-- A RUNNABLE process in stride mode. -/
def Contends (p : Slot) : Prop := (s.proc p).isMLFQ = false ∧ (s.proc p).state = .runnable

instance (p : Slot) : Decidable (s.Contends p) := inferInstanceAs (Decidable (_ ∧ _))

/-- Its pass value is the smallest of all RUNNABLE processes in stride mode. -/
def LeastPass (p : Slot) : Prop := s.Contends p ∧ ∀ q, s.Contends q → (s.proc p).pass ≤ (s.proc q).pass

/-- `findMinPass` returns a process with the smallest pass value if there is one and
    MLFQPassVal is not smaller, and 0 otherwise. -/
structure FindsLeast : Prop where
  found : (∃ p, s.LeastPass p ∧ ¬ s.mlfqPassVal < (s.proc p).pass) → ∃ q, s.findMinPass = some q ∧ s.LeastPass q
  none : ¬ (∃ p, s.LeastPass p ∧ ¬ s.mlfqPassVal < (s.proc p).pass) → s.findMinPass = none

/-- Pass values are not negative. -/
def PassesNonneg : Prop := ∀ p, s.Contends p → 0 ≤ (s.proc p).pass

/-- No process before `p` contends whose pass value has the same integral part. -/
def FirstWhole (p : Slot) : Prop := ∀ q < p, s.Contends q → ⌊(s.proc q).pass⌋ ≠ ⌊(s.proc p).pass⌋

/-- What integral parts must tell about the smallest pass value. If MLFQPassVal is smaller,
    it is below the integral part too, unless the pass value is out of bounds. If it is not
    smaller, the pass value is below the bound, and a process that has it comes before all
    others with the same integral part. -/
def WholesTell : Prop := ∀ p, s.LeastPass p →
  (s.mlfqPassVal < (s.proc p).pass → (passBound : ℚ) ≤ (s.proc p).pass ∨ s.mlfqPassVal < ⌊(s.proc p).pass⌋) ∧
  (¬ s.mlfqPassVal < (s.proc p).pass → (s.proc p).pass < passBound ∧ ∃ q, s.LeastPass q ∧ s.FirstWhole q)

/-- What the loop compares: the integral part of the pass value. -/
def passKey (p : Slot) : Option Nat := if s.Contends p then some ⌊(s.proc p).pass⌋₊ else none

end Kernel

/-! ## The loop -/

theorem uintOfPass_floor {pass : ℚ} (hpos : 0 ≤ pass) (hlt : pass < passBound) : uintOfPass pass = ⌊pass⌋₊ := by
  have hfloor : ⌊pass⌋ < (passBound : Int) := by
    rw [Int.floor_lt]
    exact_mod_cast hlt
  have hnonneg : 0 ≤ ⌊pass⌋ := Int.floor_nonneg.mpr hpos
  unfold uintOfPass
  rw [if_pos hpos, Int.emod_eq_of_lt hnonneg (hfloor.trans (by decide))]
  exact Int.floor_toNat pass

namespace Kernel

variable {s : Kernel}

theorem passKey_eq_some {p : Slot} {k : Nat} : s.passKey p = some k ↔ s.Contends p ∧ ⌊(s.proc p).pass⌋₊ = k := by
  unfold passKey
  split
  · next h => simp [h]
  · next h => simp [h]

/-- A round of the loop looks at the key only. -/
theorem minPassStep_eq (hpos : s.PassesNonneg) {r : Nat × Option Slot} (hr : r.1 ≤ passBound) (p : Slot) :
    s.minPassStep r p = FirstLeast.step s.passKey r p := by
  unfold minPassStep FirstLeast.step passKey
  by_cases hp : s.Contends p
  · have hmlfq : ¬ (s.proc p).isMLFQ = true := by
      rw [hp.1]
      exact Bool.false_ne_true
    rw [if_neg hmlfq, if_neg (not_not.mpr hp.2), if_pos hp]
    dsimp only
    have hiff : (s.proc p).pass < r.1 ↔ ⌊(s.proc p).pass⌋₊ < r.1 := (Nat.floor_lt (hpos p hp)).symm
    by_cases hlt : (s.proc p).pass < r.1
    · have hbound : (s.proc p).pass < passBound := hlt.trans_le (by exact_mod_cast hr)
      rw [if_pos hlt, if_pos (hiff.mp hlt), uintOfPass_floor (hpos p hp) hbound]
    · rw [if_neg hlt, if_neg fun h => hlt (hiff.mpr h)]
  · rw [if_neg hp]
    dsimp only
    split
    · rfl
    · next hmlfq => rw [if_pos fun hrun => hp ⟨Bool.eq_false_iff.mpr hmlfq, hrun⟩]

theorem foldl_minPassStep (hpos : s.PassesNonneg) (xs : List Slot) {r : Nat × Option Slot} (hr : r.1 ≤ passBound) :
    xs.foldl s.minPassStep r = xs.foldl (FirstLeast.step s.passKey) r := by
  induction xs generalizing r with
  | nil => rfl
  | cons x xs ih =>
    have hstep : (FirstLeast.step s.passKey r x).1 ≤ r.1 := by
      unfold FirstLeast.step
      split
      · exact le_rfl
      · split
        · next h => exact h.le
        · exact le_rfl
    rw [List.foldl_cons, List.foldl_cons, minPassStep_eq hpos hr, ih (hstep.trans hr)]

/-- What the loop has found. -/
inductive Found (s : Kernel) : Nat × Option Slot → Prop where
  | nobody (h : ∀ p, s.Contends p → (passBound : ℚ) ≤ (s.proc p).pass) : Found s (passBound, none)
  | first {m : Slot} (hm : s.Contends m) (hlt : (s.proc m).pass < passBound)
      (hle : ∀ p, s.Contends p → ⌊(s.proc m).pass⌋₊ ≤ ⌊(s.proc p).pass⌋₊)
      (hfirst : ∀ p < m, s.Contends p → ⌊(s.proc m).pass⌋₊ ≠ ⌊(s.proc p).pass⌋₊) : Found s (⌊(s.proc m).pass⌋₊, some m)

/-- A slot before another comes before it in the table. -/
theorem mem_of_lt {pre post : List Slot} {p m : Slot} (h : slots = pre ++ m :: post) (hp : p < m) : p ∈ pre := by
  have hsorted : (pre ++ m :: post).Pairwise (· < ·) := h ▸ List.pairwise_lt_finRange NPROC
  have hmem : p ∈ pre ++ m :: post := h ▸ mem_slots p
  rcases List.mem_append.mp hmem with hmem | hmem
  · exact hmem
  · rcases List.mem_cons.mp hmem with rfl | hmem
    · exact absurd hp (lt_irrefl p)
    · have hlt := List.rel_of_pairwise_cons (List.pairwise_append.mp hsorted).2.1 hmem
      exact absurd (hp.trans hlt) (lt_irrefl p)

theorem found_foldl (hpos : s.PassesNonneg) : s.Found (slots.foldl s.minPassStep (3000000000, none)) := by
  rw [foldl_minPassStep hpos slots le_rfl]
  have hkept := FirstLeast.kept_foldl s.passKey passBound slots
  generalize slots.foldl (FirstLeast.step s.passKey) (passBound, none) = r at hkept
  obtain ⟨k, found⟩ := r
  cases found with
  | none =>
    obtain ⟨rfl, hall⟩ := hkept.none rfl
    refine .nobody fun p hp => ?_
    have hle := hall p (mem_slots p) _ (passKey_eq_some.mpr ⟨hp, rfl⟩)
    exact (Nat.le_floor_iff (hpos p hp)).mp hle
  | some m =>
    obtain ⟨hlt, hkey, pre, post, hslots, hpre, -⟩ := hkept.some m rfl
    obtain ⟨hm, rfl⟩ := passKey_eq_some.mp hkey
    refine .first hm ((Nat.floor_lt (hpos m hm)).mp hlt) (fun p hp => ?_) fun p hp hcont => ?_
    · exact hkept.le (mem_slots p) (passKey_eq_some.mpr ⟨hp, rfl⟩)
    · exact (hpre p (mem_of_lt hslots hp) _ (passKey_eq_some.mpr ⟨hcont, rfl⟩)).ne

/-! ## The smallest pass value -/

/-- There is a smallest pass value if anybody contends. -/
theorem exists_leastPass {p : Slot} (hp : s.Contends p) : ∃ q, s.LeastPass q := by
  have hne : (Finset.univ.filter s.Contends).Nonempty := ⟨p, by simpa using hp⟩
  obtain ⟨q, hq, hle⟩ := Finset.exists_min_image _ (fun q => (s.proc q).pass) hne
  refine ⟨q, by simpa using hq, fun r hr => hle r ?_⟩
  simpa using hr

theorem LeastPass.pass_eq {p q : Slot} (hp : s.LeastPass p) (hq : s.LeastPass q) : (s.proc p).pass = (s.proc q).pass :=
  le_antisymm (hp.2 q hq.1) (hq.2 p hp.1)

/-- The smallest pass value has the smallest integral part. -/
theorem LeastPass.floor_eq {p m : Slot} (hp : s.LeastPass p) (hm : s.Contends m)
    (hle : ∀ q, s.Contends q → ⌊(s.proc m).pass⌋₊ ≤ ⌊(s.proc q).pass⌋₊) :
    ⌊(s.proc m).pass⌋₊ = ⌊(s.proc p).pass⌋₊ :=
  le_antisymm (hle p hp.1) (Nat.floor_mono (hp.2 m hm))

theorem natFloor_eq_iff {a b : ℚ} (ha : 0 ≤ a) (hb : 0 ≤ b) : ⌊a⌋₊ = ⌊b⌋₊ ↔ ⌊a⌋ = ⌊b⌋ := by
  rw [← Int.natCast_floor_eq_floor ha, ← Int.natCast_floor_eq_floor hb, Nat.cast_inj]

/-- The process found has the smallest pass value just if one that has it comes before all
    others with the same integral part. -/
theorem leastPass_first_iff (hpos : s.PassesNonneg) {m : Slot} (hm : s.Contends m)
    (hle : ∀ p, s.Contends p → ⌊(s.proc m).pass⌋₊ ≤ ⌊(s.proc p).pass⌋₊)
    (hfirst : ∀ p < m, s.Contends p → ⌊(s.proc m).pass⌋₊ ≠ ⌊(s.proc p).pass⌋₊) :
    s.LeastPass m ↔ ∃ q, s.LeastPass q ∧ s.FirstWhole q := by
  constructor
  · refine fun hleast => ⟨m, hleast, fun p hp hcont heq => hfirst p hp hcont ?_⟩
    exact (natFloor_eq_iff (hpos m hm) (hpos p hcont)).mpr heq.symm
  · rintro ⟨q, hq, hwhole⟩
    have heq := hq.floor_eq hm hle
    -- Neither comes before the other.
    rcases lt_trichotomy q m with hlt | rfl | hlt
    · exact absurd heq (hfirst q hlt hq.1)
    · exact hq
    · exact absurd ((natFloor_eq_iff (hpos m hm) (hpos q hq.1)).mp heq) (hwhole m hlt hm)

/-- What `findMinPass` comes to. -/
inductive MinFound (s : Kernel) : Option Slot → Prop where
  | outOfBounds (h : ∀ p, s.Contends p → (passBound : ℚ) ≤ (s.proc p).pass) : MinFound s none
  | mlfq {m : Slot} (hm : s.Contends m) (hlt : (s.proc m).pass < passBound)
      (hless : s.mlfqPassVal < ⌊(s.proc m).pass⌋)
      (hwhole : ∀ p, s.LeastPass p → ⌊(s.proc p).pass⌋ = ⌊(s.proc m).pass⌋) : MinFound s none
  | first {m : Slot} (hm : s.Contends m) (hlt : (s.proc m).pass < passBound)
      (hge : ¬ s.mlfqPassVal < ⌊(s.proc m).pass⌋)
      (hwhole : ∀ p, s.LeastPass p → ⌊(s.proc p).pass⌋ = ⌊(s.proc m).pass⌋)
      (hiff : s.LeastPass m ↔ ∃ q, s.LeastPass q ∧ s.FirstWhole q) : MinFound s (some m)

theorem minFound (hpos : s.PassesNonneg) : s.MinFound s.findMinPass := by
  have hfound := found_foldl hpos
  have hcode : s.findMinPass = if s.mlfqPassVal < (slots.foldl s.minPassStep (3000000000, none)).1 then none
      else (slots.foldl s.minPassStep (3000000000, none)).2 := rfl
  rw [hcode]
  generalize slots.foldl s.minPassStep (3000000000, none) = r at hfound
  cases hfound with
  | nobody hall =>
    rw [ite_self]
    exact .outOfBounds hall
  | @first m hm hlt hle hfirst =>
    have hfloor : ((⌊(s.proc m).pass⌋₊ : Nat) : ℚ) = ⌊(s.proc m).pass⌋ := natCast_floor_eq_intCast_floor (hpos m hm)
    have hwhole : ∀ p, s.LeastPass p → ⌊(s.proc p).pass⌋ = ⌊(s.proc m).pass⌋ := fun p hp =>
      ((natFloor_eq_iff (hpos m hm) (hpos p hp.1)).mp (hp.floor_eq hm hle)).symm
    dsimp only
    rw [hfloor]
    split
    · next hless => exact .mlfq hm hlt hless hwhole
    · next hge => exact .first hm hlt hge hwhole (leastPass_first_iff hpos hm hle hfirst)

/-- A pass value whose integral part is too large is too large. -/
theorem LeastPass.lt_of_floor {p m : Slot} (hp : s.LeastPass p)
    (hwhole : ∀ p, s.LeastPass p → ⌊(s.proc p).pass⌋ = ⌊(s.proc m).pass⌋)
    (hless : s.mlfqPassVal < ⌊(s.proc m).pass⌋) : s.mlfqPassVal < (s.proc p).pass := by
  rw [← hwhole p hp] at hless
  exact hless.trans_le (Int.floor_le _)

/-! ## Negative pass values -/

/-- The last process in the table whose pass value is negative. -/
structure LastNegative (s : Kernel) (v : Slot) : Prop where
  contends : s.Contends v
  neg : (s.proc v).pass < 0
  last : ∀ q, v < q → s.Contends q → 0 ≤ (s.proc q).pass

theorem exists_lastNegative (h : ¬ s.PassesNonneg) : ∃ v, s.LastNegative v := by
  unfold PassesNonneg at h
  push Not at h
  obtain ⟨p, hp, hneg⟩ := h
  have hne : (Finset.univ.filter fun q => s.Contends q ∧ (s.proc q).pass < 0).Nonempty := ⟨p, by simpa using ⟨hp, hneg⟩⟩
  obtain ⟨v, hv, hmax⟩ := Finset.exists_max_image _ id hne
  obtain ⟨hcont, hlt⟩ : s.Contends v ∧ (s.proc v).pass < 0 := by simpa using hv
  refine ⟨v, hcont, hlt, fun q hq hcontq => not_lt.mp fun hnegq => ?_⟩
  exact absurd (hmax q (by simpa using ⟨hcontq, hnegq⟩)) (not_le.mpr hq)

/-- A process whose pass value is below `max` is kept. -/
theorem minPassStep_take {r : Nat × Option Slot} {p : Slot} (hp : s.Contends p) (hlt : (s.proc p).pass < r.1) :
    s.minPassStep r p = (uintOfPass (s.proc p).pass, some p) := by
  unfold minPassStep
  rw [if_neg (by simp [hp.1]), if_neg (not_not.mpr hp.2), if_pos hlt]

theorem minPassStep_skip {r : Nat × Option Slot} {p : Slot} (h : ¬ (s.Contends p ∧ (s.proc p).pass < r.1)) :
    s.minPassStep r p = r := by
  unfold minPassStep
  split
  · rfl
  · next hmlfq =>
    split
    · rfl
    · next hrun => exact if_neg fun hlt => h ⟨⟨by simpa using hmlfq, not_not.mp hrun⟩, hlt⟩

/-- What the loop has after the last negative pass value: that process, or one behind it. -/
inductive AfterNegative (s : Kernel) (v : Slot) (seen : List Slot) : Nat × Option Slot → Prop where
  | last (h : ∀ q ∈ seen, s.Contends q → (uintOfPass (s.proc v).pass : ℚ) ≤ (s.proc q).pass) :
      AfterNegative s v seen (uintOfPass (s.proc v).pass, some v)
  | other {r : Nat} {m q : Slot} (hm : s.Contends m) (hpos : 0 ≤ (s.proc m).pass) (hq : q ∈ seen) (hcont : s.Contends q)
      (hlt : (s.proc q).pass < uintOfPass (s.proc v).pass) : AfterNegative s v seen (r, some m)

theorem AfterNegative.step {v x : Slot} {seen : List Slot} {r : Nat × Option Slot} (h : s.AfterNegative v seen r)
    (hpos : s.Contends x → 0 ≤ (s.proc x).pass) : s.AfterNegative v (seen ++ [x]) (s.minPassStep r x) := by
  by_cases hx : s.Contends x ∧ (s.proc x).pass < r.1
  · rw [minPassStep_take hx.1 hx.2]
    cases h with
    | last hall => exact .other hx.1 (hpos hx.1) (by simp) hx.1 hx.2
    | other hm _ hq hcont hlt => exact .other hx.1 (hpos hx.1) (List.mem_append_left _ hq) hcont hlt
  · rw [minPassStep_skip hx]
    cases h with
    | last hall =>
      refine .last fun q hq hcont => ?_
      rcases List.mem_append.mp hq with hq | hq
      · exact hall q hq hcont
      · rw [List.mem_singleton] at hq
        subst hq
        exact not_lt.mp fun hlt => hx ⟨hcont, hlt⟩
    | other hm hpos' hq hcont hlt => exact .other hm hpos' (List.mem_append_left _ hq) hcont hlt

theorem AfterNegative.foldl {v : Slot} (xs : List Slot) : ∀ {seen : List Slot} {r : Nat × Option Slot},
    s.AfterNegative v seen r → (∀ x ∈ xs, s.Contends x → 0 ≤ (s.proc x).pass) →
    s.AfterNegative v (seen ++ xs) (xs.foldl s.minPassStep r) := by
  induction xs with
  | nil =>
    intro seen r h _
    rwa [List.append_nil]
  | cons x xs ih =>
    intro seen r h hpos
    have hrest := ih (h.step (hpos x (by simp))) fun y hy => hpos y (List.mem_cons_of_mem _ hy)
    rwa [List.append_assoc] at hrest

/-- What `findMinPass` comes to if `v` is the last with a negative pass value. -/
inductive NegativeFound (s : Kernel) (v : Slot) : Option Slot → Prop where
  | mlfq (h : (∀ q, v < q → s.Contends q → (uintOfPass (s.proc v).pass : ℚ) ≤ (s.proc q).pass) →
      s.mlfqPassVal < uintOfPass (s.proc v).pass) : NegativeFound s v none
  | last (hge : (uintOfPass (s.proc v).pass : ℚ) ≤ s.mlfqPassVal)
      (h : ∀ q, v < q → s.Contends q → (uintOfPass (s.proc v).pass : ℚ) ≤ (s.proc q).pass) : NegativeFound s v (some v)
  | other {m q : Slot} (hge : 0 ≤ s.mlfqPassVal) (hm : s.Contends m) (hpos : 0 ≤ (s.proc m).pass) (hq : v < q)
      (hcont : s.Contends q) (hlt : (s.proc q).pass < uintOfPass (s.proc v).pass) : NegativeFound s v (some m)

theorem negativeFound {v : Slot} (hv : s.LastNegative v) : s.NegativeFound v s.findMinPass := by
  obtain ⟨pre, post, hslots⟩ := List.append_of_mem (mem_slots v)
  have hsorted : (pre ++ v :: post).Pairwise (· < ·) := hslots ▸ List.pairwise_lt_finRange NPROC
  have hmem : ∀ q, q ∈ post ↔ v < q := by
    refine fun q => ⟨List.rel_of_pairwise_cons (List.pairwise_append.mp hsorted).2.1, fun hq => ?_⟩
    have hmem : q ∈ pre ++ v :: post := hslots ▸ mem_slots q
    rcases List.mem_append.mp hmem with hpre | hpost
    · exact absurd ((List.pairwise_append.mp hsorted).2.2 q hpre v (by simp)) (lt_asymm hq)
    · exact (List.mem_cons.mp hpost).resolve_left hq.ne'
  -- The loop takes `v`, whatever it has found before.
  have htake : ∀ r, s.minPassStep r v = (uintOfPass (s.proc v).pass, some v) := fun r =>
    minPassStep_take hv.contends (hv.neg.trans_le (Nat.cast_nonneg r.1))
  have hfold : slots.foldl s.minPassStep (3000000000, none) =
      post.foldl s.minPassStep (uintOfPass (s.proc v).pass, some v) := by
    rw [hslots, List.foldl_append, List.foldl_cons, htake]
  have hafter : s.AfterNegative v ([] ++ post) (post.foldl s.minPassStep (uintOfPass (s.proc v).pass, some v)) :=
    AfterNegative.foldl post (.last fun q hq => absurd hq List.not_mem_nil) fun q hq => hv.last q ((hmem q).mp hq)
  have hcode : s.findMinPass = if s.mlfqPassVal < (slots.foldl s.minPassStep (3000000000, none)).1 then none
      else (slots.foldl s.minPassStep (3000000000, none)).2 := rfl
  rw [hcode, hfold]
  rw [List.nil_append] at hafter
  generalize post.foldl s.minPassStep (uintOfPass (s.proc v).pass, some v) = r at hafter
  cases hafter with
  | last hall =>
    dsimp only
    split
    · next hless => exact .mlfq fun _ => hless
    · next hge => exact .last (not_lt.mp hge) fun q hq => hall q ((hmem q).mpr hq)
  | other hm hpos hq hcont hlt =>
    dsimp only
    split
    · exact .mlfq fun hall => absurd hlt (not_lt.mpr (hall _ ((hmem _).mp hq) hcont))
    · next hge => exact .other ((Nat.cast_nonneg _).trans (not_lt.mp hge)) hm hpos ((hmem _).mp hq) hcont hlt

end Kernel

theorem findMinPass_least_iff (s : Kernel) (hpos : ∀ p, 0 ≤ (s.proc p).pass) : s.FindsLeast ↔ s.WholesTell := by
  have hfound := Kernel.minFound fun p (_ : s.Contends p) => hpos p
  generalize hmin : s.findMinPass = r at hfound
  cases hfound with
  | outOfBounds hall =>
    constructor
    · intro h p hp
      refine ⟨fun _ => .inl (hall p hp.1), fun hge => ?_⟩
      obtain ⟨q, hq, -⟩ := h.found ⟨p, hp, hge⟩
      rw [hmin] at hq
      cases hq
    · refine fun h => ⟨fun ⟨p, hp, hge⟩ => ?_, fun _ => hmin⟩
      exact absurd ((h p hp).2 hge).1 (not_lt.mpr (hall p hp.1))
  | @mlfq m hm hlt hless hwhole =>
    constructor
    · intro _ p hp
      refine ⟨fun _ => .inr ?_, fun hge => absurd (hp.lt_of_floor hwhole hless) hge⟩
      rwa [hwhole p hp]
    · exact fun _ => ⟨fun ⟨p, hp, hge⟩ => absurd (hp.lt_of_floor hwhole hless) hge, fun _ => hmin⟩
  | @first m hm hlt hge hwhole hiff =>
    constructor
    · intro h p hp
      refine ⟨fun hless => ?_, fun hnot => ?_⟩
      · have hnone := h.none fun ⟨q, hq, hnot⟩ => hnot (hq.pass_eq hp ▸ hless)
        rw [hmin] at hnone
        cases hnone
      · obtain ⟨q, hq, hleast⟩ := h.found ⟨p, hp, hnot⟩
        rw [hmin] at hq
        obtain rfl := Option.some.inj hq
        exact ⟨hp.pass_eq hleast ▸ hlt, hiff.mp hleast⟩
    · refine fun h => ⟨fun ⟨p, hp, hnot⟩ => ⟨m, hmin, hiff.mpr ((h p hp).2 hnot).2⟩, fun hno => ?_⟩
      obtain ⟨p, hp⟩ := Kernel.exists_leastPass hm
      have hless : s.mlfqPassVal < (s.proc p).pass := by
        by_contra hnot
        exact hno ⟨p, hp, hnot⟩
      rcases (h p hp).1 hless with hbound | hbound
      · exact absurd ((hp.2 m hm).trans_lt hlt) (not_lt.mpr hbound)
      · rw [hwhole p hp] at hbound
        exact absurd hbound hge

/-- Two RUNNABLE processes in stride mode. -/
def passTable (a b mlfq : ℚ) : Kernel :=
  { Kernel.zero with
    proc := fun q =>
      if q = 0 then { Proc.zero with state := .runnable, pass := a }
      else if q = 1 then { Proc.zero with state := .runnable, pass := b }
      else .zero
    mlfqPassVal := mlfq }

section PassTable

variable {a b mlfq : ℚ}

theorem passTable_contends {p : Slot} : (passTable a b mlfq).Contends p ↔ p = 0 ∨ p = 1 := by
  unfold Kernel.Contends passTable
  dsimp only
  by_cases h₀ : p = 0
  · simp [h₀, Proc.zero]
  · by_cases h₁ : p = 1
    · simp [h₁, Proc.zero]
    · simp [h₀, h₁, Proc.zero]

theorem passTable_nonneg (ha : 0 ≤ a) (hb : 0 ≤ b) (p : Slot) : 0 ≤ ((passTable a b mlfq).proc p).pass := by
  unfold passTable
  dsimp only
  split
  · exact ha
  · split
    · exact hb
    · exact le_rfl

theorem passTable_least {p : Slot} (hab : a < b) : (passTable a b mlfq).LeastPass p ↔ p = 0 := by
  constructor
  · rintro ⟨hp, hle⟩
    refine (passTable_contends.mp hp).resolve_right fun h₁ => ?_
    subst h₁
    exact absurd (hle 0 (passTable_contends.mpr (.inl rfl))) (not_le.mpr hab)
  · rintro rfl
    refine ⟨passTable_contends.mpr (.inl rfl), fun q hq => ?_⟩
    rcases passTable_contends.mp hq with rfl | rfl
    · exact le_rfl
    · exact hab.le

end PassTable

/-- Pass values 1 and 5/2. -/
theorem findMinPass_least_first : (∀ p, 0 ≤ ((passTable 1 (5 / 2) 2).proc p).pass) ∧ (passTable 1 (5 / 2) 2).FindsLeast := by
  have hpos := @passTable_nonneg 1 (5 / 2) 2 (by norm_num) (by norm_num)
  refine ⟨hpos, (findMinPass_least_iff _ hpos).mpr fun p hp => ?_⟩
  obtain rfl := (passTable_least (by norm_num)).mp hp
  refine ⟨fun hless => ?_, fun _ => ⟨?_, 0, hp, fun q hq => absurd hq (Fin.not_lt_zero q)⟩⟩
  · change (2 : ℚ) < 1 at hless
    norm_num at hless
  · change (1 : ℚ) < passBound
    norm_num

/-- The process found has pass value 1/2, but another one has 1/4. -/
theorem findMinPass_not_least : ∃ s : Kernel, (∀ p, 0 ≤ (s.proc p).pass) ∧ s.findMinPass = some 0 ∧
    (s.proc 0).pass = 1 / 2 ∧ s.Contends 1 ∧ (s.proc 1).pass = 1 / 4 ∧ s.mlfqPassVal = 1 ∧ ¬ s.FindsLeast := by
  have hfound : (passTable (1 / 2) (1 / 4) 1).findMinPass = some 0 := by decide +kernel
  refine ⟨passTable (1 / 2) (1 / 4) 1, passTable_nonneg (by norm_num) (by norm_num), hfound, rfl,
    passTable_contends.mpr (.inr rfl), rfl, rfl, fun h => ?_⟩
  have hleast : (passTable (1 / 2) (1 / 4) 1).LeastPass 1 := by
    refine ⟨passTable_contends.mpr (.inr rfl), fun q hq => ?_⟩
    rcases passTable_contends.mp hq with rfl | rfl
    · change (1 / 4 : ℚ) ≤ 1 / 2
      norm_num
    · exact le_rfl
  obtain ⟨q, hq, hq'⟩ := h.found ⟨1, hleast, by change ¬ (1 : ℚ) < 1 / 4; norm_num⟩
  rw [hfound] at hq
  obtain rfl := Option.some.inj hq
  have hle := hq'.2 1 hleast.1
  change (1 / 2 : ℚ) ≤ 1 / 4 at hle
  norm_num at hle

end Xv6
