-- SUMMARY: Ids that are handed out to holders, and the table of ids that are taken.
import Mathlib.Data.Fintype.EquivFin

/-! # Pools of ids

Holders `ι` have ids `α`, and `taken` is the table from which ids are handed out. The
pool is exact if no id is held twice and the ids taken are those that are held.
-/

/-- No id is held twice, and the ids taken are the ids held. -/
structure IdPool {ι α : Type} (held : ι → Prop) (id : ι → α) (taken : α → Bool) : Prop where
  inj : ∀ p q, held p → held q → id p = id q → p = q
  taken_iff : ∀ a, taken a = true ↔ ∃ p, held p ∧ id p = a

namespace IdPool

variable {ι α : Type} {held held' : ι → Prop} {id id' : ι → α} {taken : α → Bool} {p : ι} {a : α}

/-- Holders and their ids are the same. -/
theorem congr (h : IdPool held id taken) (hheld : ∀ p, held' p ↔ held p) (hid : ∀ p, held p → id' p = id p) :
    IdPool held' id' taken := by
  refine ⟨fun p q hp hq hpq => ?_, fun a => ?_⟩
  · rw [hheld] at hp hq
    rw [hid p hp, hid q hq] at hpq
    exact h.inj p q hp hq hpq
  · rw [h.taken_iff]
    constructor
    · rintro ⟨p, hp, rfl⟩
      exact ⟨p, (hheld p).mpr hp, hid p hp⟩
    · rintro ⟨p, hp, rfl⟩
      rw [hheld] at hp
      exact ⟨p, hp, (hid p hp).symm⟩

/-- `p` gives its id back. -/
theorem release [DecidableEq α] (h : IdPool held id taken) (hp : held p) (hgone : ¬ held' p)
    (hheld : ∀ q, q ≠ p → (held' q ↔ held q)) (hid : ∀ q, q ≠ p → id' q = id q) :
    IdPool held' id' (Function.update taken (id p) false) := by
  have hne : ∀ {q}, held' q → q ≠ p := by
    rintro q hq rfl
    exact hgone hq
  refine ⟨fun q r hq hr hqr => ?_, fun a => ?_⟩
  · rw [hid q (hne hq), hid r (hne hr)] at hqr
    exact h.inj q r ((hheld q (hne hq)).mp hq) ((hheld r (hne hr)).mp hr) hqr
  · by_cases ha : a = id p
    · rw [ha, Function.update_self]
      refine iff_of_false (by decide) ?_
      rintro ⟨q, hq, hqp⟩
      rw [hid q (hne hq)] at hqp
      exact hne hq (h.inj q p ((hheld q (hne hq)).mp hq) hp hqp)
    · rw [Function.update_of_ne ha, h.taken_iff]
      constructor
      · rintro ⟨q, hq, rfl⟩
        have hqp : q ≠ p := fun hqp => ha (congrArg id hqp)
        exact ⟨q, (hheld q hqp).mpr hq, hid q hqp⟩
      · rintro ⟨q, hq, rfl⟩
        exact ⟨q, (hheld q (hne hq)).mp hq, (hid q (hne hq)).symm⟩

/-- `p` gets the free id `a`. -/
theorem take [DecidableEq α] (h : IdPool held id taken) (hfree : taken a = false) (hnew : held' p)
    (ha : id' p = a) (hheld : ∀ q, q ≠ p → (held' q ↔ held q)) (hid : ∀ q, q ≠ p → id' q = id q) (hp : ¬ held p) :
    IdPool held' id' (Function.update taken a true) := by
  have hother : ∀ {q}, held q → id q ≠ a := by
    rintro q hq hqa
    have htaken := (h.taken_iff a).mpr ⟨q, hq, hqa⟩
    rw [hfree] at htaken
    cases htaken
  refine ⟨fun q r hq hr hqr => ?_, fun b => ?_⟩
  · by_cases hqp : q = p <;> by_cases hrp : r = p
    · rw [hqp, hrp]
    · rw [hqp, ha, hid r hrp] at hqr
      exact absurd hqr.symm (hother ((hheld r hrp).mp hr))
    · rw [hrp, ha, hid q hqp] at hqr
      exact absurd hqr (hother ((hheld q hqp).mp hq))
    · rw [hid q hqp, hid r hrp] at hqr
      exact h.inj q r ((hheld q hqp).mp hq) ((hheld r hrp).mp hr) hqr
  · by_cases hb : b = a
    · rw [hb, Function.update_self]
      exact iff_of_true rfl ⟨p, hnew, ha⟩
    · rw [Function.update_of_ne hb, h.taken_iff]
      constructor
      · rintro ⟨q, hq, rfl⟩
        have hqp : q ≠ p := by
          rintro rfl
          exact hp hq
        exact ⟨q, (hheld q hqp).mpr hq, hid q hqp⟩
      · rintro ⟨q, hq, rfl⟩
        have hqp : q ≠ p := by
          rintro rfl
          exact hb ha
        exact ⟨q, (hheld q hqp).mp hq, (hid q hqp).symm⟩

/-- As many ids are taken as there are holders. -/
theorem card_eq [Fintype ι] [Fintype α] [DecidablePred held] (h : IdPool held id taken) :
    (Finset.univ.filter fun a => taken a = true).card = (Finset.univ.filter held).card := by
  symm
  refine Finset.card_bij (fun p _ => id p) (fun p hp => ?_) (fun p hp q hq hpq => ?_) fun a ha => ?_
  · rw [Finset.mem_filter] at hp ⊢
    exact ⟨Finset.mem_univ _, (h.taken_iff _).mpr ⟨p, hp.2, rfl⟩⟩
  · rw [Finset.mem_filter] at hp hq
    exact h.inj p q hp.2 hq.2 hpq
  · rw [Finset.mem_filter] at ha
    obtain ⟨p, hp, hpa⟩ := (h.taken_iff a).mp ha.2
    exact ⟨p, Finset.mem_filter.mpr ⟨Finset.mem_univ _, hp⟩, hpa⟩

/-- With as many ids as places, an id is free as long as a place is. -/
theorem exists_free [Fintype ι] [Fintype α] (h : IdPool held id taken) (hcard : Fintype.card ι ≤ Fintype.card α)
    (hp : ¬ held p) : ∃ a, taken a = false := by
  classical
  by_contra hall
  have htaken : ∀ a, taken a = true := fun a => by
    rw [← Bool.not_eq_false]
    exact fun hf => hall ⟨a, hf⟩
  have hlt : (Finset.univ.filter held).card < Fintype.card ι :=
    Finset.card_lt_univ_of_notMem (x := p) fun hmem => hp (Finset.mem_filter.mp hmem).2
  have hcount := h.card_eq
  rw [Finset.filter_true_of_mem fun a _ => htaken a, Finset.card_univ] at hcount
  omega

end IdPool
