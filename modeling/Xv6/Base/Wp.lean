-- SUMMARY: Programs over a mutable state that may stop with an error, and their weakest preconditions.
import Mathlib.Tactic.Common

/-! # Weakest preconditions for stateful programs

A program reads and rewrites a state `σ` and either returns or stops with an
error `ε`. `wp m Q E s` says that `m`, started in `s`, returns into `Q` or stops
with an error that `E` admits. With `E := fun _ => False` it is total
correctness: the program returns.
-/

/-- A program over the state `σ` that returns a value or stops with an `ε`. -/
abbrev Prog (σ ε : Type) := StateT σ (Except ε)

namespace Prog

variable {σ ε α β : Type}

/-- Every run of `m` from `s` returns into `Q` or stops within `E`. -/
def wp (m : Prog σ ε α) (Q : α → σ → Prop) (E : ε → Prop) (s : σ) : Prop :=
  match m s with
  | .ok (a, s') => Q a s'
  | .error e    => E e

/-! ## Structural rules -/

section Rules

variable {Q : β → σ → Prop} {E : ε → Prop} {s : σ}

@[simp] theorem wp_pure {Q : α → σ → Prop} {a : α} :
    wp (pure a : Prog σ ε α) Q E s ↔ Q a s := Iff.rfl

@[simp] theorem wp_throw {Q : α → σ → Prop} {e : ε} :
    wp (throw e : Prog σ ε α) Q E s ↔ E e := Iff.rfl

@[simp] theorem wp_get {Q : σ → σ → Prop} :
    wp (get : Prog σ ε σ) Q E s ↔ Q s s := Iff.rfl

@[simp] theorem wp_set {Q : PUnit → σ → Prop} {t : σ} :
    wp (set t : Prog σ ε PUnit) Q E s ↔ Q ⟨⟩ t := Iff.rfl

@[simp] theorem wp_modify {Q : PUnit → σ → Prop} {f : σ → σ} :
    wp (modify f : Prog σ ε PUnit) Q E s ↔ Q ⟨⟩ (f s) := Iff.rfl

@[simp] theorem wp_bind {m : Prog σ ε α} {f : α → Prog σ ε β} :
    wp (m >>= f) Q E s ↔ wp m (fun a s' => wp (f a) Q E s') E s := by
  simp only [wp, bind, StateT.bind, Except.bind]
  cases m s <;> rfl

@[simp] theorem wp_map {m : Prog σ ε α} {f : α → β} :
    wp (f <$> m) Q E s ↔ wp m (fun a s' => Q (f a) s') E s := by
  simp only [map_eq_pure_bind, wp_bind, wp_pure]

theorem wp_ite {c : Prop} [Decidable c] {m n : Prog σ ε β} :
    wp (if c then m else n) Q E s ↔ (c → wp m Q E s) ∧ (¬ c → wp n Q E s) := by
  by_cases hc : c <;> simp [hc]

end Rules

theorem wp.mono {m : Prog σ ε α} {Q Q' : α → σ → Prop} {E E' : ε → Prop} {s : σ}
    (hQ : ∀ a s', Q a s' → Q' a s') (hE : ∀ e, E e → E' e) :
    wp m Q E s → wp m Q' E' s := by
  unfold wp
  cases m s with
  | ok r => exact hQ r.1 r.2
  | error e => exact hE e

/-- Weaken the postcondition only. -/
theorem wp.post {m : Prog σ ε α} {Q Q' : α → σ → Prop} {E : ε → Prop} {s : σ}
    (h : wp m Q E s) (hQ : ∀ a s', Q a s' → Q' a s') : wp m Q' E s :=
  h.mono hQ (fun _ he => he)

theorem wp.and {m : Prog σ ε α} {Q Q' : α → σ → Prop} {E E' : ε → Prop} {s : σ}
    (h : wp m Q E s) (h' : wp m Q' E' s) : wp m (fun a s' => Q a s' ∧ Q' a s') E s := by
  unfold wp at *
  cases hm : m s with
  | ok r => rw [hm] at h h'; exact ⟨h, h'⟩
  | error e => rw [hm] at h; exact h

theorem wp_iff_run {m : Prog σ ε α} {Q : α → σ → Prop} {E : ε → Prop} {s : σ} :
    wp m Q E s ↔ (∀ a s', m s = .ok (a, s') → Q a s') ∧ (∀ e, m s = .error e → E e) := by
  unfold wp
  cases m s with
  | ok r =>
    constructor
    · intro h
      exact ⟨fun a s' hr => by cases hr; exact h, fun e he => by cases he⟩
    · rintro ⟨h, -⟩
      exact h r.1 r.2 rfl
  | error e => simp

theorem wp.of_run {m : Prog σ ε α} {Q : α → σ → Prop} {E : ε → Prop} {s s' : σ} {a : α}
    (h : wp m Q E s) (hm : m s = .ok (a, s')) : Q a s' :=
  (wp_iff_run.mp h).1 a s' hm

/-- What holds of all results and all stops holds after any program. -/
theorem wp_of_forall {m : Prog σ ε α} {Q : α → σ → Prop} {E : ε → Prop} {s : σ} (hQ : ∀ a t, Q a t)
    (hE : ∀ e, E e) : wp m Q E s :=
  wp_iff_run.mpr ⟨fun a t _ => hQ a t, fun e _ => hE e⟩

/-- A program that cannot stop returns. -/
theorem wp.run_ok {m : Prog σ ε α} {Q : α → σ → Prop} {s : σ}
    (h : wp m Q (fun _ => False) s) : ∃ a s', m s = .ok (a, s') ∧ Q a s' := by
  unfold wp at h
  cases hm : m s with
  | ok r => rw [hm] at h; exact ⟨r.1, r.2, rfl, h⟩
  | error e => rw [hm] at h; exact h.elim

/-- Run `m` from `s` and test what it returns. -/
def returns (m : Prog σ ε α) (s : σ) (test : α → σ → Bool) : Bool :=
  match m s with
  | .ok (a, s') => test a s'
  | .error _    => false

theorem exists_of_returns {m : Prog σ ε α} {s : σ} {test : α → σ → Bool}
    (h : m.returns s test = true) : ∃ a s', m s = .ok (a, s') ∧ test a s' = true := by
  unfold returns at h
  cases hm : m s with
  | ok r => rw [hm] at h; exact ⟨r.1, r.2, rfl, h⟩
  | error e => rw [hm] at h; cases h

/-- `m` stops with `e`. -/
def stopsWith [DecidableEq ε] (m : Prog σ ε α) (s : σ) (e : ε) : Bool :=
  match m s with
  | .ok _ => false
  | .error e' => decide (e' = e)

theorem eq_error_of_stopsWith [DecidableEq ε] {m : Prog σ ε α} {s : σ} {e : ε} (h : m.stopsWith s e = true) :
    m s = .error e := by
  unfold stopsWith at h
  cases hm : m s with
  | ok r => rw [hm] at h; cases h
  | error e' => rw [hm] at h; rw [of_decide_eq_true h]

/-! ## Loops over a list -/

@[simp] theorem wp_forM_cons {f : α → Prog σ ε PUnit} {x : α} {xs : List α}
    {Q : PUnit → σ → Prop} {E : ε → Prop} {s : σ} :
    wp ((x :: xs).forM f) Q E s ↔ wp (f x) (fun _ s' => wp (xs.forM f) Q E s') E s := by
  change wp (f x >>= fun _ => xs.forM f) Q E s ↔ _
  rw [wp_bind]

/-- Invariant rule: `I xs s` says that the elements `xs` are still to come. -/
theorem wp_forM_inv {f : α → Prog σ ε PUnit} {E : ε → Prop} (I : List α → σ → Prop)
    (hstep : ∀ x xs s, I (x :: xs) s → wp (f x) (fun _ s' => I xs s') E s) :
    ∀ (xs : List α) (s : σ), I xs s → wp (xs.forM f) (fun _ s' => I [] s') E s
  | [], _, hI => hI
  | x :: xs, s, hI => by
      rw [wp_forM_cons]
      exact (hstep x xs s hI).post fun _ s' hI' => wp_forM_inv I hstep xs s' hI'

/-! ## Frames

`Frame R m` says that `m` only moves the state along `R`; whether it returns is
left open. With `R` an equality of projections it is a frame condition. -/

def Frame (R : σ → σ → Prop) (m : Prog σ ε α) : Prop :=
  ∀ s, wp m (fun _ s' => R s s') (fun _ => True) s

section Frame

variable {R : σ → σ → Prop}

theorem frame_pure (hrefl : ∀ s, R s s) {a : α} : Frame R (pure a : Prog σ ε α) := hrefl

theorem frame_throw {e : ε} : Frame R (throw e : Prog σ ε α) := fun _ => trivial

theorem frame_modify {f : σ → σ} (h : ∀ s, R s (f s)) : Frame R (modify f : Prog σ ε PUnit) := h

theorem frame_bind (htrans : ∀ s t u, R s t → R t u → R s u)
    {m : Prog σ ε α} {f : α → Prog σ ε β}
    (hm : Frame R m) (hf : ∀ a, Frame R (f a)) : Frame R (m >>= f) := by
  intro s
  rw [wp_bind]
  refine (hm s).post fun a t hst => ?_
  exact (hf a t).post fun _ u htu => htrans s t u hst htu

theorem frame_ite {c : Prop} [Decidable c] {m n : Prog σ ε α} (hm : Frame R m) (hn : Frame R n) :
    Frame R (if c then m else n) := by
  by_cases hc : c <;> simpa [hc]

end Frame

end Prog
