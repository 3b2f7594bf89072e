-- SUMMARY: `growproc` on the process table.
import Xv6.Process.Runs

/-! # Growing a process

`growproc` gets the new size of the caller from `allocuvm` or `deallocuvm`, and adds `n` to
the sizes of the other threads. Here it is told whether there is room.
-/

namespace Xv6

open Prog

/-- `sz + n` as an `unsigned int`. -/
def grownSize (sz : Nat) (n : Int) : Nat := ((sz + n) % 2 ^ 32).toNat

/-- The size that `resizeImage` returns. -/
def newSize (sz : Nat) (n : Int) (room : Bool) : Nat :=
  if n > 0 then
    if grownSize sz n ≥ KERNBASE then 0
    else if grownSize sz n < sz then sz
    else if room then grownSize sz n
    else 0
  else if n < 0 then
    if grownSize sz n ≥ sz then sz else grownSize sz n
  else sz

/-- Every thread of `c` but `c` itself gets `n` added to its size, and `c` gets `sz`. -/
def Kernel.resized (s : Kernel) (c : Slot) (n : Int) (sz : Nat) : Kernel :=
  (s.sweep fun p x => if p ≠ c ∧ x.pid = (s.proc c).pid then { x with sz := grownSize x.sz n } else x).upd c
    fun x => { x with sz := sz }

section Growproc

variable {s : Kernel} {E : Halt → Prop} {c : Slot} {n : Int} {room : Bool}

theorem wp_resizeImage {dir : Option Page} {sz : Nat} {Q : Nat → Kernel → Prop}
    (hQ : ∀ top, Q (newSize sz n room) { s with top := top }) : wp (resizeImage dir sz n room) Q E s := by
  have htop : ∀ new, (∀ top, Q new { s with top := top }) →
      wp (do resizeTop dir new; pure new : KProg Nat) Q E s := by
    intro new hnew
    cases dir with
    | none => exact hnew s.top
    | some d => exact hnew _
  unfold newSize grownSize at hQ
  simp only [resizeImage]
  split
  · next hpos =>
    simp only [if_pos hpos] at hQ
    split
    · next h =>
      simp only [if_pos h] at hQ
      exact hQ s.top
    · next h =>
      simp only [if_neg h] at hQ
      split
      · next h' =>
        simp only [if_pos h'] at hQ
        exact hQ s.top
      · next h' =>
        simp only [if_neg h'] at hQ
        split
        · next hroom =>
          simp only [if_pos hroom] at hQ
          exact htop _ hQ
        · next hroom =>
          simp only [if_neg hroom] at hQ
          exact hQ s.top
  · next hpos =>
    simp only [if_neg hpos] at hQ
    split
    · next hneg =>
      simp only [if_pos hneg] at hQ
      split
      · next h =>
        simp only [if_pos h] at hQ
        exact hQ s.top
      · next h =>
        simp only [if_neg h] at hQ
        exact htop _ hQ
    · next hneg =>
      simp only [if_neg hneg] at hQ
      exact hQ s.top

theorem wp_growproc {Q : Int → Kernel → Prop}
    (hfail : n ≠ 0 → newSize (s.proc c).sz n room = 0 → ∀ top, Q (-1) { s with top := top })
    (hok : ¬ (n ≠ 0 ∧ newSize (s.proc c).sz n room = 0) → ∀ top,
      Q 0 (Kernel.resized { s with top := top } c n (newSize (s.proc c).sz n room))) :
    wp (growproc c n room) Q E s := by
  simp only [growproc, wp_bind, wp_procOf]
  refine wp_resizeImage fun top => ?_
  split
  · next h => exact hfail h.1 h.2 top
  · next h => exact hok h top

theorem Kernel.resized_proc_same {sz : Nat} : (s.resized c n sz).proc c = { s.proc c with sz := sz } := by
  unfold resized
  rw [upd_proc_same, sweep_proc, if_neg fun h => h.1 rfl]

theorem Kernel.resized_proc_other {sz : Nat} {q : Slot} (hq : q ≠ c) (hpid : (s.proc q).pid = (s.proc c).pid) :
    (s.resized c n sz).proc q = { s.proc q with sz := grownSize (s.proc q).sz n } := by
  unfold resized
  rw [upd_proc_ne _ _ hq, sweep_proc, if_pos ⟨hq, hpid⟩]

theorem Kernel.resized_proc_ne {sz : Nat} {q : Slot} (hpid : (s.proc q).pid ≠ (s.proc c).pid) :
    (s.resized c n sz).proc q = s.proc q := by
  have hq : q ≠ c := fun h => hpid (h ▸ rfl)
  unfold resized
  rw [upd_proc_ne _ _ hq, sweep_proc, if_neg fun h => hpid h.2]

end Growproc

/-- What `growproc` returns and leaves, if the new size is `sz`. -/
inductive Kernel.Grew (s : Kernel) (c : Slot) (n : Int) (sz : Nat) : Outcome Int → Kernel → Prop where
  | fails (top : Page → Nat) (hn : n ≠ 0) (hsz : sz = 0) : Grew s c n sz (.ret (-1)) { s with top := top }
  | grows (top : Page → Nat) (h : ¬ (n ≠ 0 ∧ sz = 0)) :
      Grew s c n sz (.ret 0) (Kernel.resized { s with top := top } c n sz)

theorem wp_sbrk {s : Kernel} {E : Halt → Prop} {c : Slot} {n : Int} {room : Bool} :
    wp ((SysCall.sbrk n room).run c) (fun r t => s.Grew c n (newSize (s.proc c).sz n room) r t) E s := by
  simp only [SysCall.run, wp_bind, wp_pure]
  exact wp_growproc (fun hn hsz top => .fails top hn hsz) fun h top => .grows top h

end Xv6
