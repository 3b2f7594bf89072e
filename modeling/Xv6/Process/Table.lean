-- SUMMARY: The process table, the thread-id table, and what the kernel keeps beside them.
import Mathlib.Data.Finset.Basic
import Mathlib.Data.Rat.Floor
import Xv6.Base.Wp
import Xv6.FileSystem.State

/-! # The process table

The data of `proc.h` and the globals of `proc.c`. A `struct proc *` is the index of
its slot, and a null pointer is `none`. Doubles are rational numbers.

Pages are kept only as far as processes hold them, as kernel stacks and page
directories: `live` are the pages that `kalloc` has handed out for them. Four
histories, newest first, record what the code does without leaving a trace in the
table: `reaps`, `freevms`, `refunds` (the pids of processes for which CPU share was
returned) and `divisors`.
-/

namespace Xv6

abbrev NPROC : Nat := 64
abbrev NOFILE : Nat := 16
abbrev NFILE : Nat := 100
def PGSIZE : Nat := 4096
def KERNBASE : Nat := 0x80000000
def STRIDENUM : Int := 100

instance (priority := high) : NeZero NPROC := ⟨by decide⟩

/-- `&ptable.proc[i]`. -/
abbrev Slot := Fin NPROC

/-- `&ttable.tid[i]`. -/
abbrev Tid := Fin NPROC

abbrev Page := Nat

/-- `enum procstate`. -/
inductive ProcState where
  | unused
  | embryo
  | sleeping
  | runnable
  | running
  | zombie
  deriving DecidableEq, Repr

/-- The process may be chosen by the scheduler, now or after a wakeup. -/
def ProcState.Schedulable (st : ProcState) : Prop := st = .sleeping ∨ st = .runnable ∨ st = .running

instance : DecidablePred ProcState.Schedulable := fun st => by
  unfold ProcState.Schedulable
  infer_instance

/-- `struct proc`. The descriptors and the current directory are in `Files`. `chan`
    is the process slept for in `wait` and `thread_join`, and `none` for every other
    channel; `joining` is where a sleeping `thread_join` goes on, which the code keeps
    on the kernel stack. -/
structure Proc where
  sz : Nat
  pgdir : Option Page
  kstack : Option Page
  state : ProcState
  pid : Int
  parent : Option Slot
  chan : Option Slot
  killed : Bool
  priority : Nat
  pticks : Int
  ptotalticks : Int
  isMLFQ : Bool
  share : ℚ
  stride : ℚ
  pass : ℚ
  tid : Tid
  retval : Int
  isThread : Bool
  isMainThread : Bool
  usz : Nat
  isThereExec : Bool
  cntThread : Int
  totalshare : Int
  joining : Option (Slot × Int)
  deriving DecidableEq, Repr

/-- `struct file`, as far as its references go. `inode` is there for `FD_INODE`. -/
structure FileEntry where
  inode : Option InodePtr
  ref : Int
  deriving DecidableEq, Repr

/-- A reference that is taken or dropped where there is no object, or no reference. -/
inductive FileFault where
  | idupNull
  | iputNull
  | iputUnreferenced (ip : InodePtr)
  deriving DecidableEq, Repr

/-- `proc->ofile`, `proc->cwd`, the file table and the reference counts of the inode
    cache. -/
structure Files where
  ofile : Slot → Fin NOFILE → Option (Fin NFILE)
  cwd : Slot → Option InodePtr
  ftable : Fin NFILE → FileEntry
  iref : InodePtr → Int
  faults : List FileFault

/-- A slot that is given back: who held it, and what for. -/
structure Reap where
  slot : Slot
  state : ProcState
  pid : Int
  kstack : Option Page
  /-- The kernel stack was allocated. -/
  live : Bool
  deriving DecidableEq, Repr

/-- A call of `freevm`: `users` are the schedulable slots with that directory, but
    for the one it is freed for. -/
structure Freevm where
  dir : Page
  live : Bool
  users : List Slot
  deriving DecidableEq, Repr

structure Kernel where
  proc : Slot → Proc
  /-- `ttable.tid[i].state == EMBRYO`. -/
  ttable : Tid → Bool
  nextpid : Int
  initproc : Option Slot
  leftShare : ℚ
  mlfqStrideVal : ℚ
  mlfqPassVal : ℚ
  mlfqTicks : Nat
  live : Finset Page
  /-- The bytes that a page directory maps for the user, from address 0. -/
  top : Page → Nat
  /-- Where the stacks for threads begin in an image that `exec` has set up. -/
  area : Page → Option Nat
  files : Files
  reaps : List Reap
  freevms : List Freevm
  refunds : List Int
  divisors : List ℚ

/-- Where the kernel stops. -/
inductive Halt where
  | initExiting
  | kfree
  | freevmNoPgdir
  | shareOverflow
  | filedup
  | fileclose
  /-- A null `struct proc *` is followed. -/
  | nullProc
  deriving DecidableEq, Repr

/-- Kernel code that works on processes. -/
abbrev KProg := Prog Kernel Halt

/-- All slots, in table order. -/
def slots : List Slot := List.finRange NPROC

theorem mem_slots (p : Slot) : p ∈ slots := List.mem_finRange p

/-- `int` arithmetic wraps. -/
def wrap (n : Int) : Int := n.bmod (2 ^ 32)

theorem wrap_of_range {n : Int} (h : -2 ^ 31 ≤ n) (h' : n < 2 ^ 31) : wrap n = n := by
  unfold wrap
  rw [Int.bmod_eq_of_le] <;> omega

/-! ## Updates -/

namespace Kernel

variable (s : Kernel)

/-- Change every slot. -/
@[simps] def sweep (f : Slot → Proc → Proc) : Kernel := { s with proc := fun p => f p (s.proc p) }

/-- Change slot `p`. -/
@[simps!] def upd (p : Slot) (f : Proc → Proc) : Kernel := s.sweep fun q x => if q = p then f x else x

theorem upd_proc_same (p : Slot) (f : Proc → Proc) : (s.upd p f).proc p = f (s.proc p) := if_pos rfl

theorem upd_proc_ne {p q : Slot} (f : Proc → Proc) (h : q ≠ p) : (s.upd p f).proc q = s.proc q := if_neg h

@[simps] def setFiles (f : Files) : Kernel := { s with files := f }

@[simps] def addPage (a : Page) : Kernel := { s with live := insert a s.live }

@[simps] def dropPage (a : Page) : Kernel := { s with live := s.live.erase a }

/-- The directory `d` maps `n` bytes for the user. -/
@[simps] def setTop (d : Page) (n : Nat) : Kernel := { s with top := Function.update s.top d n }

/-- In the image of `d` the stacks for threads begin at `r`. -/
@[simps] def setArea (d : Page) (r : Option Nat) : Kernel := { s with area := Function.update s.area d r }

@[simps] def setTid (t : Tid) (b : Bool) : Kernel := { s with ttable := Function.update s.ttable t b }

@[simps] def nextPid : Kernel := { s with nextpid := wrap (s.nextpid + 1) }

@[simps] def addShare (share : ℚ) : Kernel := { s with leftShare := s.leftShare + share }

@[simps] def noteRefund (pid : Int) : Kernel := { s with refunds := pid :: s.refunds }

@[simps] def noteDivisor (d : ℚ) : Kernel := { s with divisors := d :: s.divisors }

/-- The slot is in use. -/
def Used (p : Slot) : Prop := (s.proc p).state ≠ .unused

/-- The process in slot `p` may be chosen by the scheduler. -/
def Schedulable (p : Slot) : Prop := (s.proc p).state.Schedulable

instance (p : Slot) : Decidable (s.Used p) := inferInstanceAs (Decidable (_ ≠ _))

instance (p : Slot) : Decidable (s.Schedulable p) := inferInstanceAs (Decidable (ProcState.Schedulable _))

end Kernel

def procOf (p : Slot) : KProg Proc := do return (← get).proc p

def modifyProc (p : Slot) (f : Proc → Proc) : KProg Unit := modify fun s => s.upd p f

/-- Follow a `struct proc *`. -/
def derefProc : Option Slot → KProg Slot
  | none => throw .nullProc
  | some p => pure p

/-- Run code that only works on files. -/
def onFiles {α : Type} (m : Prog Files Halt α) : KProg α := fun s =>
  match m s.files with
  | .ok (a, f) => .ok (a, s.setFiles f)
  | .error e => .error e

section Rules

open Prog

variable {α : Type} {s : Kernel} {E : Halt → Prop} {p : Slot}

@[simp] theorem wp_procOf {Q : Proc → Kernel → Prop} : wp (procOf p) Q E s ↔ Q (s.proc p) s := Iff.rfl

@[simp] theorem wp_modifyProc {f : Proc → Proc} {Q : Unit → Kernel → Prop} :
    wp (modifyProc p f) Q E s ↔ Q () (s.upd p f) := Iff.rfl

theorem wp_derefProc {r : Option Slot} {Q : Slot → Kernel → Prop} :
    wp (derefProc r) Q E s ↔ (r = none → E .nullProc) ∧ ∀ p, r = some p → Q p s := by
  cases r with
  | none => simp [derefProc]
  | some p => simp [derefProc]

@[simp] theorem wp_onFiles {m : Prog Files Halt α} {Q : α → Kernel → Prop} :
    wp (onFiles m) Q E s ↔ wp m (fun a f => Q a (s.setFiles f)) E s.files := by
  unfold wp onFiles
  cases m s.files <;> rfl

end Rules

end Xv6
