-- SUMMARY: Timer interrupts, sys_yield and the scheduler on one CPU, step by step.
import Xv6.Scheduler.Stride

/-! # The clock

Ticks of MLFQ processes are counted in `trap` and in `sys_yield`. `Clock` runs the
scheduler, the timer interrupt and the statements of `sys_yield` on one CPU. Interrupts
are on during a system call, so that the timer may strike between any two statements of
`sys_yield`, and a process that loses the CPU there goes on from there later.

Other code of the kernel touches priorities and ticks in few places: `allocproc` and the
code that gives slots back set them to zero, and `cpu_share` and `thread_create` take
processes out of MLFQ scheduling. `Clock.Changed` allows all that.
-/

namespace Xv6

/-! ## The code -/

/-- Time quantum for each level. -/
def timeQuantumPerQ : Nat → Int
  | 0 => 1
  | 1 => 2
  | _ => 4

/-- Time allotment for level 0, 1. -/
def timeAllotmentPerQ : Nat → Int
  | 0 => 5
  | _ => 10

namespace Proc

variable (x : Proc)

/-- `MLFQ_Check`, and whether it calls `yield`. -/
def mlfqCheck : Proc × Bool :=
  if timeQuantumPerQ x.priority ≤ x.pticks then
    -- move to next level
    if x.priority < 2 ∧ timeAllotmentPerQ x.priority ≤ x.ptotalticks then
      ({ x with pticks := 0, ptotalticks := 0, priority := x.priority + 1 }, true)
    else ({ x with pticks := 0 }, true)
  else (x, false)

/-- The part of `trap` for a timer interrupt, and whether it calls `yield`. -/
def onTimer : Proc × Bool :=
  if x.isMLFQ then mlfqCheck { x with pticks := x.pticks + 1, ptotalticks := x.ptotalticks + 1 } else (x, true)

end Proc

/-- Where a process is in `sys_yield`. -/
inductive YieldPoint where
  /-- Elsewhere. -/
  | user
  /-- Before `MLFQ_ticks++`. -/
  | tick
  /-- Before `pticks++`. -/
  | quantum
  /-- Before `ptotalticks++`. -/
  | total
  /-- Before `yield`, with a tick charged or not. -/
  | giveUp (charged : Bool)
  deriving DecidableEq, Repr

/-- Where the scheduler is. -/
inductive Control where
  /-- At the beginning of the loop of `scheduler`. -/
  | loop
  /-- Before it looks for the minimal pass value. -/
  | pick
  /-- In the loop of `MLFQ_Scheduler` for level `l`. -/
  | scan (l : Nat) (σ : Scan)
  /-- It has switched to a process and will go on in `MLFQ_Scheduler`, or after
      `Stride_Scheduler`. -/
  | running (c : Slot) (back : Option (Nat × Scan))

structure Clock where
  kernel : Kernel
  /-- `i` in sysproc.c. -/
  yields : Nat
  ctl : Control
  point : Slot → YieldPoint

namespace Clock

variable (m : Clock)

/-- Where the scheduler goes on. -/
def resume : Option (Nat × Scan) → Control
  | none => .loop
  | some (l, σ) => .scan l σ

/-- One step of the scheduler. -/
def sched : Clock :=
  match m.ctl with
  | .loop => { m with kernel := m.kernel.boostDue, ctl := .pick }
  | .pick =>
    if 100 ≤ m.kernel.leftShare then { m with ctl := .scan 0 .start }
    else match m.kernel.findMinPass with
      | none => { m with ctl := .scan 0 .start }
      | some q => { m with kernel := m.kernel.strideSwitch q, ctl := .running q none }
  | .scan l σ =>
    match σ.turn l m.kernel with
    | .over s =>
      if l < 2 then { m with kernel := s, ctl := .scan (l + 1) .start }
      else { m with kernel := s.addPass 1, ctl := .loop }
    | .pass σ' s => { m with kernel := s, ctl := .scan l σ' }
    | .switch q σ' s => { m with kernel := s, ctl := .running q (some (l, σ')) }
  | .running _ _ => m

/-- `yield`. -/
def leave (c : Slot) (back : Option (Nat × Scan)) : Clock :=
  { m with kernel := m.kernel.upd c fun x => { x with state := .runnable }, ctl := resume back }

/-- A timer interrupt while the process in slot `c` runs. -/
def timer (c : Slot) (back : Option (Nat × Scan)) : Clock :=
  let ticks := if (m.kernel.proc c).isMLFQ then m.kernel.mlfqTicks + 1 else m.kernel.mlfqTicks
  let n := { m with kernel := { m.kernel with mlfqTicks := ticks }.upd c fun x => x.onTimer.1 }
  if (m.kernel.proc c).onTimer.2 then n.leave c back else n

def setPoint (c : Slot) (p : YieldPoint) : Clock := { m with point := Function.update m.point c p }

/-- The next statement of `sys_yield`. -/
def sysYield (c : Slot) (back : Option (Nat × Scan)) : Clock :=
  match m.point c with
  | .user => { m with yields := m.yields + 1 }.setPoint c (if (m.yields + 1) % 20 = 0 then .tick else .giveUp false)
  | .tick => { m with kernel := { m.kernel with mlfqTicks := m.kernel.mlfqTicks + 1 } }.setPoint c .quantum
  | .quantum => { m with kernel := m.kernel.upd c fun x => { x with pticks := x.pticks + 1 } }.setPoint c .total
  | .total =>
    { m with kernel := m.kernel.upd c fun x => { x with ptotalticks := x.ptotalticks + 1 } }.setPoint c (.giveUp true)
  | .giveUp _ => (m.leave c back).setPoint c .user

end Clock

/-! ## Steps -/

/-- Priority and ticks stay, and the process does not come back to MLFQ scheduling. -/
structure Proc.SameTiming (x y : Proc) : Prop where
  priority : y.priority = x.priority
  pticks : y.pticks = x.pticks
  ptotalticks : y.ptotalticks = x.ptotalticks
  isMLFQ : y.isMLFQ = true → x.isMLFQ = true

/-- As `allocproc` and `MLFQ_Boost` leave it. -/
structure Proc.Fresh (x : Proc) : Prop where
  priority : x.priority = 0
  pticks : x.pticks = 0
  ptotalticks : x.ptotalticks = 0

namespace Clock

/-- What the rest of the kernel may do to the processes. A slot that does not run may get a
    new process. -/
structure Changed (m n : Clock) : Prop where
  ticks : n.kernel.mlfqTicks = m.kernel.mlfqTicks
  yields : n.yields = m.yields
  slot : ∀ q, ((m.kernel.proc q).SameTiming (n.kernel.proc q) ∧ n.point q = m.point q) ∨
    ((∀ back, m.ctl ≠ .running q back) ∧ (n.kernel.proc q).Fresh ∧ n.point q = .user)

inductive Act where
  | sched
  | timer
  | yield
  /-- Something else happens, in a system call or an interrupt. -/
  | other
  /-- The process that runs goes to sleep or exits. -/
  | block
  deriving DecidableEq, Repr

inductive Step : Clock → Act → Clock → Prop where
  | sched {m : Clock} (h : ∀ c back, m.ctl ≠ .running c back) : Step m .sched m.sched
  | timer {m : Clock} {c : Slot} {back : Option (Nat × Scan)} (h : m.ctl = .running c back) :
      Step m .timer (m.timer c back)
  | yield {m : Clock} {c : Slot} {back : Option (Nat × Scan)} (h : m.ctl = .running c back) :
      Step m .yield (m.sysYield c back)
  | other {m n : Clock} (h : m.Changed n) (hctl : n.ctl = m.ctl) : Step m .other n
  | block {m n : Clock} {c : Slot} {back : Option (Nat × Scan)} (h : m.ctl = .running c back)
      (hpoint : m.point c = .user) (hchanged : m.Changed n) (hctl : n.ctl = resume back) : Step m .block n

/-- The states that are reached from `m` by steps that meet `Ok`. -/
inductive Run (Ok : Clock → Act → Prop) (m : Clock) : Clock → Prop where
  | refl : Run Ok m m
  | step {n k : Clock} {a : Act} (h : Run Ok m n) (hok : Ok n a) (hstep : Step n a k) : Run Ok m k

/-- `scheduler` starts with the first process. -/
def start (stack dir : Page) (root : InodePtr) : Clock where
  kernel := boot stack dir root
  yields := 0
  ctl := .loop
  point := fun _ => .user

end Clock

end Xv6
