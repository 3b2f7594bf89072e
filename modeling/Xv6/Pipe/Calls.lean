-- SUMMARY: The pipe of pipe.c, with calls that run step by step.
import Xv6.Base.Ring

/-! # Pipes

`pipewrite` and `piperead` hold the lock of the pipe but for the time they sleep. A call
is modelled by the point at which it stands, and one step takes it to the next point:
a test of a loop together with what follows from it. Any process can take the next step,
and nobody but the holder of the lock touches the pipe.

What the calls have moved is read off the buffers of the processes: a `History` has the
bytes that were in a buffer when `pipewrite` went on to the next one, and those that are
there once `piperead` has gone on.
-/

namespace Xv6.Pipe

def PIPESIZE : Nat := 512

/-- Points of `pipewrite`: before the lock is acquired, at first and after a sleep; at
    the test of the loop; asleep on `nwrite`. -/
inductive WritePoint where
  | acquire
  | loop
  | asleep
  deriving DecidableEq, Repr

/-- Points of `piperead`: before the lock is acquired; at the test for an empty pipe;
    asleep on `nread`; at the test of the loop that copies. -/
inductive ReadPoint where
  | acquire
  | wait
  | asleep
  | copy
  deriving DecidableEq, Repr

/-- A call with its arguments. -/
inductive Request where
  | write (addr : Nat) (n : Int)
  | read (addr : Nat) (n : Int)
  deriving DecidableEq, Repr

/-- What a process is doing with the pipe; `i` is the loop counter. -/
inductive Call where
  | idle
  | write (addr : Nat) (n : Int) (i : Nat) (point : WritePoint)
  | read (addr : Nat) (n : Int) (i : Nat) (point : ReadPoint)
  deriving DecidableEq, Repr

/-- A pipe and the processes that use it. -/
structure State where
  ring : Ring UInt8 PIPESIZE 32
  readopen : Bool
  writeopen : Bool
  lock : Option Nat
  call : Nat → Call
  killed : Nat → Bool
  /-- The memory of each process, by address. -/
  mem : Nat → Nat → UInt8

instance : NeZero PIPESIZE := ⟨by decide⟩

namespace State

variable (s : State)

/-- The pipe that `pipealloc` returns. What is in its buffer does not matter. -/
def pipealloc (data : Fin PIPESIZE → UInt8) (killed : Nat → Bool) (mem : Nat → Nat → UInt8) : State where
  ring := { data := data, nread := 0, nwrite := 0 }
  readopen := true
  writeopen := true
  lock := none
  call := fun _ => .idle
  killed := killed
  mem := mem

/-- Process `t` goes on to another point. -/
def goto (t : Nat) (call : Call) : State := { s with call := Function.update s.call t call }

def acquire (t : Nat) : State := { s with lock := some t }

def release : State := { s with lock := none }

/-- `wakeup(&p->nread)`. -/
def wakeReaders : State :=
  { s with call := fun t => match s.call t with
    | .read addr n i .asleep => .read addr n i .acquire
    | call => call }

/-- `wakeup(&p->nwrite)`. -/
def wakeWriters : State :=
  { s with call := fun t => match s.call t with
    | .write addr n i .asleep => .write addr n i .acquire
    | call => call }

/-- `p->data[p->nwrite++ % PIPESIZE] = x`. -/
def store (x : UInt8) : State := { s with ring := s.ring.push x }

/-- `addr[i] = p->data[p->nread++ % PIPESIZE]`, where `a` is the address of `addr[i]`. -/
def deliver (t a : Nat) : State :=
  { s with
    ring := s.ring.pop, mem := Function.update s.mem t (Function.update (s.mem t) a s.ring.front) }

end State

/-- The state after a step, and the value if the call has returned. -/
abbrev Outcome := State × Option Int

/-- A step of `pipewrite`. -/
def pipewrite (t addr : Nat) (n : Int) (i : Nat) (s : State) : WritePoint → Option Outcome
  | .acquire =>
    if s.lock = none then some ((s.acquire t).goto t (.write addr n i .loop), none) else none
  | .loop =>
    if i < n then
      if s.ring.nwrite = s.ring.nread + BitVec.ofNat 32 PIPESIZE then
        if s.readopen = false ∨ s.killed t = true then some (s.release.goto t .idle, some (-1))
        else some (s.wakeReaders.release.goto t (.write addr n i .asleep), none)
      else some ((s.store (s.mem t (addr + i))).goto t (.write addr n (i + 1) .loop), none)
    else some (s.wakeReaders.release.goto t .idle, some n)
  | .asleep => none

/-- A step of `piperead`. -/
def piperead (t addr : Nat) (n : Int) (i : Nat) (s : State) : ReadPoint → Option Outcome
  | .acquire =>
    if s.lock = none then some ((s.acquire t).goto t (.read addr n i .wait), none) else none
  | .wait =>
    if s.ring.nread = s.ring.nwrite ∧ s.writeopen = true then
      if s.killed t = true then some (s.release.goto t .idle, some (-1))
      else some (s.release.goto t (.read addr n i .asleep), none)
    else some (s.goto t (.read addr n 0 .copy), none)
  | .copy =>
    if i < n ∧ s.ring.nread ≠ s.ring.nwrite then
      some ((s.deliver t (addr + i)).goto t (.read addr n (i + 1) .copy), none)
    else some (s.wakeWriters.release.goto t .idle, some i)
  | .asleep => none

/-- The process goes on with its call. -/
def run (t : Nat) (s : State) : Option Outcome :=
  match s.call t with
  | .idle => none
  | .write addr n i point => pipewrite t addr n i s point
  | .read addr n i point => piperead t addr n i s point

/-- Close one end. -/
def pipeclose (writable : Bool) (s : State) : Option State :=
  if s.lock = none then
    if writable then some { s.wakeReaders with writeopen := false }
    else some { s.wakeWriters with readopen := false }
  else none

/-- The first point of a call. -/
def Request.start : Request → Call
  | .write addr n => .write addr n 0 .acquire
  | .read addr n => .read addr n 0 .acquire

/-- A process that was killed is woken up. -/
def Call.wake : Call → Call
  | .write addr n i .asleep => .write addr n i .acquire
  | .read addr n i .asleep => .read addr n i .acquire
  | call => call

/-- What can happen next. -/
inductive Action where
  /-- `t` makes a call. -/
  | call (t : Nat) (request : Request)
  /-- `t` goes on with its call. -/
  | run (t : Nat)
  | kill (t : Nat)
  | close (writable : Bool)
  /-- User code changes the memory of processes. -/
  | user (mem : Nat → Nat → UInt8)

/-- One step. Once both ends are closed the pipe has been freed, and nobody has it open. -/
def step (a : Action) (s : State) : Option Outcome :=
  if s.readopen = false ∧ s.writeopen = false then none
  else match a with
    | .call t request => if s.call t = .idle then some (s.goto t request.start, none) else none
    | .run t => run t s
    | .kill t => some ({ s.goto t (s.call t).wake with killed := Function.update s.killed t true }, none)
    | .close writable => (pipeclose writable s).map fun t => (t, none)
    | .user mem => some ({ s with mem := mem }, none)

/-! ## Runs -/

/-- The byte in the buffer of `t` that `pipewrite` has dealt with from `s` to `u`. -/
def taken (t : Nat) (s u : State) : List UInt8 :=
  match s.call t, u.call t with
  | .write addr _ i _, .write _ _ j _ => if j = i + 1 then [s.mem t (addr + i)] else []
  | _, _ => []

/-- The byte in the buffer of `t` that `piperead` has dealt with from `s` to `u`. -/
def given (t : Nat) (s u : State) : List UInt8 :=
  match s.call t, u.call t with
  | .read addr _ i _, .read _ _ j _ => if j = i + 1 then [u.mem t (addr + i)] else []
  | _, _ => []

/-- All bytes that `pipewrite` has taken from buffers, all that `piperead` has put into
    buffers, and those of the last call of each process. -/
structure History where
  stored : List UInt8
  delivered : List UInt8
  moved : Nat → List UInt8

def History.empty : History := ⟨[], [], fun _ => []⟩

def History.after (h : History) (s u : State) : Action → History
  | .call t _ => { h with moved := Function.update h.moved t [] }
  | .run t =>
    { stored := h.stored ++ taken t s u, delivered := h.delivered ++ given t s u
      moved := Function.update h.moved t (h.moved t ++ taken t s u ++ given t s u) }
  | _ => h

/-- The states that can be reached from `s`, with what has been moved. -/
inductive Run (s : State) : State → History → Prop where
  | refl : Run s s .empty
  | step {t u : State} {h : History} {r : Option Int} (hrun : Run s t h) (a : Action) (hstep : step a t = some (u, r)) :
      Run s u (h.after t u a)

end Xv6.Pipe
