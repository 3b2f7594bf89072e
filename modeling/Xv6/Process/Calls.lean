-- SUMMARY: The system calls on processes and threads: fork, thread_create, exit, exec, wait, thread_join, kill and sbrk.
import Xv6.Process.Descriptors

/-! # Calls on processes

`proc.c` and the end of `exec.c`. Each call runs to its end or to the point where it
sleeps. What the rest of the kernel decides is an argument: the pages that `kalloc`
and `copyuvm` return, and what becomes of the program that `exec` loads.
-/

namespace Xv6

open Prog

def PGROUNDUP (sz : Nat) : Nat := (sz + PGSIZE - 1) / PGSIZE * PGSIZE

/-! ## Pages -/

/-- The allocator hands out `a`. -/
def takePage (a : Page) : KProg Unit := modify fun s => s.addPage a

/-- Free the page of physical memory pointed at by `v`. -/
def kfree : Option Page → KProg Unit
  | none => throw .kfree
  | some a => modify fun s => s.dropPage a

/-- The schedulable slots but `p` whose page directory is `d`. -/
def Kernel.dirUsers (s : Kernel) (d : Page) (p : Slot) : List Slot :=
  slots.filter fun q => decide (q ≠ p ∧ s.Schedulable q ∧ (s.proc q).pgdir = some d)

/-- The state after `freevm(d)`. -/
@[simps] def Kernel.freeDir (s : Kernel) (p : Slot) (d : Page) : Kernel :=
  { s with
    live := s.live.erase d
    freevms := { dir := d, live := decide (d ∈ s.live), users := s.dirUsers d p } :: s.freevms }

/-- Free a page directory, for slot `p` that is reaped or has another one now. -/
def freevm (p : Slot) : Option Page → KProg Unit
  | none => throw .freevmNoPgdir
  | some d => modify fun s => s.freeDir p d

/-! ## CPU share -/

/-- `max = pass` for an `unsigned int max`. -/
def uintOfPass (pass : ℚ) : Nat := ((if 0 ≤ pass then ⌊pass⌋ else -⌊-pass⌋) % 2 ^ 32).toNat

/-- The loop of `findMinPass`: `max` and `min` so far. -/
def Kernel.minPassStep (s : Kernel) (r : Nat × Option Slot) (p : Slot) : Nat × Option Slot :=
  if (s.proc p).isMLFQ then r
  else if (s.proc p).state ≠ .runnable then r
  else if (s.proc p).pass < r.1 then (uintOfPass (s.proc p).pass, some p)
  else r

/-- Find the process that has minimal pass value; `none` stands for the MLFQ scheduler. -/
def Kernel.findMinPass (s : Kernel) : Option Slot :=
  let r := slots.foldl s.minPassStep (3000000000, none)
  if s.mlfqPassVal < r.1 then none else r.2

/-- Note a division. -/
def divideBy (d : ℚ) : KProg Unit := modify fun s => s.noteDivisor d

/-- The state after `MLFQStrideVal = STRIDENUM / leftShare`. -/
@[simps] def Kernel.resetStride (s : Kernel) : Kernel :=
  { s with mlfqStrideVal := STRIDENUM / s.leftShare, divisors := s.leftShare :: s.divisors }

def resetMLFQStride : KProg Unit := modify fun s => s.resetStride

/-- `leftShare += share`. -/
def addLeftShare (share : ℚ) : KProg Unit := modify fun s => s.addShare share

/-- If the process was following stride scheduler, return the share to the MLFQ
    scheduler and reset MLFQStrideVal. -/
def returnShare (p : Slot) (share : ℚ) : KProg Unit := do
  let x ← procOf p
  if x.isMLFQ then pure ()
  else do
    modify fun s => s.noteRefund x.pid
    addLeftShare share
    resetMLFQStride

/-- Put a thread into stride mode. -/
@[simps] def Proc.toStride (x : Proc) (share stride pass : ℚ) : Proc :=
  { x with isMLFQ := false, share := share, stride := stride, pass := pass }

/-- Every slot with this pid is in stride mode. -/
@[simps!] def Kernel.restride (s : Kernel) (pid : Int) (share pass : ℚ) : Kernel :=
  (s.noteDivisor share).sweep fun _ x => if x.pid = pid then x.toStride share (STRIDENUM / share) pass else x

/-- Put every slot with this pid into stride mode. -/
def strideAll (pid : Int) (share pass : ℚ) : KProg Unit := modify fun s => s.restride pid share pass

/-! ## Creation -/

/-- Look in the process table for an `UNUSED` proc. -/
def Kernel.freeSlot (s : Kernel) : Option Slot := slots.find? fun p => decide ((s.proc p).state = .unused)

/-- The first free thread id. -/
def Kernel.freeTid (s : Kernel) : Option Tid := slots.find? fun t => !s.ttable t

/-- The fields that `allocproc` sets under the lock. -/
@[simps] def Proc.embryo (x : Proc) (pid : Int) (tid : Tid) : Proc :=
  { x with
    state := .embryo, pid := pid, isMLFQ := true, pticks := 0, ptotalticks := 0, priority := 0
    share := 0, stride := 0, pass := 0, isThread := false, tid := tid, isMainThread := true, cntThread := 1 }

/-- Take a slot, a pid and a thread id. If no id is left the thread gets id 0. -/
def allocproc (stack : Option Page) : KProg (Option Slot) := do
  let s ← get
  match s.freeSlot with
  | none => pure none
  | some p => do
    modifyProc p fun x => x.embryo s.nextpid (s.freeTid.getD 0)
    modify fun s => s.nextPid
    match s.freeTid with
    | none => pure ()
    | some t => modify fun s => s.setTid t true
    match stack with
    | none => do
      modifyProc p fun x => { x with kstack := none, state := .unused }
      pure none
    | some k => do
      takePage k
      modifyProc p fun x => { x with kstack := some k }
      pure (some p)

/-- Create a new process copying `c` as the parent. `dir` is what `copyuvm` returns. -/
def fork (c : Slot) (stack dir : Option Page) : KProg Int := do
  match ← allocproc stack with
  | none => pure (-1)
  | some np => do
    match dir with
    | none => do
      kfree (← procOf np).kstack
      modifyProc np fun x => { x with pgdir := none, kstack := none, state := .unused }
      pure (-1)
    | some d => do
      let y ← procOf c
      takePage d
      modify fun s => s.setTop d (PGROUNDUP y.sz)
      modify fun s => s.setArea d (y.pgdir.bind s.area)
      modifyProc np fun x => { x with pgdir := some d, sz := y.sz, usz := y.usz, parent := some c }
      onFiles (dupAll c np)
      modifyProc np fun x => { x with state := .runnable }
      return (← procOf np).pid

/-- `copyout` of two words to address `sp` succeeds. -/
def Kernel.canPush (s : Kernel) (dir : Option Page) (sp : Nat) : Bool :=
  match dir with
  | none => false
  | some d => decide (sp + 8 ≤ s.top d)

/-- The share of each thread, after the number of threads has grown. `junk` is read
    through the null pointer when `findMinPass` has returned none. -/
def splitShare (c : Slot) (tmp : Option Slot) (junk : ℚ) : KProg Unit := do
  let y ← procOf c
  if y.isMLFQ then pure ()
  else do
    divideBy y.cntThread
    let s ← get
    let pass := match tmp with
      | none => junk
      | some q => (s.proc q).pass
    strideAll y.pid (y.totalshare / y.cntThread) pass

/-- The fields that make a process a thread of `c`. -/
@[simps] def Proc.asThread (x : Proc) (pgdir : Option Page) (c : Slot) : Proc :=
  { x with isThread := true, isMainThread := false, pgdir := pgdir, parent := some c }

/-- Create a thread of `c`. The result is the value returned and the thread id stored. -/
def threadCreate (c : Slot) (stack : Option Page) (junk : ℚ) : KProg (Int × Option Tid) := do
  let tmp := (← get).findMinPass
  -- LWP cannot create new thread
  if (← procOf c).isThread then pure (-1, none)
  else match ← allocproc stack with
    | none => pure (-1, none)
    | some np => do
      let pid := (← procOf c).pid
      modifyProc np fun x => { x with pid := pid }
      modifyProc c fun x => { x with cntThread := wrap (x.cntThread + 1) }
      splitShare c tmp junk
      let y ← procOf c
      modifyProc np fun x => x.asThread y.pgdir c
      onFiles (dupAll c np)
      let z ← procOf np
      let sz := (y.usz + z.tid * 2 * PGSIZE) % 2 ^ 32
      if (← get).canPush z.pgdir ((sz + (2 ^ 32 - 8)) % 2 ^ 32) then do
        modifyProc np fun x => { x with usz := sz, sz := y.sz }
        modifyProc np fun x => { x with state := .runnable }
        pure (0, some z.tid)
      else do
        modifyProc np fun x => { x with state := .unused, kstack := none }
        pure (-1, none)

/-! ## Exit -/

/-- Wake up all processes sleeping on `chan`. -/
def wakeup1 (chan : Option Slot) : KProg Unit := modify fun s => s.sweep fun _ x =>
  if x.state = .sleeping ∧ x.chan = chan ∧ chan ≠ none then { x with state := .runnable } else x

/-- Pass abandoned children to init. -/
def abandonChildren (c : Slot) : KProg Unit := do
  let s ← get
  modify fun s => s.sweep fun _ x => if x.parent = some c then { x with parent := s.initproc } else x
  if ∃ p, (s.proc p).parent = some c ∧ (s.proc p).state = .zombie then wakeup1 s.initproc else pure ()

/-- Exit the current process and all its threads. -/
def exit (c : Slot) : KProg Unit := do
  let s ← get
  if s.initproc = some c then throw .initExiting
  else do
    onFiles (closeAll c)
    let pid := (s.proc c).pid
    slots.forM fun p => do
      if (s.proc p).pid = pid ∧ p ≠ c then onFiles (closeAll p) else pure ()
    modify fun s => s.sweep fun p x => if x.pid = pid ∧ p ≠ c then { x with state := .zombie } else x
    modifyProc c fun x => { x with state := .zombie }
    -- Parent might be sleeping in wait().
    let y ← procOf c
    if y.isThread then do
      let q ← derefProc y.parent
      wakeup1 (← procOf q).parent
    else wakeup1 y.parent
    abandonChildren c

def threadExit (c : Slot) (retval : Int) : KProg Unit := do
  let s ← get
  if s.initproc = some c then throw .initExiting
  else do
    onFiles (closeAll c)
    modifyProc c fun x => { x with retval := retval }
    -- Parent might be sleeping in thread_join().
    wakeup1 (← procOf c).parent
    abandonChildren c
    modifyProc c fun x => { x with state := .zombie }

/-! ## Reaping -/

/-- The fields that are reset when a slot is given back. -/
@[simps] def Proc.clear (x : Proc) : Proc :=
  { x with
    pass := 0, stride := 0, share := 0, pticks := 0, ptotalticks := 0, priority := 0, isMLFQ := false
    tid := 0, kstack := none, pid := 0, parent := none, killed := false, state := .unused }

/-- The slot is about to be given back. -/
@[simps] def Kernel.noteReap (s : Kernel) (p : Slot) : Kernel :=
  { s with reaps :=
      { slot := p, state := (s.proc p).state, pid := (s.proc p).pid, kstack := (s.proc p).kstack
        live := match (s.proc p).kstack with
          | none => false
          | some k => decide (k ∈ s.live) } :: s.reaps }

/-- What `killsamepid`, `wait` and `thread_join` all do to a slot that they give back. -/
def reap (p : Slot) : KProg Unit := do
  let x ← procOf p
  modify fun s => s.noteReap p
  modify fun s => s.setTid x.tid false
  kfree x.kstack
  modifyProc p Proc.clear

/-- Give back the exited threads of a process. -/
def killsamepid (pid : Int) : KProg Unit :=
  slots.forM fun p => do
    let x ← procOf p
    if x.pid = pid ∧ x.isMainThread = false ∧ x.state = .zombie then reap p else pure ()

/-- Give back an exited process in `wait`. -/
def reapProcess (p : Slot) : KProg Int := do
  let x ← procOf p
  returnShare p x.totalshare
  modifyProc p fun x => { x with totalshare := 0 }
  reap p
  if x.isMainThread then freevm p x.pgdir else pure ()
  pure x.pid

/-- The loop of `wait` over the table: the pid of the child that was found, and
    whether there are children. -/
def waitLoop (c : Slot) : List Slot → Bool → KProg (Option Int × Bool)
  | [], havekids => pure (none, havekids)
  | p :: ps, havekids => do
    let x ← procOf p
    if x.parent ≠ some c then waitLoop c ps havekids
    else if x.isThereExec then do
      modifyProc p fun x => { x with isThereExec := false }
      waitLoop c ps havekids
    else if x.state = .zombie then do
      -- Found one.
      killsamepid x.pid
      let y ← procOf p
      if y.isThread ∧ y.isMainThread = false then waitLoop c ps true
      else do
        let pid ← reapProcess p
        pure (some pid, true)
    else waitLoop c ps true

/-- What a call comes to: it returns, sleeps, or never returns. -/
inductive Outcome (α : Type) where
  | ret (a : α)
  | asleep
  | gone
  deriving DecidableEq, Repr

/-- One round of `wait`: a child is found, there is none, or the caller goes to sleep
    and starts over when it is woken up. -/
def wait (c : Slot) : KProg (Outcome Int) := do
  let r ← waitLoop c slots false
  match r.1 with
  | some pid => pure (.ret pid)
  | none => do
    if r.2 = false ∨ (← procOf c).killed then pure (.ret (-1))
    else do
      modifyProc c fun x => { x with chan := some c, state := .sleeping }
      pure .asleep

/-- The `while` loop of `thread_join` at slot `p`: whether `c` goes to sleep. -/
def joinWaits (c p : Slot) (thread : Int) : KProg Bool := do
  let x ← procOf p
  if x.state ≠ .zombie ∧ x.pid = (← procOf c).pid ∧ (x.tid : Int) = thread then do
    modifyProc c fun y => { y with chan := some c, state := .sleeping, joining := some (p, thread) }
    pure true
  else pure false

/-- What `thread_join` does once it has stored to `*retval`. -/
def joinReap (c p : Slot) : KProg Unit := do
  returnShare p (← procOf p).share
  reap p
  modifyProc c fun y => { y with joining := none }

/-- `thread_join` from its `while` loop on, at slot `p`: the value returned and the one
    stored in `*retval`. -/
def joinSlot (c p : Slot) (thread : Int) : KProg (Outcome (Int × Option Int)) := do
  if ← joinWaits c p thread then pure .asleep
  else do
    let retval := (← procOf p).retval
    joinReap c p
    pure (.ret (0, some retval))

/-- The first slot whose parent is `c`. -/
def Kernel.firstChild (s : Kernel) (c : Slot) : Option Slot :=
  slots.find? fun p => decide ((s.proc p).parent = some c)

/-- The slot at which `thread_join` looks, when it is called or woken up again. -/
def Kernel.joinTarget (s : Kernel) (c : Slot) (thread : Int) : Option (Slot × Int) :=
  match (s.proc c).joining with
  | some r => some r
  | none => (s.firstChild c).map fun p => (p, thread)

def threadJoin (c : Slot) (thread : Int) : KProg (Outcome (Int × Option Int)) := do
  match (← get).joinTarget c thread with
  | none => pure (.ret (-1, none))
  | some (p, t) => joinSlot c p t

/-! ## Exec -/

/-- What becomes of the program that `exec` loads into a new page directory: it cannot
    be loaded, memory runs out after `n` stack spaces for threads, or all goes well.
    `usz` is the size of the program with the stack of its main thread. -/
inductive Loaded where
  | bad
  | short (dir : Page) (usz n : Nat)
  | ok (dir : Page) (usz : Nat)

/-- The new program is in place, with `n` stack spaces. -/
def switchImage (c : Slot) (dir : Page) (usz n : Nat) : KProg Unit := do
  takePage dir
  modify fun s => s.setTop dir (usz + n * (2 * PGSIZE))
  modify fun s => s.setArea dir (some usz)
  modifyProc c fun x => { x with pgdir := some dir, usz := usz }

/-- The thread `c` takes the place of its main thread. -/
def becomeMain (c : Slot) : KProg Unit := do
  let q ← derefProc (← procOf c).parent
  modifyProc q fun x => { x with isMainThread := false }
  modifyProc c fun x => { x with isMainThread := true }
  modifyProc q fun x => { x with isThereExec := true }
  let g := (← procOf q).parent
  modifyProc c fun x => { x with parent := g }
  modifyProc c fun x => { x with isThread := false }

/-- Make the other threads of `c` zombies, so that they cannot be scheduled. -/
def zombifySiblings (c : Slot) : KProg Unit :=
  slots.forM fun p => do
    let x ← procOf p
    if x.pid = (← procOf c).pid ∧ p ≠ c then do
      if x.isMainThread then pure ()
      else do
        let q ← derefProc x.parent
        let g := (← procOf q).parent
        modifyProc p fun x => { x with parent := g }
      modifyProc p fun x => { x with state := .zombie }
    else pure ()

def exec (c : Slot) : Loaded → KProg Int
  | .bad => pure (-1)
  | .short dir usz n => do
    switchImage c dir usz n
    pure (-1)
  | .ok dir usz => do
    let old := (← procOf c).pgdir
    switchImage c dir usz NPROC
    modifyProc c fun x => { x with sz := usz + NPROC * (2 * PGSIZE) }
    if (← procOf c).isThread then becomeMain c
    else modifyProc c fun x => { x with tid := 0 }
    zombifySiblings c
    freevm c old
    pure 0

/-! ## Kill, sbrk, set_cpu_share -/

/-- Kill all threads of the process with the given pid. -/
def kill (pid : Int) : KProg Int := do
  modify fun s => s.sweep fun _ x =>
    if x.pid = pid then
      { x with killed := true, state := if x.state = .sleeping then .runnable else x.state }
    else x
  pure 0

/-- The user part of directory `dir` ends at `sz`. -/
def resizeTop (dir : Option Page) (sz : Nat) : KProg Unit :=
  match dir with
  | none => pure ()
  | some d => modify fun s => s.setTop d (PGROUNDUP sz)

/-- `allocuvm` or `deallocuvm` in `growproc`: the new size, or 0. `room` says whether
    there are pages for it. From a size above `KERNBASE`, which another thread has left by
    taking away more than there is, `deallocuvm` also frees pages of the kernel; that is not
    followed here. -/
def resizeImage (dir : Option Page) (sz : Nat) (n : Int) (room : Bool) : KProg Nat := do
  let new := ((sz + n) % 2 ^ 32).toNat
  if n > 0 then
    if new ≥ KERNBASE then pure 0
    else if new < sz then pure sz
    else if room then do
      resizeTop dir new
      pure new
    else pure 0
  else if n < 0 then
    if new ≥ sz then pure sz
    else do
      resizeTop dir new
      pure new
  else pure sz

/-- Grow the memory of `c` by `n` bytes. -/
def growproc (c : Slot) (n : Int) (room : Bool) : KProg Int := do
  let y ← procOf c
  let sz ← resizeImage y.pgdir y.sz n room
  if n ≠ 0 ∧ sz = 0 then pure (-1)
  else do
    modify fun s => s.sweep fun p x =>
      if p ≠ c ∧ x.pid = y.pid then { x with sz := ((x.sz + n) % 2 ^ 32).toNat } else x
    modifyProc c fun x => { x with sz := sz }
    pure 0

/-- The total share of a process, after a request of a thread whose main thread is `m`. -/
def takeShare (m : Slot) (share : Int) : KProg Unit := do
  modifyProc m fun x => { x with totalshare := wrap (x.totalshare + share) }
  let total := (← procOf m).totalshare
  if total > 100 then throw .shareOverflow
  else addLeftShare (-total)

/-- The second half of `cpu_share`: the threads of `c` go into stride mode. -/
def assignStrides (c : Slot) (share : Int) : KProg Unit := do
  let s ← get
  let pass := match s.findMinPass with
    | none => s.mlfqPassVal
    | some q => (s.proc q).pass
  let x ← procOf c
  if x.isMainThread ∧ x.cntThread > 1 then do
    divideBy x.cntThread
    strideAll x.pid (x.totalshare.tdiv x.cntThread) pass
  else if x.isThread then do
    let q ← derefProc x.parent
    let n := (← procOf q).cntThread
    divideBy n
    strideAll x.pid (share.tdiv n) pass
  else do
    divideBy share
    modifyProc c fun x => x.toStride share (STRIDENUM.tdiv share) pass

def cpuShare (c : Slot) (share : Int) : KProg Unit := do
  let x ← procOf c
  if x.isMainThread then takeShare c share
  else do
    let q ← derefProc x.parent
    takeShare q share
  resetMLFQStride
  assignStrides c share

/-- Set the share of the caller's process in the CPU. -/
def setCpuShare (c : Slot) (share : Int) : KProg Int := do
  let s ← get
  if s.leftShare - share < 20 then pure (-1)
  else if share = 0 then pure (-1)
  else do
    cpuShare c share
    pure share

end Xv6
