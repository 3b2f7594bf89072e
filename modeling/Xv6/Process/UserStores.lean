-- SUMMARY: System call arguments, and where system calls store through pointers that the user supplies.
import Xv6.Process.Runs
import Xv6.FileSystem.OpenFile
import Xv6.FileSystem.Image
import Xv6.Pipe.Calls

/-! # Stores through user pointers

A system call finds its arguments on the user stack, where `argint` fetches them. `argptr`
checks that a block of memory belongs to the process; `thread_create` and `thread_join` get
their pointers as integers instead. Each call below returns its value with the addresses it
has stored to through pointers that come from the user. What a call does besides is the
business of the models it calls.
-/

namespace Xv6.User

open Prog

/-! ## Arguments -/

/-- What a system call finds in the process that makes it. -/
structure Memory where
  sz : UInt32
  esp : UInt32
  mem : UInt32 → UInt8

namespace Memory

variable (u : Memory)

/-- `*(int*)(addr)`. -/
def word (addr : UInt32) : UInt32 :=
  UInt32.ofNat ((u.mem addr).toNat + 256 * (u.mem (addr + 1)).toNat
    + 65536 * (u.mem (addr + 2)).toNat + 16777216 * (u.mem (addr + 3)).toNat)

/-- Fetch the int at `addr` from the current process. -/
def fetchint (addr : UInt32) : Option UInt32 :=
  if addr ≥ u.sz ∨ addr + 4 > u.sz then none else some (u.word addr)

/-- Fetch the nth 32-bit system call argument. -/
def argint (n : Nat) : Option UInt32 := u.fetchint (u.esp + 4 + 4 * UInt32.ofNat n)

/-- Fetch the nth argument as a pointer to a block of memory of `size` bytes. -/
def argptr (n : Nat) (size : Int32) : Option UInt32 := do
  let i ← u.argint n
  if size < 0 ∨ i ≥ u.sz ∨ i + size.toUInt32 > u.sz then none else some i

/-- Fetch the nth argument as a file descriptor. -/
def argfd (ofile : Fin NOFILE → Option OpenFile) (n : Nat) : Option OpenFile := do
  let fd ← u.argint n
  if fd.toInt32 < 0 then none
  else if h : fd.toNat < NOFILE then ofile ⟨fd.toNat, h⟩
  else none

end Memory

/-! ## What is behind a file -/

/-- Process `t` runs on its own until its call returns `r`, with `bs` put into its buffer. -/
inductive Finishes (t : Nat) : Pipe.State → Int → List UInt8 → Prop where
  | done {s u : Pipe.State} {r : Int} (h : Pipe.run t s = some (u, some r)) : Finishes t s r []
  | more {s u : Pipe.State} {r : Int} {bs : List UInt8} (h : Pipe.run t s = some (u, none)) (rest : Finishes t u r bs) :
      Finishes t s r (Pipe.given t s u ++ bs)

/-- What `piperead` of `n` bytes may return and copy: it has been killed, or has begun to
    copy and keeps the lock until it is done. -/
def PipeReads (n : Int) (r : Int × List UInt8) : Prop :=
  r = (-1, []) ∨ ∃ t s addr, s.call t = .read addr n 0 .copy ∧ Finishes t s r.1 r.2

/-- `C('D')`. -/
def EOT : UInt8 := 4

/-- The loop of `consoleread`; `input` comes from the console until the process is killed.
    The result is the return value and what was copied to `dst`. -/
def consolereadLoop (target : Int) : (n : Nat) → (input : List UInt8) → Int × List UInt8
  | 0, _ => (target, [])
  | _ + 1, [] => (-1, [])
  | n + 1, c :: input =>
    if c = EOT then (target - (n + 1), [])
    else if c = 10 then (target - n, [c])
    else
      let r := consolereadLoop target n input
      (r.1, c :: r.2)

def consoleread (input : List UInt8) (n : UInt32) : Int × List UInt8 :=
  consolereadLoop n.toInt32.toInt.toNat n.toInt32.toInt.toNat input

/-- `struct stat`. -/
structure Stat where
  type : Int16
  dev : Int
  ino : Nat
  nlink : Int16
  size : UInt32

def ROOTDEV : Int := 1

/-- Copy stat information from inode. -/
def stati (x : Inode) : Stat where
  type := x.type
  dev := ROOTDEV
  ino := x.inum
  nlink := x.nlink
  size := x.size

/-- Get metadata about file `f`. -/
def filestat (f : OpenFile) : FS (Int × Option Stat) :=
  match f.type with
  | .inode => do
    ilock f.ip
    let st := stati ((← get).icache f.ip)
    iunlock f.ip
    pure (0, some st)
  | _ => pure (-1, none)

/-! ## System calls -/

/-- `n` bytes from `p` on. -/
def span (p : UInt32) (n : Nat) : List UInt32 := (List.range n).map fun i => p + UInt32.ofNat i

/-- What a system call returns, unless the kernel stops in it, and where it has stored. -/
structure Reply where
  value : Option Int
  stores : List UInt32
  deriving DecidableEq, Repr

def Reply.error : Reply := ⟨some (-1), []⟩

/-- The arguments that `sys_read` and `sys_pread` fetch first. -/
def readArgs (u : Memory) (ofile : Fin NOFILE → Option OpenFile) : Option (OpenFile × Int32 × UInt32) := do
  let f ← u.argfd ofile 0
  let n ← u.argint 2
  let p ← u.argptr 1 n.toInt32
  pure (f, n.toInt32, p)

def sysRead (u : Memory) (ofile : Fin NOFILE → Option OpenFile) : FS Reply :=
  match readArgs u ofile with
  | none => pure .error
  | some (f, n, p) => do
    let r ← fileread f n
    pure ⟨some r.1, span p r.2.1.length⟩

def sysPread (u : Memory) (ofile : Fin NOFILE → Option OpenFile) : FS Reply :=
  match readArgs u ofile, u.argint 3 with
  | some (f, n, p), some off => do
    let r ← pfileread f n off.toInt32
    pure ⟨some r.1, span p r.2.length⟩
  | _, _ => pure .error

/-- `sizeof(struct stat)`, with two gaps behind the fields of type short. -/
def sizeofStat : Nat := 20

/-- The bytes of the fields of the `struct stat` at `st`. -/
def statFields (st : UInt32) : List UInt32 := span st 2 ++ span (st + 4) 10 ++ span (st + 16) 4

def sysFstat (u : Memory) (ofile : Fin NOFILE → Option OpenFile) : FS Reply :=
  match u.argfd ofile 0, u.argptr 1 (Int32.ofNat sizeofStat) with
  | some f, some st => do
    let r ← filestat f
    pure ⟨some r.1, r.2.elim [] fun _ => statFields st⟩
  | _, _ => pure .error

def sysPipe (u : Memory) (c : Slot) (page : Bool) : FProg Reply :=
  match u.argptr 0 8 with
  | none => pure .error
  | some fd => do
    let r ← Xv6.sysPipe c page
    pure ⟨some r, if r = 0 then span fd 4 ++ span (fd + 4) 4 else []⟩

/-- The arguments of `sys_thread_create`: `thread`, `start_routine` and `arg`. -/
def createArgs (u : Memory) : Option (UInt32 × UInt32 × UInt32) := do
  let n ← u.argint 0
  let sr ← u.argint 1
  let a ← u.argint 2
  pure (n, sr, a)

/-- `stack` and `junk` are what `thread_create` finds in the kernel. -/
def sysThreadCreate (u : Memory) (c : Slot) (stack : Option Page) (junk : ℚ) : KProg Reply :=
  match createArgs u with
  | none => pure .error
  | some (thread, _, _) => do
    let r ← threadCreate c stack junk
    pure ⟨some r.1, r.2.elim [] fun _ => span thread 4⟩

/-- Kernel code of a call that stores: where it has stored when the kernel stops is the error. -/
abbrev SProg := Prog Kernel (List UInt32)

/-- Kernel code that runs after `stores`. -/
def storing {α : Type} (stores : List UInt32) (m : KProg α) : SProg α := fun s => (m s).mapError fun _ => stores

/-- `thread_join` with the pointer `retval`, from its call or from where it sleeps on. It stores
    before it gives back the slot, and `kfree` may stop the kernel in between. -/
def joinTo (c : Slot) (thread : Int) (retval : UInt32) : SProg (Outcome Reply) := do
  match (← get).joinTarget c thread with
  | none => pure (.ret .error)
  | some (p, t) => do
    if ← storing [] (joinWaits c p t) then pure .asleep
    else do
      storing (span retval 4) (joinReap c p)
      pure (.ret ⟨some 0, span retval 4⟩)

/-- What `thread_join` comes to, with the four bytes at `retval` for the value that it stores. -/
def Outcome.storedAt (retval : UInt32) : Outcome (Int × Option Int) → Outcome Reply
  | .ret r => .ret ⟨some r.1, r.2.elim [] fun _ => span retval 4⟩
  | .asleep => .asleep
  | .gone => .gone

/-- The arguments of `sys_thread_join`: `thread` and `retval`. -/
def joinArgs (u : Memory) : Option (UInt32 × UInt32) := do
  let thread ← u.argint 0
  let retval ← u.argint 1
  pure (thread, retval)

def sysThreadJoin (u : Memory) (c : Slot) : SProg (Outcome Reply) :=
  match joinArgs u with
  | none => pure (.ret .error)
  | some (thread, retval) => joinTo c thread.toInt32.toInt retval

/-! ## Callers -/

/-- A process that makes a system call, and the kernel around it. -/
structure Caller where
  user : Memory
  slot : Slot
  kernel : Kernel
  fs : Fs
  ofile : Fin NOFILE → Option OpenFile
  used : kernel.Used slot
  sized : (kernel.proc slot).sz = user.sz.toNat
  small : user.sz.toNat < KERNBASE
  pipes : ∀ {fd f} n, ofile fd = some f → PipeReads n.toInt (f.pipe.read n)
  console : ∀ {major g}, (fs.devsw major).read = some g → ∃ input, g = consoleread input

inductive Call where
  | threadCreate (stack : Option Page) (junk : ℚ)
  | threadJoin
  /-- A process that sleeps in `thread_join` goes on. -/
  | joinAgain (thread : Int) (retval : UInt32)
  | read
  | pread
  | fstat
  | pipe (page : Bool)

/-- What a program returns, unless the kernel stops. -/
def replyOf {σ ε α : Type} (m : Prog σ ε α) (s : σ) : Option α :=
  match m s with
  | .ok (a, _) => some a
  | .error _ => none

def Outcome.reply : Outcome Reply → Option Reply
  | .ret r => some r
  | _ => none

/-- The reply of a call that returns, and what is stored by one that stops the kernel. -/
def storedOf (m : SProg (Outcome Reply)) (s : Kernel) : Option Reply :=
  match m s with
  | .ok (o, _) => Outcome.reply o
  | .error stores => some ⟨none, stores⟩

/-- The reply to a call, if there is one. -/
def Call.reply (w : Caller) : Call → Option Reply
  | .threadCreate stack junk => replyOf (sysThreadCreate w.user w.slot stack junk) w.kernel
  | .threadJoin => storedOf (sysThreadJoin w.user w.slot) w.kernel
  | .joinAgain thread retval => storedOf (joinTo w.slot thread retval) w.kernel
  | .read => replyOf (sysRead w.user w.ofile) w.fs
  | .pread => replyOf (sysPread w.user w.ofile) w.fs
  | .fstat => replyOf (sysFstat w.user w.ofile) w.fs
  | .pipe page => replyOf (sysPipe w.user w.slot page) w.kernel.files

/-- The pointer and the number of bytes that a call is asked to store there. -/
def Call.target (u : Memory) : Call → Option (UInt32 × Nat)
  | .threadCreate _ _ => (u.argint 0).map (·, 4)
  | .threadJoin => (u.argint 1).map (·, 4)
  | .joinAgain _ retval => some (retval, 4)
  | .read | .pread => do return (← u.argint 1, (← u.argint 2).toNat)
  | .fstat => (u.argint 1).map (·, sizeofStat)
  | .pipe _ => (u.argint 0).map (·, 8)

/-- All `n` bytes from `p` on belong to the process. -/
def Memory.Holds (u : Memory) (p : UInt32) (n : Nat) : Prop := ∀ i < n, p.toNat + i < u.sz.toNat

/-- `thread_create` has what it needs. -/
structure Caller.Creates (w : Caller) (stack : Option Page) : Prop where
  main : (w.kernel.proc w.slot).isThread = false
  slot : w.kernel.freeSlot ≠ none
  stack : stack ≠ none
  push : w.kernel.canPush (w.kernel.proc w.slot).pgdir
    ((w.kernel.stackTop w.slot (w.kernel.freeTid.getD 0) + (2 ^ 32 - 8)) % 2 ^ 32) = true
  files : ¬ w.kernel.files.Unreferenced w.slot

section Pointers

variable {u : Memory} {p : UInt32} {k n : Nat} {size : Int32}

theorem toNat_toUInt32 (h : ¬ size < 0) : size.toUInt32.toNat = size.toInt.toNat := by
  rw [Int32.toNat_toUInt32_of_le (Int32.not_lt.mp h), Int32.toNat_toInt]

end Pointers

/-! ## How much is read -/

/-- A step of the loop that copies puts a byte into the buffer, or it is the last one. -/
theorem copy_step {t addr i : Nat} {n : Int} {s v : Pipe.State} {r : Option Int}
    (hcall : s.call t = .read addr n i .copy) (hrun : Pipe.run t s = some (v, r)) :
    r ≠ none ∨ (i < n ∧ (Pipe.given t s v).length = 1 ∧ v.call t = .read addr n (i + 1) .copy) := by
  rw [Pipe.run, hcall] at hrun
  dsimp only [Pipe.piperead] at hrun
  split at hrun
  · next hmore =>
    cases hrun
    have hnext := Function.update_self t (Pipe.Call.read addr n (i + 1) .copy) s.call
    refine .inr ⟨hmore.1, ?_, hnext⟩
    simp [Pipe.given, Pipe.State.goto, Pipe.State.deliver, hcall]
  · cases hrun
    exact .inl (Option.some_ne_none _)

/-- A reader that copies puts no more into its buffer than it was asked for. -/
theorem Finishes.length_le {t addr : Nat} {n : Int} {s : Pipe.State} {r : Int} {bs : List UInt8}
    (h : Finishes t s r bs) {i : Nat} (hcall : s.call t = .read addr n i .copy) :
    bs = [] ∨ i + bs.length ≤ n := by
  induction h generalizing i with
  | done hrun => exact .inl rfl
  | more hrun _ ih =>
    rcases copy_step hcall hrun with hr | ⟨hlt, hone, hnext⟩
    · exact absurd rfl hr
    · refine .inr ?_
      rw [List.length_append, hone]
      rcases ih hnext with rfl | hle
      · exact Int.add_one_le_of_lt hlt
      · push_cast at hle ⊢
        omega

theorem PipeReads.length_le {n : Int} {r : Int × List UInt8} (h : PipeReads n r) : r.2.length ≤ n.toNat := by
  rcases h with rfl | ⟨t, s, addr, hcall, hrun⟩
  · exact Nat.zero_le _
  · rcases hrun.length_le hcall with hnil | hle
    · rw [hnil]
      exact Nat.zero_le _
    · omega

section Reads

variable {s : Fs} {ip : InodePtr}

end Reads

/-! ## Calls that check their pointers -/

namespace Caller

variable (w : Caller)

theorem wp_storing {α : Type} {m : KProg α} {stores : List UInt32} {Q : α → Kernel → Prop}
    {E : List UInt32 → Prop} {s : Kernel} : wp (storing stores m) Q E s ↔ wp m Q (fun _ => E stores) s := by
  unfold wp storing
  cases m s <;> rfl

theorem wp_joinTo {c : Slot} {thread : Int} {retval : UInt32} {Q : Outcome Reply → Kernel → Prop}
    {E : List UInt32 → Prop} {s : Kernel} :
    wp (joinTo c thread retval) Q E s ↔
      (s.joinTarget c thread = none → Q (.ret .error) s) ∧
      ∀ p t, s.joinTarget c thread = some (p, t) →
        (s.Pending c p t → Q .asleep (s.joining c p t)) ∧
        (¬ s.Pending c p t → ((s.proc p).kstack = none → E (span retval 4)) ∧
          ∀ k, (s.proc p).kstack = some k → Q (.ret ⟨some 0, span retval 4⟩) (s.joined c p k)) := by
  simp only [joinTo, wp_bind, wp_get]
  cases s.joinTarget c thread with
  | none => simp
  | some r => simp [Prod.ext_iff, wp_storing, wp_joinWaits, wp_joinReap]

/-- Where `threadJoin` returns or sleeps, `joinTo` does the same. -/
theorem joinTo_of_threadJoin {c : Slot} {thread : Int} (retval : UInt32) {s u : Kernel}
    {o : Outcome (Int × Option Int)} (h : threadJoin c thread s = .ok (o, u)) :
    joinTo c thread retval s = .ok (Outcome.storedAt retval o, u) := by
  have hwp : wp (joinTo c thread retval) (fun o' u' => o' = Outcome.storedAt retval o ∧ u' = u) (fun _ => False) s := by
    have hjoin : wp (threadJoin c thread) (fun o' u' => o' = o ∧ u' = u) (fun _ => False) s := by
      rw [wp, h]
      exact ⟨rfl, rfl⟩
    obtain ⟨hnone, hsome⟩ := wp_threadJoin.mp hjoin
    refine wp_joinTo.mpr ⟨fun htarget => ?_, fun p t htarget => ?_⟩
    · obtain ⟨rfl, rfl⟩ := hnone htarget
      exact ⟨rfl, rfl⟩
    · obtain ⟨hwait, hready⟩ := wp_joinSlot.mp (hsome p t htarget)
      refine ⟨fun hpending => ?_, fun hfound => ⟨(hready hfound).1, fun k hk => ?_⟩⟩
      · obtain ⟨rfl, rfl⟩ := hwait hpending
        exact ⟨rfl, rfl⟩
      · obtain ⟨rfl, rfl⟩ := (hready hfound).2 k hk
        exact ⟨rfl, rfl⟩
  obtain ⟨_, _, hrun, rfl, rfl⟩ := hwp.run_ok
  exact hrun

end Caller

/-- The arguments `fd`, 0 and 4. -/
def readFour (fd : UInt8) : Memory where
  sz := 4096
  esp := 0
  mem := fun a => if a = 4 then fd else if a = 12 then 4 else 0

/-- A reader of `n` bytes that has found `b` in the pipe. -/
def foundByte (b : UInt8) (n : Int) : Pipe.State :=
  { Pipe.State.pipealloc (fun _ => b) (fun _ => false) (fun _ _ => 0) with
    ring := { data := fun _ => b, nread := 0, nwrite := 1 }
    lock := some 0, call := fun _ => .read 0 n 0 .copy }

/-- The end of a pipe that holds `b`. -/
def byteEnd (b : UInt8) : PipeEnd where
  read := fun n => if 0 < n.toInt then (1, [b]) else (0, [])
  write := fun _ _ => -1

theorem pipeReads_byteEnd (b : UInt8) (n : Int32) : PipeReads n.toInt ((byteEnd b).read n) := by
  refine .inr ⟨0, foundByte b n.toInt, 0, rfl, ?_⟩
  have hring : (0 : BitVec 32) ≠ 1 := by decide
  dsimp only [byteEnd]
  split
  · next hn =>
    have hfirst : Pipe.run 0 (foundByte b n.toInt) =
        some (((foundByte b n.toInt).deliver 0 0).goto 0 (.read 0 n.toInt 1 .copy), none) := if_pos ⟨hn, hring⟩
    -- One byte, and the pipe is empty.
    exact .more hfirst (.done (if_neg fun h => h.2 rfl))
  · next hn => exact .done (if_neg fun h => hn h.1)

/-- A process with the pipe at descriptor 0 and the console, on which a line has been typed,
    at descriptor 1. -/
def Caller.reading (fd : UInt8) : Caller where
  user := readFour fd
  slot := 0
  kernel := boot 0 1 0
  fs := { Xv6.image { Dinode.blank with type := T_DEV, major := 1 } with
    devsw := fun _ => ⟨some (consoleread [104, 105, 10]), none⟩ }
  ofile := fun fd =>
    if fd = 0 then some ⟨.pipe, 1, true, false, byteEnd 7, 0, 0⟩
    else if fd = 1 then some ⟨.inode, 1, true, true, byteEnd 0, 0, 0⟩
    else none
  used := by decide
  sized := rfl
  small := show 4096 < KERNBASE by decide
  pipes := by
    intro fd f n h
    split at h
    · cases h
      exact pipeReads_byteEnd 7 n
    · split at h
      · cases h
        exact pipeReads_byteEnd 0 n
      · cases h
  console := by
    intro _ g h
    cases h
    exact ⟨_, rfl⟩

example : Call.read.reply (.reading 0) = some ⟨some 1, [0]⟩ ∧ Call.read.reply (.reading 1) = some ⟨some 3, [0, 1, 2]⟩ := by
  decide

/-! ## A store into the kernel -/

end Xv6.User
