-- SUMMARY: Runs of the kernel: any calls by any processes, with the scheduler in between.
import Xv6.Process.Changes

/-! # Runs

A run starts when the first process has been set up. In each step a running process
makes a call, or the scheduler, an interrupt or a device moves processes between the
states in which they can be scheduled. `Run Ok` are the runs in which every call
meets the condition `Ok`.
-/

namespace Xv6

open Prog

/-! ## Calls -/

inductive FileCall where
  | dup (fd : Fin NOFILE)
  | close (fd : Fin NOFILE)
  | openPath (ip : Option InodePtr)
  | pipe (page : Bool)
  | chdir (ip : Option InodePtr)

def FileCall.run (c : Slot) : FileCall → FProg Int
  | .dup fd => sysDup c fd
  | .close fd => sysClose c fd
  | .openPath ip => sysOpenFd c ip
  | .pipe page => sysPipe c page
  | .chdir ip => sysChdirTo c ip

inductive SysCall where
  | fork (stack dir : Option Page)
  | threadCreate (stack : Option Page) (junk : ℚ)
  | threadExit (retval : Int)
  | exit
  | exec (img : Loaded)
  | wait
  | threadJoin (thread : Int)
  | kill (pid : Int)
  | sbrk (n : Int) (room : Bool)
  | setCpuShare (share : Int)
  | file (call : FileCall)

def SysCall.run (c : Slot) : SysCall → KProg (Outcome Int)
  | .fork stack dir => do return .ret (← Xv6.fork c stack dir)
  | .threadCreate stack junk => do return .ret (← Xv6.threadCreate c stack junk).1
  | .threadExit retval => do
    Xv6.threadExit c retval
    return .gone
  | .exit => do
    Xv6.exit c
    return .gone
  | .exec img => do return .ret (← Xv6.exec c img)
  | .wait => Xv6.wait c
  | .threadJoin thread => do
    match ← Xv6.threadJoin c thread with
    | .ret r => return .ret r.1
    | .asleep => return .asleep
    | .gone => return .gone
  | .kill pid => do return .ret (← Xv6.kill pid)
  | .sbrk n room => do return .ret (← growproc c n room)
  | .setCpuShare share => do return .ret (← Xv6.setCpuShare c share)
  | .file call => do return .ret (← onFiles (call.run c))

/-- A program that fits below the kernel, with its stack spaces. -/
def Fits (s : Kernel) (dir : Page) (usz n : Nat) : Prop :=
  dir ∉ s.live ∧ usz % PGSIZE = 0 ∧ 2 * PGSIZE ≤ usz ∧ usz + n * (2 * PGSIZE) < KERNBASE

/-- Pages come from the allocator, and arguments are machine integers. -/
def SysCall.Fresh (s : Kernel) : SysCall → Prop
  | .fork stack dir => (∀ k ∈ stack, k ∉ s.live) ∧ ∀ d ∈ dir, d ∉ s.live ∧ stack ≠ some d
  | .threadCreate stack _ => ∀ k ∈ stack, k ∉ s.live
  | .exec (.short dir usz n) => Fits s dir usz n ∧ n < NPROC
  | .exec (.ok dir usz) => Fits s dir usz NPROC
  | .setCpuShare share => -2 ^ 31 ≤ share ∧ share < 2 ^ 31
  | .sbrk n _ => -2 ^ 31 ≤ n ∧ n < 2 ^ 31
  | _ => True

instance (s : Kernel) (call : SysCall) : Decidable (call.Fresh s) := by
  unfold SysCall.Fresh Fits
  split <;> infer_instance

def SysCall.isJoin : SysCall → Bool
  | .threadJoin _ => true
  | _ => false

/-- `c` can make the call now. Who sleeps in `thread_join` goes on with it. -/
structure SysCall.Ready (call : SysCall) (s : Kernel) (c : Slot) : Prop where
  running : (s.proc c).state = .running
  resumes : (s.proc c).joining ≠ none → call.isJoin = true
  fresh : call.Fresh s

instance (s : Kernel) (c : Slot) (call : SysCall) : Decidable (call.Ready s c) :=
  decidable_of_iff ((s.proc c).state = .running ∧ ((s.proc c).joining ≠ none → call.isJoin = true) ∧ call.Fresh s)
    ⟨fun ⟨h₁, h₂, h₃⟩ => ⟨h₁, h₂, h₃⟩, fun ⟨h₁, h₂, h₃⟩ => ⟨h₁, h₂, h₃⟩⟩

/-! ## What leaves the table alone -/

section Frames

variable {s : Kernel} {c : Slot}

/-- These stop only for a descriptor without a reference. -/
def FileHalt (e : Halt) : Prop := e = .filedup ∨ e = .fileclose

theorem wp_putInode_any {f : Files} {E : Halt → Prop} {Q : Unit → Files → Prop} {r : Option InodePtr}
    (hQ : ∀ t, Q () t) : wp (putInode r) Q E f := by
  cases r with
  | none => exact hQ _
  | some ip =>
    simp only [putInode, wp_bind, wp_get]
    split <;> exact hQ _

theorem wp_filealloc_any {f : Files} {E : Halt → Prop} {Q : Option (Fin NFILE) → Files → Prop}
    (hQ : ∀ r t, Q r t) : wp filealloc Q E f := by
  simp only [filealloc, wp_bind, wp_get]
  split <;> exact hQ _ _

theorem wp_fdalloc_any {f : Files} {E : Halt → Prop} {Q : Option (Fin NOFILE) → Files → Prop} {i : Fin NFILE}
    (hQ : ∀ r t, Q r t) : wp (fdalloc c i) Q E f := by
  simp only [fdalloc, wp_bind, wp_get]
  split <;> exact hQ _ _

theorem wp_pipealloc_any {f : Files} {Q : Option (Fin NFILE × Fin NFILE) → Files → Prop} {page : Bool}
    (hQ : ∀ r t, Q r t) : wp (pipealloc page) Q FileHalt f := by
  simp only [pipealloc, wp_bind]
  refine wp_filealloc_any fun r t => ?_
  cases r with
  | none => exact hQ _ _
  | some f₀ =>
    simp only [wp_bind]
    refine wp_filealloc_any fun r t => ?_
    cases r with
    | none =>
      simp only [wp_bind]
      exact wp_closeFile_any (fun t => hQ _ _) (.inr rfl)
    | some f₁ =>
      dsimp only
      split
      · exact hQ _ _
      · simp only [wp_bind]
        exact wp_closeFile_any (fun t => wp_closeFile_any (fun t => hQ _ _) (.inr rfl)) (.inr rfl)

theorem FileCall.wp_run_any (call : FileCall) {f : Files} {Q : Int → Files → Prop} (hQ : ∀ r t, Q r t) :
    wp (call.run c) Q FileHalt f := by
  cases call with
  | dup fd =>
    simp only [run, sysDup, wp_bind, wp_get]
    split
    · exact hQ _ _
    · simp only [wp_bind]
      refine wp_fdalloc_any fun r t => ?_
      cases r with
      | none => exact hQ _ _
      | some fd =>
        simp only [wp_bind, filedup, wp_get]
        split
        · exact .inl rfl
        · exact hQ _ _
  | close fd =>
    simp only [run, sysClose, wp_bind, wp_get]
    split
    · exact hQ _ _
    · simp only [wp_bind]
      exact wp_closeFile_any (fun t => hQ _ _) (.inr rfl)
  | openPath ip =>
    cases ip with
    | none => exact hQ _ _
    | some ip =>
      simp only [run, sysOpenFd, openFound, wp_bind]
      refine wp_filealloc_any fun r t => ?_
      cases r with
      | none =>
        simp only [wp_bind]
        exact wp_putInode_any fun t => hQ _ _
      | some i =>
        simp only [wp_bind]
        refine wp_fdalloc_any fun r t => ?_
        cases r with
        | none =>
          simp only [wp_bind]
          exact wp_closeFile_any (fun t => wp_putInode_any fun t => hQ _ _) (.inr rfl)
        | some fd => exact hQ _ _
  | pipe page =>
    simp only [run, sysPipe, wp_bind]
    refine wp_pipealloc_any fun r t => ?_
    cases r with
    | none => exact hQ _ _
    | some fs =>
      simp only [wp_bind]
      refine wp_fdalloc_any fun r t => ?_
      cases r with
      | none =>
        simp only [wp_bind]
        exact wp_closeFile_any (fun t => wp_closeFile_any (fun t => hQ _ _) (.inr rfl)) (.inr rfl)
      | some fd =>
        simp only [wp_bind]
        refine wp_fdalloc_any fun r t => ?_
        cases r with
        | none =>
          simp only [wp_bind]
          exact wp_closeFile_any (fun t => wp_closeFile_any (fun t => hQ _ _) (.inr rfl)) (.inr rfl)
        | some fd' => exact hQ _ _
  | chdir ip =>
    cases ip with
    | none => exact hQ _ _
    | some ip =>
      simp only [run, sysChdirTo, wp_bind]
      exact wp_putInode_any fun t => hQ _ _

/-- Calls that leave every slot to who has it, and shares as they are. -/
def SysCall.Mild : SysCall → Prop
  | .kill _ | .sbrk _ _ | .file _ => True
  | _ => False

/-- Where such calls stop, and `set_cpu_share`. -/
def MildHalt (e : Halt) : Prop := FileHalt e ∨ e = .shareOverflow ∨ e = .nullProc

theorem Proc.like_of_totalshare (x : Proc) (n : Int) : x.Like { x with totalshare := n } :=
  ⟨.inl rfl, rfl, rfl, rfl, rfl, rfl, rfl, rfl, rfl⟩

theorem wp_takeShare_like {m : Slot} {share : Int} :
    wp (takeShare m share) (fun _ t => s.Like t) MildHalt s := by
  simp only [takeShare, wp_bind, wp_modifyProc, wp_procOf]
  split
  · exact .inr (.inl rfl)
  · have hlike : s.Like (s.upd m fun x => { x with totalshare := wrap (x.totalshare + share) }) :=
      .of_upd (Proc.like_of_totalshare _ _)
    exact hlike.trans (.of_proc rfl)

theorem Proc.like_of_toStride (x : Proc) (a b d : ℚ) : x.Like (x.toStride a b d) :=
  ⟨.inl rfl, rfl, rfl, rfl, rfl, rfl, rfl, rfl, rfl⟩

theorem Kernel.like_of_restride (pid : Int) (share pass : ℚ) : s.Like (s.restride pid share pass) := by
  refine ⟨fun q => ?_, rfl, rfl, rfl, rfl, rfl, rfl, rfl, rfl⟩
  rw [restride_proc]
  split
  · exact Proc.like_of_toStride _ _ _ _
  · exact .refl _

theorem wp_assignStrides_like {share : Int} : wp (assignStrides c share) (fun _ t => s.Like t) MildHalt s := by
  simp only [assignStrides, wp_bind, wp_get, wp_procOf]
  have hnote : ∀ d, s.Like (s.noteDivisor d) := fun d => .of_proc rfl
  split
  · exact (hnote _).trans (Kernel.like_of_restride _ _ _)
  · split
    · simp only [wp_bind, wp_derefProc, wp_procOf, divideBy, strideAll, wp_modify]
      exact ⟨fun _ => .inr (.inr rfl), fun q _ => (hnote _).trans (Kernel.like_of_restride _ _ _)⟩
    · exact (hnote _).trans (.of_upd (Proc.like_of_toStride _ _ _ _))

/-- Shares do not hand slots on. -/
theorem wp_setCpuShare_like {share : Int} : wp (setCpuShare c share) (fun _ t => s.Like t) MildHalt s := by
  have hend : ∀ t, s.Like t → wp (do resetMLFQStride; assignStrides c share : KProg Unit)
      (fun _ u => s.Like u) MildHalt t := by
    intro t ht
    simp only [wp_bind, resetMLFQStride, wp_modify]
    have ht' : s.Like t.resetStride := ht.trans (.of_proc rfl)
    exact wp_assignStrides_like.post fun _ u hu => ht'.trans hu
  simp only [wp_bind] at hend
  simp only [setCpuShare, wp_bind, wp_get]
  split
  · exact .refl s
  · split
    · exact .refl s
    · simp only [wp_bind, cpuShare, wp_procOf]
      split
      · rw [wp_bind]
        exact wp_takeShare_like.post fun _ t ht => hend t ht
      · simp only [wp_bind, wp_derefProc]
        exact ⟨fun _ => .inr (.inr rfl), fun q _ => wp_takeShare_like.post fun _ t ht => hend t ht⟩

theorem wp_resizeImage_like {dir : Option Page} {sz : Nat} {n : Int} {room : Bool} :
    wp (resizeImage dir sz n room) (fun _ t => s.Like t ∧ s.Even t) MildHalt s := by
  have hsame : s.Like s ∧ s.Even s := ⟨.refl s, .refl s⟩
  have htop : ∀ new : Nat, wp (do resizeTop dir new; pure new : KProg Nat) (fun _ t => s.Like t ∧ s.Even t)
      MildHalt s := by
    intro new
    cases dir with
    | none => exact hsame
    | some d => exact ⟨.of_proc rfl, fun _ => .refl _, rfl, rfl, rfl⟩
  simp only [resizeImage]
  split
  · split
    · exact hsame
    · split
      · exact hsame
      · split
        · exact htop _
        · exact hsame
  · split
    · split
      · exact hsame
      · exact htop _
    · exact hsame

theorem Proc.like_of_sz (x : Proc) (n : Nat) : x.Like { x with sz := n } :=
  ⟨.inl rfl, rfl, rfl, rfl, rfl, rfl, rfl, rfl, rfl⟩

theorem Proc.even_of_sz (x : Proc) (n : Nat) : x.Even { x with sz := n } := ⟨rfl, rfl, rfl, rfl, rfl⟩

theorem wp_growproc_like {n : Int} {room : Bool} :
    wp (growproc c n room) (fun _ t => s.Like t ∧ s.Even t) MildHalt s := by
  simp only [growproc, wp_bind, wp_procOf]
  refine wp_resizeImage_like.post fun sz t ht => ?_
  split
  · exact ht
  · simp only [wp_bind, wp_modify, wp_modifyProc, wp_pure]
    constructor
    · refine (ht.1.trans (.of_sweep fun q => ?_)).trans (.of_upd (Proc.like_of_sz _ _))
      split
      · exact Proc.like_of_sz _ _
      · exact .refl _
    · refine (ht.2.trans (.of_sweep fun q => ?_)).trans (.of_upd (Proc.even_of_sz _ _))
      split
      · exact Proc.even_of_sz _ _
      · exact .refl _

theorem wp_kill_like {pid : Int} : wp (kill pid) (fun _ t => s.Like t ∧ s.Even t) MildHalt s := by
  simp only [kill, wp_bind, wp_modify, wp_pure]
  refine ⟨.of_sweep fun q => ?_, .of_sweep fun q => ?_⟩
  · split
    · refine ⟨?_, rfl, rfl, rfl, rfl, rfl, rfl, rfl, rfl⟩
      dsimp only
      split
      · next h => exact .inr ⟨.inl h, .inr (.inl rfl)⟩
      · exact .inl rfl
    · exact .refl _
  · split
    · exact ⟨rfl, rfl, rfl, rfl, rfl⟩
    · exact .refl _

theorem SysCall.Mild.like {call : SysCall} (h : call.Mild) :
    wp (call.run c) (fun _ t => s.Like t ∧ s.Even t) MildHalt s := by
  cases call with
  | kill pid =>
    simp only [run, wp_bind, wp_pure]
    exact wp_kill_like
  | sbrk n room =>
    simp only [run, wp_bind, wp_pure]
    exact wp_growproc_like
  | file call =>
    simp only [run, wp_bind, wp_pure, wp_onFiles]
    have hsame : ∀ f, s.Like (s.setFiles f) ∧ s.Even (s.setFiles f) := fun f =>
      ⟨.of_proc rfl, fun _ => .refl _, rfl, rfl, rfl⟩
    exact (call.wp_run_any fun _ f => hsame f).mono (fun _ _ h => h) fun _ h => .inl h
  | _ => exact h.elim

end Frames

/-! ## Boot -/

/-- A slot before its first use. -/
def Proc.zero : Proc where
  sz := 0
  pgdir := none
  kstack := none
  state := .unused
  pid := 0
  parent := none
  chan := none
  killed := false
  priority := 0
  pticks := 0
  ptotalticks := 0
  isMLFQ := false
  share := 0
  stride := 0
  pass := 0
  tid := 0
  retval := 0
  isThread := false
  isMainThread := false
  usz := 0
  isThereExec := false
  cntThread := 0
  totalshare := 0
  joining := none

/-- The data of the kernel before the first process is set up. -/
def Kernel.zero : Kernel where
  proc := fun _ => .zero
  ttable := fun _ => false
  nextpid := 1
  initproc := none
  leftShare := 100
  mlfqStrideVal := 0
  mlfqPassVal := 0
  mlfqTicks := 0
  live := ∅
  top := fun _ => 0
  area := fun _ => none
  files := {
    ofile := fun _ _ => none
    cwd := fun _ => none
    ftable := fun _ => { inode := none, ref := 0 }
    iref := fun _ => 0
    faults := [] }
  reaps := []
  freevms := []
  refunds := []
  divisors := []

/-- Set up first user process. `root` is the entry of the inode cache for `/`. -/
def userinit (stack dir : Page) (root : InodePtr) : KProg Unit := do
  match ← allocproc (some stack) with
  | none => throw .nullProc
  | some p => do
    modify fun s => { s with initproc := some p }
    takePage dir
    modify fun s => s.setTop dir PGSIZE
    modifyProc p fun x => { x with pgdir := some dir, sz := PGSIZE }
    onFiles (takeInode (some root))
    onFiles (setCwd p (some root))
    modifyProc p fun x => { x with state := .runnable }

/-- The first process. -/
def Proc.init (stack dir : Page) : Proc :=
  { Proc.zero.embryo 1 0 with kstack := some stack, pgdir := some dir, sz := PGSIZE, state := .runnable }

/-- The state after `userinit`. -/
@[simps] def boot (stack dir : Page) (root : InodePtr) : Kernel :=
  { Kernel.zero with
    proc := fun q => if q = 0 then .init stack dir else .zero
    ttable := Function.update (fun _ => false) 0 true
    nextpid := 2
    initproc := some 0
    live := {dir, stack}
    top := Function.update (fun _ => 0) dir PGSIZE
    files := { Kernel.zero.files with
      cwd := Function.update (fun _ => none) 0 (some root)
      iref := Function.update (fun _ => 0) root 1 } }

theorem boot_proc_ne {stack dir : Page} {root : InodePtr} {q : Slot} (h : q ≠ 0) :
    (boot stack dir root).proc q = .zero := if_neg h

theorem eq_zero_of_boot_used {stack dir : Page} {root : InodePtr} {q : Slot} (h : (boot stack dir root).Used q) :
    q = 0 := by
  by_contra hne
  unfold Kernel.Used at h
  rw [boot_proc_ne hne] at h
  exact h rfl

theorem boot_used_zero {stack dir : Page} {root : InodePtr} : (boot stack dir root).Used 0 := by
  change ProcState.runnable ≠ .unused
  decide

theorem wp_userinit {E : Halt → Prop} (stack dir : Page) (root : InodePtr) :
    wp (userinit stack dir root) (fun _ s => s = boot stack dir root) E Kernel.zero := by
  have hslot : Kernel.zero.freeSlot = some 0 := by decide +kernel
  have htid : Kernel.zero.freeTid = some 0 := by decide +kernel
  simp only [userinit, wp_bind]
  refine wp_allocproc (by simp [hslot]) (by simp) fun p k hp hk => ?_
  obtain rfl : 0 = p := by simpa [hslot] using hp
  obtain rfl : stack = k := by simpa using hk
  simp only [wp_bind, wp_modify, takePage, wp_modifyProc, wp_onFiles, takeInode, addIref, setCwd]
  unfold boot Kernel.alloced Kernel.claimSlot Kernel.upd Kernel.sweep
  simp only [htid]
  congr 1
  funext q
  by_cases hq : q = 0
  · simp [hq, Proc.init, Kernel.zero]
  · simp [hq]
    rfl

/-! ## Runs -/

/-- What the scheduler, interrupts and devices change of a process. -/
def Proc.rescheduled (x : Proc) (st : ProcState) (chan : Option Slot) (priority : Nat) (pticks ptotalticks : Int)
    (pass : ℚ) : Proc :=
  { x with
    state := st, chan := chan, priority := priority, pticks := pticks, ptotalticks := ptotalticks, pass := pass }

/-- The scheduler, interrupts and devices lead from `s` to `t`. -/
structure Idle (s t : Kernel) : Prop where
  proc : ∀ q, ∃ st chan priority pticks ptotalticks pass,
    t.proc q = (s.proc q).rescheduled st chan priority pticks ptotalticks pass ∧ (s.proc q).state.Like st
  rest : t = { s with proc := t.proc, mlfqPassVal := t.mlfqPassVal, mlfqTicks := t.mlfqTicks }

/-- From `s` the kernel gets to the second state, and every call on the way meets `Ok`. -/
inductive Run (Ok : Kernel → Slot → SysCall → Prop) (s : Kernel) : Kernel → Prop where
  | refl : Run Ok s s
  | idle {t u : Kernel} (h : Run Ok s t) (hidle : Idle t u) : Run Ok s u
  | call {t u : Kernel} {r : Outcome Int} (h : Run Ok s t) (c : Slot) (call : SysCall)
      (hready : call.Ready t c) (hok : Ok t c call) (hrun : call.run c t = .ok (r, u)) : Run Ok s u

theorem Idle.like {s t : Kernel} (h : Idle s t) : s.Like t := by
  rw [h.rest]
  refine ⟨fun q => ?_, rfl, rfl, rfl, rfl, rfl, rfl, rfl, rfl⟩
  obtain ⟨st, chan, priority, pticks, ptotalticks, pass, hq, hst⟩ := h.proc q
  dsimp only
  rw [hq]
  exact ⟨hst, rfl, rfl, rfl, rfl, rfl, rfl, rfl, rfl⟩

theorem Idle.even {s t : Kernel} (h : Idle s t) : s.Even t := by
  rw [h.rest]
  refine ⟨fun q => ?_, rfl, rfl, rfl⟩
  obtain ⟨st, chan, priority, pticks, ptotalticks, pass, hq, -⟩ := h.proc q
  dsimp only
  rw [hq]
  exact ⟨rfl, rfl, rfl, rfl, rfl⟩

/-- What holds at the start and is kept by every step holds in every state reached. -/
theorem Run.induct {Ok : Kernel → Slot → SysCall → Prop} {I : Kernel → Prop} {s t : Kernel} (h : Run Ok s t)
    (hs : I s) (hidle : ∀ t u, I t → Idle t u → I u)
    (hcall : ∀ t c (call : SysCall), I t → call.Ready t c → Ok t c call →
      wp (call.run c) (fun _ u => I u) (fun _ => True) t) : I t := by
  induction h with
  | refl => exact hs
  | idle _ hi ih => exact hidle _ _ ih hi
  | call _ c call hready hok hrun ih => exact (hcall _ c call ih hready hok).of_run hrun

/-- The scheduler picks `c`. -/
def Kernel.dispatch (s : Kernel) (c : Slot) : Kernel := s.upd c fun x => { x with state := .running }

theorem Kernel.idle_dispatch {s : Kernel} {c : Slot} (h : s.Schedulable c) : Idle s (s.dispatch c) := by
  refine ⟨fun q => ?_, rfl⟩
  unfold dispatch
  rw [upd_proc]
  split
  · next hq => exact ⟨_, _, _, _, _, _, rfl, .inr ⟨hq ▸ h, .inr (.inr rfl)⟩⟩
  · exact ⟨_, _, _, _, _, _, rfl, .inl rfl⟩

/-- One after the other, processes are picked and make a call that meets `Ok`. -/
def play (Ok : Kernel → Slot → SysCall → Prop) [∀ s c call, Decidable (Ok s c call)] :
    List (Slot × SysCall) → Kernel → Option Kernel
  | [], s => some s
  | (c, call) :: rest, s =>
    if s.Schedulable c ∧ call.Ready (s.dispatch c) c ∧ Ok (s.dispatch c) c call then
      match call.run c (s.dispatch c) with
      | .ok r => play Ok rest r.2
      | .error _ => none
    else none

theorem Run.of_play {Ok : Kernel → Slot → SysCall → Prop} [∀ s c call, Decidable (Ok s c call)] {s₀ t : Kernel} :
    ∀ {calls : List (Slot × SysCall)} {s : Kernel}, Run Ok s₀ s → play Ok calls s = some t → Run Ok s₀ t
  | [], s, h, hp => Option.some.inj hp ▸ h
  | (c, sys) :: rest, s, h, hp => by
    unfold play at hp
    split at hp
    · next hc =>
      split at hp
      · next r hr => exact Run.of_play (.call (.idle h (Kernel.idle_dispatch hc.1)) c sys hc.2.1 hc.2.2 hr) hp
      · cases hp
    · cases hp

/-- A run found by playing it. -/
theorem Run.exists_of_play {Ok : Kernel → Slot → SysCall → Prop} [∀ s c call, Decidable (Ok s c call)] {s : Kernel}
    {calls : List (Slot × SysCall)} {test : Kernel → Bool} (h : (play Ok calls s).any test = true) :
    ∃ t, Run Ok s t ∧ test t = true := by
  cases hp : play Ok calls s with
  | none =>
    rw [hp] at h
    cases h
  | some t =>
    rw [hp] at h
    exact ⟨t, .of_play .refl hp, h⟩

/-! ## What a call comes to -/

/-- From `s` to `t`, `wait` of `c` passes over children once and reaps zombies that are not
    main threads. -/
inductive Kernel.Scanned (c : Slot) (s : Kernel) : Kernel → Prop where
  | refl : Scanned c s s
  | skip {t : Kernel} {p : Slot} (h : Scanned c s t) (hp : (t.proc p).parent = some c) : Scanned c s (t.skipped p)
  | reap {t : Kernel} {p : Slot} {k : Page} (h : Scanned c s t) (hz : (t.proc p).state = .zombie)
      (hm : (t.proc p).isMainThread = false) (hk : (t.proc p).kstack = some k) : Scanned c s (t.reaped p k)

section Scanned

variable {s t : Kernel} {c p : Slot}

/-- The caller of `wait` stays what it is. -/
theorem running_reaped {k : Page} (hc : (s.proc c).state = .running) (hp : (s.proc p).state = .zombie) :
    ((s.reaped p k).proc c).state = .running := by
  have hne : c ≠ p := by
    rintro rfl
    rw [hc] at hp
    cases hp
  rwa [Kernel.reaped_proc_ne hne]

theorem running_skipped (hc : (s.proc c).state = .running) : ((s.skipped p).proc c).state = .running := by
  unfold Kernel.skipped
  rw [Kernel.upd_proc]
  split <;> exact hc

theorem Kernel.Scanned.running (h : s.Scanned c t) (hc : (s.proc c).state = .running) :
    (t.proc c).state = .running := by
  induction h with
  | refl => exact hc
  | skip _ _ ih => exact running_skipped ih
  | reap _ hz _ _ ih => exact running_reaped ih hz

end Scanned

/-- The states that a call of `c` in state `s` can lead to. -/
inductive Kernel.After (s : Kernel) (c : Slot) : SysCall → Kernel → Prop where
  | mild {call : SysCall} {t : Kernel} (h : call.Mild) (hlike : s.Like t) (heven : s.Even t) : After s c call t
  | setCpuShare {share : Int} {t : Kernel} (hlike : s.Like t) : After s c (.setCpuShare share) t
  | full {stack dir : Option Page} (h : s.freeSlot = none) : After s c (.fork stack dir) s
  | forkSpoiled {stack dir dir' : Option Page} {p : Slot} (hp : s.freeSlot = some p) (h : stack = none ∨ dir = none) :
      After s c (.fork stack dir) (s.spoiled p dir')
  | forked {p : Slot} {k d : Page} {f : Files} (hp : s.freeSlot = some p) (hk : k ∉ s.live) (hd : d ∉ s.live)
      (hkd : k ≠ d) : After s c (.fork (some k) (some d)) (s.forked c p k d f)
  | noThread {stack : Option Page} {junk : ℚ} (h : (s.proc c).isThread = true ∨ s.freeSlot = none) :
      After s c (.threadCreate stack junk) s
  | createSpoiled {junk : ℚ} {p : Slot} (ht : (s.proc c).isThread = false) (hp : s.freeSlot = some p) :
      After s c (.threadCreate none junk) (s.spoiled p (s.proc p).pgdir)
  | threadUp {junk pass : ℚ} {p : Slot} {k : Page} {f : Files} (ht : (s.proc c).isThread = false)
      (hp : s.freeSlot = some p) (hk : k ∉ s.live) : After s c (.threadCreate (some k) junk)
        ((s.threaded c p k pass f).threadUp p (s.stackTop c (s.freeTid.getD 0)) (s.proc c).sz)
  | threadDown {junk pass : ℚ} {p : Slot} {k : Page} {f : Files} (ht : (s.proc c).isThread = false)
      (hp : s.freeSlot = some p) (hk : k ∉ s.live)
      (hpush : s.canPush (s.proc c).pgdir ((s.stackTop c (s.freeTid.getD 0) + (2 ^ 32 - 8)) % 2 ^ 32) = false) :
      After s c (.threadCreate (some k) junk) ((s.threaded c p k pass f).threadDown p)
  | exited {t : Kernel} (hne : s.initproc ≠ some c) (h : s.Left t c fun q => (s.proc q).pid = (s.proc c).pid) :
      After s c .exit t
  | threadExited {v : Int} {t : Kernel} (hne : s.initproc ≠ some c)
      (h : (s.upd c fun x => { x with retval := v }).Left t c (· = c)) : After s c (.threadExit v) t
  | notLoaded : After s c (.exec .bad) s
  | imaged {dir : Page} {usz n : Nat} (hfits : Fits s dir usz n) (hn : n < NPROC) :
      After s c (.exec (.short dir usz n)) (s.imaged c dir usz n)
  | execed {t : Kernel} {dir old : Page} {usz : Nat} (ht : (s.proc c).isThread = false)
      (hold : (s.proc c).pgdir = some old) (hfits : Fits s dir usz NPROC)
      (hz : (s.execed c dir usz).Zombified t c) : After s c (.exec (.ok dir usz)) (t.freeDir c old)
  | promoted {t : Kernel} {m : Slot} {dir old : Page} {usz : Nat} (ht : (s.proc c).isThread = true)
      (hold : (s.proc c).pgdir = some old) (hm : (s.proc c).parent = some m) (hfits : Fits s dir usz NPROC)
      (hz : (s.promoted c m dir usz).Zombified t c) : After s c (.exec (.ok dir usz)) (t.freeDir c old)
  | waited {t : Kernel} (h : s.Scanned c t) : After s c .wait t
  | dozed {t : Kernel} (h : s.Scanned c t) : After s c .wait (t.dozing c)
  | buried {t : Kernel} {p : Slot} {k d : Page} (h : s.Scanned c t) (hp : (t.proc p).parent = some c)
      (hz : (t.proc p).state = .zombie) (hm : (t.proc p).isMainThread = true) (ho : t.MainsOnly p)
      (hk : (t.proc p).kstack = some k) (hd : (t.proc p).pgdir = some d) :
      After s c .wait ((t.buried p k).freeDir p d)
  | noTarget {thread : Int} : After s c (.threadJoin thread) s
  | joining {p : Slot} {thread t : Int} : After s c (.threadJoin thread) (s.joining c p t)
  | joined {p : Slot} {k : Page} {thread t : Int} (ht : s.joinTarget c thread = some (p, t))
      (hp : ¬ s.Pending c p t) (hk : (s.proc p).kstack = some k) : After s c (.threadJoin thread) (s.joined c p k)

theorem SysCall.Mild.after {s : Kernel} {c : Slot} {call : SysCall} (h : call.Mild) :
    wp (call.run c) (fun _ t => s.After c call t) (fun _ => True) s :=
  h.like.mono (fun _ _ ht => .mild h ht.1 ht.2) fun _ _ => trivial

/-- There are no others. -/
theorem SysCall.Ready.after {s : Kernel} {c : Slot} {call : SysCall} (hready : call.Ready s c) :
    wp (call.run c) (fun _ t => s.After c call t) (fun _ => True) s := by
  have hrun := hready.running
  have hfresh := hready.fresh
  cases call with
  | fork stack dir =>
    simp only [run, wp_bind, wp_pure]
    refine wp_fork (Kernel.used_of_running hrun) hfresh.1 .full (fun p _ hp h => .forkSpoiled hp h)
      (fun p k d f hp hs hd _ => ?_) fun _ _ _ => trivial
    subst hs hd
    refine .forked hp (hfresh.1 k rfl) (hfresh.2 d rfl).1 ?_
    rintro rfl
    exact (hfresh.2 k rfl).2 rfl
  | threadCreate stack junk =>
    simp only [run, wp_bind, wp_pure]
    refine wp_threadCreate (Kernel.used_of_running hrun) .noThread (fun p ht hp h => ?_)
      (fun p k pass f _ _ ht hp hs _ => ?_) (fun p k pass f _ _ ht hp hs hpush => ?_) fun _ _ _ => trivial
    · subst h
      exact .createSpoiled ht hp
    · subst hs
      exact .threadUp ht hp (hfresh k rfl)
    · subst hs
      exact .threadDown ht hp (hfresh k rfl) hpush
  | threadExit v =>
    simp only [run, wp_bind, wp_pure]
    exact wp_threadExit (fun t hne ht => .threadExited hne ht) (fun _ => trivial) trivial
  | exit =>
    simp only [run, wp_bind, wp_pure]
    exact wp_exit (fun t hne ht => .exited hne ht) (fun _ => trivial) trivial trivial
  | exec img =>
    simp only [run, wp_bind, wp_pure]
    refine wp_execImage (fun h => ?_) (fun dir usz n h => ?_) (fun dir usz old t h ht hd hz => ?_)
      (fun dir usz old m t h ht hd hp hz => ?_) trivial fun _ => trivial
    · subst h
      exact .notLoaded
    · subst h
      exact .imaged hfresh.1 hfresh.2
    · subst h
      exact .execed ht hd hfresh hz
    · subst h
      exact .promoted ht hd hp hfresh hz
  | wait =>
    refine wp_wait (s.Scanned c) .refl (fun t p ht hp => ht.skip hp) (fun t q k ht hz hm hq => ht.reap hz hm hq)
      (fun _ _ _ _ _ => trivial) (fun t p ht hp hz hm ho => ?_) (fun _ _ _ _ _ _ _ => trivial)
      (fun t ht => .waited ht) fun t ht => .dozed ht
    rw [wp_reapProcess hm]
    exact ⟨fun _ => trivial, fun k hk => ⟨fun _ => trivial, fun d hd => .buried ht hp hz hm ho hk hd⟩⟩
  | threadJoin thread =>
    simp only [run, wp_bind]
    rw [wp_threadJoin]
    refine ⟨fun _ => .noTarget, fun p t ht => ?_⟩
    rw [wp_joinSlot]
    exact ⟨fun _ => .joining, fun hp => ⟨fun _ => trivial, fun k hk => .joined ht hp hk⟩⟩
  | setCpuShare share =>
    simp only [run, wp_bind, wp_pure]
    exact wp_setCpuShare_like.mono (fun _ _ ht => .setCpuShare ht) fun _ _ => trivial
  | kill _ => exact Mild.after trivial
  | sbrk _ _ => exact Mild.after trivial
  | file _ => exact Mild.after trivial

/-! ## Invariants -/

/-- `I` survives every step of a run: one field for each way in which a step hands
    slots on. `Ok` is what the call on the way meets. -/
structure Keeps (Ok : Kernel → Slot → SysCall → Prop) (I : Kernel → Prop) : Prop where
  like : ∀ {s t : Kernel}, I s → s.Like t → s.Even t → I t
  setCpuShare : ∀ {s : Kernel} {c : Slot} {share : Int}, I s → (s.proc c).state = .running →
    -2 ^ 31 ≤ share ∧ share < 2 ^ 31 → Ok s c (.setCpuShare share) →
    wp (setCpuShare c share) (fun _ t => I t) (fun _ => True) s
  forkSpoiled : ∀ {s : Kernel} {c p : Slot} {stack dir dir' : Option Page}, I s → (s.proc c).state = .running →
    s.freeSlot = some p → Ok s c (.fork stack dir) → stack = none ∨ dir = none → I (s.spoiled p dir')
  createSpoiled : ∀ {s : Kernel} {c p : Slot} {junk : ℚ}, I s → (s.proc c).state = .running →
    (s.proc c).isThread = false → s.freeSlot = some p → Ok s c (.threadCreate none junk) → I (s.spoiled p (s.proc p).pgdir)
  forked : ∀ {s : Kernel} {c p : Slot} {k d : Page} {f : Files}, I s → (s.proc c).state = .running →
    s.freeSlot = some p → k ∉ s.live → d ∉ s.live → k ≠ d → Ok s c (.fork (some k) (some d)) → I (s.forked c p k d f)
  threadUp : ∀ {s : Kernel} {c p : Slot} {k : Page} {junk pass : ℚ} {f : Files}, I s →
    (s.proc c).state = .running → (s.proc c).isThread = false → s.freeSlot = some p → k ∉ s.live →
    Ok s c (.threadCreate (some k) junk) →
    I ((s.threaded c p k pass f).threadUp p (s.stackTop c (s.freeTid.getD 0)) (s.proc c).sz)
  threadDown : ∀ {s : Kernel} {c p : Slot} {k : Page} {junk pass : ℚ} {f : Files}, I s →
    (s.proc c).state = .running → (s.proc c).isThread = false → s.freeSlot = some p → k ∉ s.live →
    s.canPush (s.proc c).pgdir ((s.stackTop c (s.freeTid.getD 0) + (2 ^ 32 - 8)) % 2 ^ 32) = false →
    Ok s c (.threadCreate (some k) junk) → I ((s.threaded c p k pass f).threadDown p)
  exited : ∀ {s t : Kernel} {c : Slot}, I s → (s.proc c).state = .running → s.initproc ≠ some c → Ok s c .exit →
    s.Left t c (fun q => (s.proc q).pid = (s.proc c).pid) → I t
  threadExited : ∀ {s t : Kernel} {c : Slot} {v : Int}, I s → (s.proc c).state = .running → s.initproc ≠ some c →
    Ok s c (.threadExit v) → (s.upd c fun x => { x with retval := v }).Left t c (· = c) → I t
  imaged : ∀ {s : Kernel} {c : Slot} {dir : Page} {usz n : Nat}, I s → (s.proc c).state = .running →
    Fits s dir usz n → n < NPROC → Ok s c (.exec (.short dir usz n)) → I (s.imaged c dir usz n)
  execed : ∀ {s t : Kernel} {c : Slot} {dir old : Page} {usz : Nat}, I s → (s.proc c).state = .running →
    (s.proc c).isThread = false → (s.proc c).pgdir = some old → Fits s dir usz NPROC →
    Ok s c (.exec (.ok dir usz)) → (s.execed c dir usz).Zombified t c → I (t.freeDir c old)
  promoted : ∀ {s t : Kernel} {c m : Slot} {dir old : Page} {usz : Nat}, I s → (s.proc c).state = .running →
    (s.proc c).isThread = true → (s.proc c).pgdir = some old → (s.proc c).parent = some m →
    Fits s dir usz NPROC → Ok s c (.exec (.ok dir usz)) → (s.promoted c m dir usz).Zombified t c →
    I (t.freeDir c old)
  reaped : ∀ {s : Kernel} {p : Slot} {k : Page}, I s → (s.proc p).state = .zombie →
    (s.proc p).isMainThread = false → (s.proc p).kstack = some k → I (s.reaped p k)
  buried : ∀ {s : Kernel} {p : Slot} {k d : Page}, I s → (s.proc p).state = .zombie →
    (s.proc p).isMainThread = true → (s.proc p).kstack = some k → (s.proc p).pgdir = some d →
    I ((s.buried p k).freeDir p d)
  joined : ∀ {s : Kernel} {c p : Slot} {k : Page} {thread t : Int}, I s → (s.proc c).state = .running →
    s.joinTarget c thread = some (p, t) → ¬ s.Pending c p t → (s.proc p).kstack = some k →
    Ok s c (.threadJoin thread) → I (s.joined c p k)

section Keeps

variable {Ok : Kernel → Slot → SysCall → Prop} {I : Kernel → Prop} {s t : Kernel} {c p : Slot}

/-- While `wait` goes over the table. -/
theorem Keeps.scanned (hk : Keeps Ok I) (h : s.Scanned c t) (hI : I s) : I t := by
  induction h with
  | refl => exact hI
  | skip _ _ ih => exact hk.like ih Kernel.like_skipped Kernel.even_skipped
  | reap _ hz hm hkstack ih => exact hk.reaped ih hz hm hkstack

theorem Keeps.after (hk : Keeps Ok I) {call : SysCall} (hI : I s) (hrun : (s.proc c).state = .running)
    (hok : Ok s c call) (hshare : ∀ share, call ≠ .setCpuShare share) (h : s.After c call t) : I t := by
  cases h with
  | full _ => exact hI
  | noThread _ => exact hI
  | notLoaded => exact hI
  | noTarget => exact hI
  | mild _ hlike heven => exact hk.like hI hlike heven
  | @setCpuShare share _ _ => exact absurd rfl (hshare share)
  | forkSpoiled hp h => exact hk.forkSpoiled hI hrun hp hok h
  | forked hp hk' hd hkd => exact hk.forked hI hrun hp hk' hd hkd hok
  | createSpoiled ht hp => exact hk.createSpoiled hI hrun ht hp hok
  | threadUp ht hp hk' => exact hk.threadUp hI hrun ht hp hk' hok
  | threadDown ht hp hk' hpush => exact hk.threadDown hI hrun ht hp hk' hpush hok
  | exited hne h => exact hk.exited hI hrun hne hok h
  | threadExited hne h => exact hk.threadExited hI hrun hne hok h
  | imaged hfits hn => exact hk.imaged hI hrun hfits hn hok
  | execed ht hold hfits hz => exact hk.execed hI hrun ht hold hfits hok hz
  | promoted ht hold hm hfits hz => exact hk.promoted hI hrun ht hold hm hfits hok hz
  | waited h => exact hk.scanned h hI
  | dozed h => exact hk.like (hk.scanned h hI) (Kernel.like_dozing (h.running hrun)) Kernel.even_dozing
  | buried h _ hz hm _ hkstack hd => exact hk.buried (hk.scanned h hI) hz hm hkstack hd
  | joining => exact hk.like hI (Kernel.like_joining hrun) Kernel.even_joining
  | joined ht hp hkstack => exact hk.joined hI hrun ht hp hkstack hok

theorem Keeps.call (hk : Keeps Ok I) {call : SysCall} (hI : I s) (hready : call.Ready s c) (hok : Ok s c call) :
    wp (call.run c) (fun _ t => I t) (fun _ => True) s := by
  have hrun := hready.running
  by_cases hshare : ∃ share, call = .setCpuShare share
  · obtain ⟨share, rfl⟩ := hshare
    simp only [SysCall.run, wp_bind, wp_pure]
    exact hk.setCpuShare hI hrun hready.fresh hok
  · exact hready.after.post fun _ t ht => hk.after hI hrun hok (fun share h => hshare ⟨share, h⟩) ht

theorem Keeps.run (hk : Keeps Ok I) (h : Run Ok s t) (hI : I s) : I t :=
  h.induct hI (fun _ _ ht hu => hk.like ht hu.like hu.even) fun _ _ _ ht hready hok => hk.call ht hready hok

end Keeps

end Xv6
